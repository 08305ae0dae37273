import Cs140e.Lib.Buf
import Cs140e.Lib.Prog
import Cs140e.Libpi.BitSupport

/-!
# Radio: commands over SPI

`nrf-util.c`: the commands of the chip. The chip and the wires are a parameter: a transfer sends as
many bytes as it receives.

* `Spi` — the other end of `spi_n_transfer`.
* `nrfGet8`, `nrfPut8`, `nrfBitIsset` — one register.
* `nrfGetn`, `nrfPutn` — several bytes, over their arrays `rx` and `tx` of 64 bytes.
* `nrfGetn_runs`, `nrfPutn_runs` — one transfer, when command and data fit the arrays;
  `nrfGetn_full`, `nrfPutn_full` — the one size that passes the assertions and does not fit.
-/

namespace Cs140e.Nrf

open Cs140e.Lib Cs140e.Lib.Prog

/-- A full-duplex link and the device behind it. Source: `libpi/include/spi.h` `spi_n_transfer`.
Kind: D -/
structure Spi (S : Type) where
  /-- What comes back for the bytes sent, and the state after. -/
  transfer : List UInt8 → S → List UInt8 × S
  length_eq : ∀ tx s, (transfer tx s).1.length = tx.length

variable {S : Type} (spi : Spi S)

/-- Source: `spi.h` `spi_n_transfer`. Kind: D -/
def spiNTransfer (tx : List UInt8) : Prog S Stop (List UInt8) := access (spi.transfer tx)

/-- Source: `nrf-internal.h` `NRF_NOP`. Kind: D -/
def nrfNop : UInt8 := 0b11111111

/-- Source: `nrf-internal.h` `NRF_WR_REG`. Kind: D -/
def nrfWrReg : UInt8 := 0b00100000

/-- Read the register `reg`: a transfer of two bytes. Source: `nrf-util.c` `nrf_get8`. Kind: D -/
def nrfGet8 (reg : UInt8) : Prog S Stop UInt8 := do
  let rx ← spiNTransfer spi [reg, nrfNop]
  return rx.getD 1 0

/-- Set the register `reg` to `v`; returns the status. Source: `nrf-util.c` `nrf_put8`. Kind: D -/
def nrfPut8 (reg v : UInt8) : Prog S Stop UInt8 := do
  let rx ← spiNTransfer spi [nrfWrReg ||| reg, v]
  return rx.getD 0 0

/-- Is bit `bitN` of `reg` set? Source: `nrf-util.c` `nrf_bit_isset`. Kind: D -/
def nrfBitIsset (reg bitN : UInt8) : Prog S Stop Bool := do
  check (decide (bitN < 8)) (.assert "bit_n<8")
  let x ← nrfGet8 spi reg
  let b ← ofResult (Libpi.bitIsOn x.toUInt32 bitN.toUInt32)
  return b == 1

/-- `uint8_t rx[64], tx[64]`, not initialized: what is read of them is written first.
Source: `nrf-util.c` `nrf_getn`, `nrf_putn`
Kind: D -/
def local64 : Buf UInt8 64 := .fill 64 0

/-- The two checks of a size. Source: `nrf-util.c` `nrf_getn`, `nrf_putn`. Kind: D -/
def checkNbytes (nbytes : UInt32) : Prog S Stop Unit := do
  check (decide (nbytes < 64 + 1)) (.assert "nbytes < (sizeof tx + 1)")
  check (decide (nbytes > 0)) (.assert "nbytes > 0")

/-- Send `cmd` and get `nbytes` of data: the status, and the data.
Source: `nrf-util.c` `nrf_getn`
Kind: D -/
def nrfGetn (cmd : UInt8) (nbytes : UInt32) : Prog S Stop (UInt8 × List UInt8) := do
  checkNbytes nbytes
  let tx ← ofResult (inBounds (local64.write 0 [cmd]))
  let tx ← ofResult (inBounds (tx.write 1 (List.replicate nbytes.toNat nrfNop)))
  let sent ← ofResult (inBounds (tx.read 0 (nbytes + 1).toNat))
  let got ← spiNTransfer spi sent
  let rx ← ofResult (inBounds (local64.write 0 got))
  let bytes ← ofResult (inBounds (rx.read 1 nbytes.toNat))
  let status ← ofResult (inBounds (rx.read 0 1))
  return (status.headD 0, bytes)

/-- Write `cmd` with `nbytes` of data, which are `bytes`: the status.
Source: `nrf-util.c` `nrf_putn`
Kind: D -/
def nrfPutn (cmd : UInt8) (bytes : List UInt8) : Prog S Stop UInt8 := do
  let nbytes := UInt32.ofNat bytes.length
  checkNbytes nbytes
  let tx ← ofResult (inBounds (local64.write 0 [cmd]))
  let tx ← ofResult (inBounds (tx.write 1 bytes))
  let sent ← ofResult (inBounds (tx.read 0 (nbytes + 1).toNat))
  let got ← spiNTransfer spi sent
  let rx ← ofResult (inBounds (local64.write 0 got))
  let status ← ofResult (inBounds (rx.read 0 1))
  return status.headD 0

/-! ## Sizes that fit -/

variable {spi} {cmd : UInt8} {nbytes : UInt32} {s t : S}

/-- Source: `nrf-util.c` `nrf_getn`, `nrf_putn`. Kind: L -/
theorem checkNbytes_of (hpos : 0 < nbytes.toNat) (hle : nbytes.toNat ≤ 64) :
    (checkNbytes nbytes : Prog S Stop Unit) = ret () := by
  have h₁ : nbytes < 64 + 1 := by
    rw [UInt32.lt_iff_toNat_lt]
    show nbytes.toNat < 65
    omega
  have h₂ : nbytes > 0 := by
    rw [gt_iff_lt, UInt32.lt_iff_toNat_lt]
    simpa using hpos
  unfold checkNbytes
  rw [check_of_true (by simpa using h₁), check_of_true (by simpa using h₂)]
  rfl

/-- A size that is refused is no size of a transfer. Source: `nrf-util.c` `nrf_getn`, `nrf_putn`.
Kind: L -/
theorem checkNbytes_inv {u : Unit} (h : Runs (checkNbytes nbytes) s (.ok u) t) :
    0 < nbytes.toNat ∧ nbytes.toNat ≤ 64 := by
  unfold checkNbytes check at h
  split at h
  · rename_i h₁
    simp only [bind_eq_seq, ret_bind] at h
    split at h
    · rename_i h₂
      have h₁' : nbytes < 64 + 1 := by simpa using h₁
      have h₂' : nbytes > 0 := by simpa using h₂
      rw [UInt32.lt_iff_toNat_lt] at h₁'
      rw [gt_iff_lt, UInt32.lt_iff_toNat_lt] at h₂'
      have h65 : (64 + 1 : UInt32).toNat = 65 := rfl
      rw [UInt32.toNat_zero] at h₂'
      omega
    · simp at h
  · simp at h

/-- The command and the data in `tx`. Source: `nrf-util.c` `nrf_getn`, `nrf_putn`. Kind: L -/
theorem tx_filled (cmd : UInt8) (data : List UInt8) (h : data.length + 1 ≤ 64) :
    ∃ tx tx', local64.write 0 [cmd] = some tx ∧ tx.write 1 data = some tx' ∧
      tx'.read 0 (data.length + 1) = some (cmd :: data) := by
  obtain ⟨pre, mid, post, hs, hpre, hmid⟩ := local64.exists_split (i := 0) (k := 1) (by omega)
  obtain rfl := List.length_eq_zero_iff.mp hpre
  obtain ⟨tx, hw, hs₁⟩ := hs.write [cmd] (by simpa using hmid.symm)
  have hl := hs₁.length
  simp only [List.length_nil, List.length_singleton] at hl
  have hs₂ : tx.Split [cmd] (post.take data.length) (post.drop data.length) := by
    rw [Buf.Split, List.append_assoc, List.take_append_drop]
    exact hs₁
  obtain ⟨tx', hw', hs₃⟩ := hs₂.write data (by rw [List.length_take]; omega)
  have hs₄ : tx'.Split [] (cmd :: data) (post.drop data.length) := hs₃
  exact ⟨tx, tx', hw, hw', hs₄.read⟩

/-- What came back in `rx`. Source: `nrf-util.c` `nrf_getn`, `nrf_putn`. Kind: L -/
theorem rx_filled {got : List UInt8} {n : Nat} (hgot : got.length = n + 1) (h : n + 1 ≤ 64) :
    ∃ rx, local64.write 0 got = some rx ∧ rx.read 1 n = some (got.drop 1) ∧
      rx.read 0 1 = some (got.take 1) := by
  obtain ⟨pre, mid, post, hs, hpre, hmid⟩ := local64.exists_split (i := 0) (k := n + 1) (by omega)
  obtain rfl := List.length_eq_zero_iff.mp hpre
  obtain ⟨rx, hw, hs₁⟩ := hs.write got (by omega)
  obtain ⟨g, got, rfl⟩ : ∃ g got', got = g :: got' := by
    cases got with
    | nil => simp at hgot
    | cons g got => exact ⟨g, got, rfl⟩
  have hlen : got.length = n := by simpa using hgot
  have hs₂ : rx.Split [g] got post := hs₁
  have hs₃ : rx.Split [] [g] (got ++ post) := hs₁
  have hread := hs₂.read
  rw [hlen] at hread
  exact ⟨rx, hw, hread, hs₃.read⟩

/-- The word after a size that fits. Source: `nrf-util.c` `nbytes+1`. Kind: L -/
theorem nbytes_succ_toNat (h : nbytes.toNat + 1 ≤ 64) : (nbytes + 1).toNat = nbytes.toNat + 1 := by
  rw [UInt32.toNat_add, show (1 : UInt32).toNat = 1 from rfl, Nat.mod_eq_of_lt (by omega)]

/-- What `nrf_getn` makes of the bytes received. Source: `nrf-util.c` `nrf_getn`. Kind: L -/
theorem unpack_eq {n : Nat} {got : List UInt8} (hgot : got.length = n + 1) (h : n + 1 ≤ 64) :
    (do let rx ← ofResult (inBounds (local64.write 0 got))
        let bytes ← ofResult (inBounds (rx.read 1 n))
        let status ← ofResult (inBounds (rx.read 0 1))
        return (status.headD 0, bytes) : Prog S Stop (UInt8 × List UInt8)) =
      ret (got.headD 0, got.drop 1) := by
  obtain ⟨rx, hrx, hdata, hstatus⟩ := rx_filled hgot h
  rw [hrx]
  simp only [bind_eq_seq, inBounds_some, ofResult_ok, ret_bind, hdata, hstatus, pure_eq_ret]
  cases got <;> rfl

/-- `nrf_getn` sends the command and as many blanks as it wants data.
Source: `nrf-util.c` `nrf_getn`
Kind: L -/
theorem nrfGetn_eq (spi : Spi S) (cmd : UInt8) (hpos : 0 < nbytes.toNat)
    (hfit : nbytes.toNat + 1 ≤ 64) : nrfGetn spi cmd nbytes =
      (spiNTransfer spi (cmd :: List.replicate nbytes.toNat nrfNop)).bind fun got => do
        let rx ← ofResult (inBounds (local64.write 0 got))
        let bytes ← ofResult (inBounds (rx.read 1 nbytes.toNat))
        let status ← ofResult (inBounds (rx.read 0 1))
        return (status.headD 0, bytes) := by
  obtain ⟨tx, tx', hw, hw', hread⟩ :=
    tx_filled cmd (List.replicate nbytes.toNat nrfNop) (by simpa using hfit)
  rw [List.length_replicate] at hread
  unfold nrfGetn
  rw [checkNbytes_of hpos (by omega), nbytes_succ_toNat hfit, hw]
  simp only [bind_eq_seq, ret_bind, inBounds_some, ofResult_ok, hw', hread]

/-- **`nrf_getn`** is one transfer, when the command and the data fit the arrays.
Source: `nrf-util.c` `nrf_getn`
Kind: P -/
theorem nrfGetn_runs (spi : Spi S) (cmd : UInt8) (hpos : 0 < nbytes.toNat)
    (hfit : nbytes.toNat + 1 ≤ 64) (s : S) :
    Runs (nrfGetn spi cmd nbytes) s
      (.ok ((spi.transfer (cmd :: List.replicate nbytes.toNat nrfNop) s).1.headD 0,
        (spi.transfer (cmd :: List.replicate nbytes.toNat nrfNop) s).1.drop 1))
      (spi.transfer (cmd :: List.replicate nbytes.toNat nrfNop) s).2 := by
  have hlen := spi.length_eq (cmd :: List.replicate nbytes.toNat nrfNop) s
  rw [List.length_cons, List.length_replicate] at hlen
  rw [nrfGetn_eq spi cmd hpos hfit, spiNTransfer, access, act_bind, runs_act_iff, ret_bind,
    unpack_eq hlen hfit]
  exact Runs.ret

/-- **`nrf_putn`** is one transfer, when the command and the data fit the arrays.
Source: `nrf-util.c` `nrf_putn`
Kind: P -/
theorem nrfPutn_runs (spi : Spi S) (cmd : UInt8) {bytes : List UInt8} (hpos : 0 < bytes.length)
    (hfit : bytes.length + 1 ≤ 64) (s : S) :
    Runs (nrfPutn spi cmd bytes) s (.ok ((spi.transfer (cmd :: bytes) s).1.headD 0))
      (spi.transfer (cmd :: bytes) s).2 := by
  obtain ⟨tx, tx', hw, hw', hread⟩ := tx_filled cmd bytes hfit
  have hlen := spi.length_eq (cmd :: bytes) s
  rw [List.length_cons] at hlen
  obtain ⟨rx, hrx, -, hstatus⟩ := rx_filled hlen hfit
  have hn : (UInt32.ofNat bytes.length).toNat = bytes.length :=
    UInt32.toNat_ofNat_of_lt' (Nat.lt_of_lt_of_le hfit (by decide))
  unfold nrfPutn
  dsimp only
  rw [checkNbytes_of (by omega) (by omega), nbytes_succ_toNat (by omega), hn, hw]
  simp only [bind_eq_seq, ret_bind, inBounds_some, ofResult_ok, hw', hread]
  simp only [spiNTransfer, access, act_bind, ret_bind, runs_act_iff, hrx, inBounds_some, ofResult_ok,
    hstatus, pure_eq_ret, runs_ret_iff, Except.ok.injEq, and_true]
  cases (spi.transfer (cmd :: bytes) s).1 <;> rfl

/-! ## The size that does not fit -/

/-- 64 bytes of data leave no place for the command. Source: `nrf-util.c` `nrf_getn`. Kind: L -/
theorem nrfGetn_full (spi : Spi S) (cmd : UInt8) (h : nbytes.toNat = 64) (s : S) :
    Runs (nrfGetn spi cmd nbytes) s (.error .outOfBounds) s := by
  obtain ⟨tx, -, hw, -, -⟩ := tx_filled cmd [] (by decide)
  have hover : tx.write 1 (List.replicate nbytes.toNat nrfNop) = none := by
    rw [Buf.write_eq_none_iff, List.length_replicate]
    omega
  unfold nrfGetn
  rw [checkNbytes_of (by omega) (by omega), hw]
  simp only [bind_eq_seq, ret_bind, inBounds_some, ofResult_ok, hover, inBounds_none,
    ofResult_error, raise_bind, runs_raise_iff, and_self]

/-- 64 bytes of data leave no place for the command. Source: `nrf-util.c` `nrf_putn`. Kind: L -/
theorem nrfPutn_full (spi : Spi S) (cmd : UInt8) {bytes : List UInt8} (h : bytes.length = 64) (s : S) :
    Runs (nrfPutn spi cmd bytes) s (.error .outOfBounds) s := by
  obtain ⟨tx, -, hw, -, -⟩ := tx_filled cmd [] (by decide)
  have hover : tx.write 1 bytes = none := by
    rw [Buf.write_eq_none_iff]
    omega
  have hn : (UInt32.ofNat bytes.length).toNat = 64 := by rw [h]; rfl
  unfold nrfPutn
  dsimp only
  rw [checkNbytes_of (by omega) (by omega), hw]
  simp only [bind_eq_seq, ret_bind, inBounds_some, ofResult_ok, hover, inBounds_none,
    ofResult_error, raise_bind, runs_raise_iff, and_self]

end Cs140e.Nrf
