import Cs140e.Libpi.CircularSpsc
import Cs140e.Libpi.CircularPeek
import Cs140e.Libpi.CircularCount
import Cs140e.Libpi.CircularBulk
import Cs140e.Libpi.CircularRollback
import Cs140e.Libpi.PrintLong
import Cs140e.Libpi.PrintWord
import Cs140e.Libpi.Memmove
import Cs140e.Libpi.MemcpyWords
import Cs140e.Libpi.BitFields
import Cs140e.Libpi.Timer
import Cs140e.Libpi.Crc32
import Cs140e.Libpi.RpiRand
import Cs140e.Libpi.Q
import Cs140e.LibpiFake.PutGet
import Cs140e.LibpiFake.PiRandomPeriod
import Cs140e.LibpiFake.PiRandomStates
import Cs140e.LibpiFake.FakePi
import Cs140e.Esp.Chunking
import Cs140e.Esp.Lengths
import Cs140e.Esp.Dialog
import Cs140e.Esp.Echo
import Cs140e.Esp.Reading
import Cs140e.Esp.Respond
import Cs140e.Esp.Progress
import Cs140e.Esp.Restore
import Cs140e.Esp.Session
import Cs140e.Esp.PingPong
import Cs140e.Boot.Print
import Cs140e.Boot.Sync
import Cs140e.Libunix.PiDone
import Cs140e.Libunix.PiEcho
import Cs140e.Nrf.RoundTrip
import Cs140e.Nrf.Bounds
import Cs140e.Nrf.Stream
import Cs140e.Nrf.Messages
import Cs140e.Nrf.Estimate
import Cs140e.Nrf.Layout
import Cs140e.Fat32.LfnRun
import Cs140e.Fat32.Rendering
import Cs140e.Pitag.Link
import Cs140e.Threads.Pool
