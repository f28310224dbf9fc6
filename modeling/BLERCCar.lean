import BLERCCar.Lib.Machine
import BLERCCar.Lib.CString
import BLERCCar.Lib.LastWrite
import BLERCCar.Common.DriveMode
import BLERCCar.Common.Packets
import BLERCCar.Server.Motor
import BLERCCar.Server.Car
import BLERCCar.Server.CarRuns
import BLERCCar.Server.Callbacks
import BLERCCar.Server.Tasks
import BLERCCar.Server.Links
import BLERCCar.Server.Advertising
import BLERCCar.Server.Watchdog
import BLERCCar.Server.PwmRange
import BLERCCar.Server.Standstill
import BLERCCar.Remote.Control
import BLERCCar.Client.Threads
import BLERCCar.Lib.Replica
import BLERCCar.Remote.Mirror
import BLERCCar.Server.Granularity
import BLERCCar.Lib.Interleaving
import BLERCCar.Server.Writes
import BLERCCar.Server.Throttle
import BLERCCar.Server.Reversal
import BLERCCar.Server.Timeout
import BLERCCar.Client.Connecting
import BLERCCar.Client.Lifetime
import BLERCCar.Lib.Reading
import BLERCCar.Remote.OnAir
import BLERCCar.Remote.Receivers
import BLERCCar.Lib.Changes
import BLERCCar.Remote.Notifier
import BLERCCar.Server.Journal
import BLERCCar.Remote.Driving
import BLERCCar.Server.Startup
import BLERCCar.Lib.Rounding
import BLERCCar.Server.Distance
import BLERCCar.Lib.Binary64
import BLERCCar.Remote.Telemetry
import BLERCCar.Client.Main
import BLERCCar.Remote.Keyboard
import BLERCCar.Server.Duty
import BLERCCar.Server.Indicators
import BLERCCar.Lib.Words
import BLERCCar.SimpleDBus.Path
import BLERCCar.SimpleDBus.Proxy
import BLERCCar.SimpleDBus.Adding
import BLERCCar.SimpleDBus.Removing
import BLERCCar.SimpleDBus.Forwarding
import BLERCCar.SimpleDBus.Managed
import BLERCCar.SimpleDBus.Holder
import BLERCCar.SimpleDBus.LibDBus
import BLERCCar.SimpleDBus.Message
import BLERCCar.SimpleDBus.Extracting
import BLERCCar.SimpleDBus.Appending
import BLERCCar.SimpleDBus.Characteristic
import BLERCCar.Remote.Writing
import BLERCCar.Client.Discovery
import BLERCCar.Client.Agreement
import BLERCCar.Client.InOrder
