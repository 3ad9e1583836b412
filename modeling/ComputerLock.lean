import ComputerLock.Library.Delimited
import ComputerLock.Library.Utf8
import ComputerLock.Library.CText
import ComputerLock.Library.Runs
import ComputerLock.Library.Framing
import ComputerLock.Library.Utf16
import ComputerLock.Library.Decimal
import ComputerLock.Library.Fallible
import ComputerLock.Library.Stateful
import ComputerLock.Library.LittleEndian
import ComputerLock.Library.AddressSpace
import ComputerLock.Library.Slots
import ComputerLock.Library.Patches
import ComputerLock.CommonTools
import ComputerLock.Client.Message
import ComputerLock.Client.Settings
import ComputerLock.Client.Receive
import ComputerLock.Client.Reception
import ComputerLock.Client.Socket
import ComputerLock.Client.Ownership
import ComputerLock.Client.UpdateLoop
import ComputerLock.Client.Reconnection
import ComputerLock.Client.Synchronisation
import ComputerLock.Client.Ordering
import ComputerLock.Process.AllowList
import ComputerLock.Process.Startup
import ComputerLock.Process.Handler
import ComputerLock.Process.Classification
import ComputerLock.Process.Conversion
import ComputerLock.Process.Accounting
import ComputerLock.Process.EventSink
import ComputerLock.Process.Sweep
import ComputerLock.Process.Subscription
import ComputerLock.Trampoline.Policy
import ComputerLock.Trampoline.Race
import ComputerLock.Trampoline.Hook
import ComputerLock.Trampoline.Spelling
import ComputerLock.Trampoline.Exhaustion
import ComputerLock.Drive.Notification
import ComputerLock.Drive.Walk
import ComputerLock.Drive.Batch
import ComputerLock.Drive.Monitor
import ComputerLock.Rollout
import ComputerLock.Rewriting
import ComputerLock.Mediation
import ComputerLock.Mhook.Jump
import ComputerLock.Mhook.Disassembly
import ComputerLock.Mhook.Search
import ComputerLock.Mhook.Threads
import ComputerLock.Mhook.Install
import ComputerLock.Mhook.Engine
import ComputerLock.Mhook.Outcome
import ComputerLock.Mhook.Hooks
import ComputerLock.Mhook.Execution
import ComputerLock.Mhook.Standing
import ComputerLock.Mhook.CriticalSection
