import WbServer.Switch
import WbServer.Thread
import WbServer.Scheduler.RoundRobin
import WbServer.Scheduler.Lifecycle
import WbServer.Scheduler.Exclusive
import WbServer.Scheduler.Stopping
import WbServer.Scheduler.Affinity
import WbServer.Scheduler.Finished
import WbServer.Scheduler.Threads
import WbServer.Scheduler.Lifetime
import WbServer.Log.Escape
import WbServer.Log.Range
import WbServer.Log.History
import WbServer.Log.Inherit
import WbServer.Log.Locks
import WbServer.Log.Codec
import WbServer.Log.Printf
import WbServer.Log.File
import WbServer.Config.Reload
import WbServer.Config.Aliases
import WbServer.Config.Exceptions
import WbServer.Config.Nested
import WbServer.Config.Lookup
import WbServer.Config.Listeners
import WbServer.Config.Writers
import WbServer.Config.Container
import WbServer.Config.Strings
import WbServer.Scheduler.Tickets
import WbServer.Log.Restore
import WbServer.Log.Delivery
import WbServer.Log.Races
import WbServer.Scheduler.Locked
