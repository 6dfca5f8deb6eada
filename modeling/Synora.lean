import Synora.Db.Fencing
import Synora.Manager.OperatorStop
import Synora.Mirror.Completeness
import Synora.Mirror.Gate
import Synora.Standalone.Recovery
import Synora.Cluster.Bookkeeping
import Synora.Cluster.Drain
import Synora.Cluster.Watchdog
import Synora.Cluster.Margin
import Synora.Manager.Dispatching
import Synora.Manager.Origin
import Synora.Manager.OneInflight
import Synora.Manager.Hold
import Synora.Cluster.Modes
import Synora.Engine.Schedule
import Synora.Lib.Script
import Synora.Engine.Reload
import Synora.Engine.ReloadFrame
import Synora.Engine.ReloadErrors
import Synora.Engine.Scheduler
import Synora.Engine.NoDrift
import Synora.Lib.Flock
import Synora.Storage.Locks
import Synora.Manager.Claiming
import Synora.Manager.RetryBudget
import Synora.Db.Projection
import Synora.Manager.LostRequeue
import Synora.Lib.Civil
import Synora.Lib.Toml
import Synora.Storage.Snapshots
import Synora.Engine.Cron
import Synora.Lib.Zone
import Synora.Engine.Calendar
import Synora.Engine.Occurrences
import Synora.Net.Route
import Synora.Lib.Slice
import Synora.Mirror.Checked
import Synora.Lib.FileTree
import Synora.Mirror.Disk
import Synora.Mirror.Inside
import Synora.Mirror.NoEscape
import Synora.Config.JobFile
import Synora.Config.Stripping
import Synora.Config.Deleting
import Synora.Lib.Periods
import Synora.Storage.Names
import Synora.Storage.Retention
import Synora.Storage.Subvolumes
import Synora.Engine.Durations
import Synora.Engine.Intervals
import Synora.Engine.CronFields
import Synora.Manager.Picker
import Synora.Cluster.QueueOrder
import Synora.Engine.FirstSlots
import Synora.Lib.Escape
import Synora.Mirror.Entities
import Synora.Mirror.Dates
import Synora.Mirror.Taken
import Synora.Mirror.Partials
import Synora.Mirror.SizeHint
import Synora.Mirror.Excluded
import Synora.Net.Socks
import Synora.Net.Expose
import Synora.Net.Headers
import Synora.Lib.Url
import Synora.Mirror.Fetched
import Synora.Mirror.Trailing
import Synora.Mirror.Rows
import Synora.Net.Rotation
import Synora.Lib.Authority
import Synora.Manager.Published
import Synora.Db.Connect
import Synora.Config.Tokens
import Synora.Config.Policies
import Synora.Config.Load
import Synora.Lib.Dependency
import Synora.Standalone.Rounds
import Synora.Config.Dependencies
import Synora.Lib.Tally
import Synora.Standalone.LocalRuns
import Synora.Standalone.StopRequests
import Synora.Engine.Terminal
import Synora.Config.Expand
import Synora.Lib.TomlLex
import Synora.Net.Credentials
import Synora.Mirror.Percent
import Synora.Engine.Alerts
import Synora.Engine.LogTail
import Synora.Core.Metrics
import Synora.Config.Escaping
import Synora.Mirror.Bounded
import Synora.Storage.Holders
import Synora.Manager.RepositorySizes
import Synora.Config.Cycles
import Synora.Db.Migrations
import Synora.Db.Placeholders
import Synora.Config.ApiSettings
import Synora.Config.DocumentCache
import Synora.Manager.Samples
import Synora.Net.Listener
import Synora.Manager.Identity
import Synora.Provider.Output
import Synora.Manager.JobLogs
import Synora.Provider.Http
