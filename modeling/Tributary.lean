import Tributary.Glob.Series
import Tributary.Glob.Keys
import Tributary.Glob.Retired
import Tributary.Glob.Wildcard
import Tributary.Config.Atomic
import Tributary.Config.Check
import Tributary.Config.Differences
import Tributary.Coordinator.Reload
import Tributary.Credential.Renewal
import Tributary.Credential.Rotation
import Tributary.Cursor.Coverage
import Tributary.Cursor.Transforms
import Tributary.Cursor.Unmappable
import Tributary.Drain.Framing
import Tributary.Drain.Law
import Tributary.Framer.Partition
import Tributary.Framer.Runtimes
import Tributary.FileSource.Bisect
import Tributary.FileSource.Books
import Tributary.FileSource.Checkpoint
import Tributary.FileSource.Completeness
import Tributary.FileSource.DiskFull
import Tributary.FileSource.Overshoot
import Tributary.FileSource.Pause
import Tributary.FileSource.Slot
import Tributary.FileSource.Clock
import Tributary.FileSource.Fates
import Tributary.K8s.Grammar
import Tributary.Otlp.Attributes
import Tributary.Otlp.Received
import Tributary.Lp.Parse
import Tributary.Otlp.Acknowledge
import Tributary.Otlp.Unique
import Tributary.Queue.Fifo
import Tributary.Stamp.Order
import Tributary.Stamp.Exact
import Tributary.Stamp.Replay
import Tributary.Tail.Late
import Tributary.Telemetry.Running
import Tributary.Tail.Truncated
import Tributary.Tail.Resume
import Tributary.FileSource.Restored
import Tributary.LogFile.Literal
import Tributary.LogFile.Retention
import Tributary.Ship.Pool
import Tributary.Metrics.Mountinfo
import Tributary.Metrics.InjectTags
import Tributary.Metrics.DeadMounts
import Tributary.Checkpoint.Publish
import Tributary.Drain.Relay
import Tributary.Lib.Rounding
import Tributary.LogFile.Sink
import Tributary.LogFile.Usage
import Tributary.Metrics.Collector
import Tributary.Otlp.Delivery
