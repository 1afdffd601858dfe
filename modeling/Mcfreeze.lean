import Mcfreeze.Lib.Bytes
import Mcfreeze.Lib.Streaming
import Mcfreeze.Lib.JsonText
import Mcfreeze.Lib.Serde
import Mcfreeze.Server.Catalog
import Mcfreeze.Server.Connection
import Mcfreeze.Server.Writes
import Mcfreeze.Server.Client
import Mcfreeze.Format.Layout
import Mcfreeze.Lib.Crash
import Mcfreeze.Lib.Exec
import Mcfreeze.Lib.Fences
import Mcfreeze.Lib.Lists
import Mcfreeze.Lib.XxHash
import Mcfreeze.V5.Appender
import Mcfreeze.V5.Assembly
import Mcfreeze.V5.Scan
import Mcfreeze.V5.Sketch
import Mcfreeze.V5.Limits
import Mcfreeze.V5.Radix
import Mcfreeze.V5.FrameHeader
import Mcfreeze.V4.Builder
import Mcfreeze.V4.Growth
import Mcfreeze.V4.Opened
import Mcfreeze.V4.Records
import Mcfreeze.V4.Simd
import Mcfreeze.Loader.Conserved
import Mcfreeze.Loader.Repartition
import Mcfreeze.Loader.Limit
import Mcfreeze.Loader.Columns
import Mcfreeze.Server.HotSwap
import Mcfreeze.Server.Routing
import Mcfreeze.Server.Wire
import Mcfreeze.Server.Serving
import Mcfreeze.ControlPlane.Restart
import Mcfreeze.ControlPlane.Sync
import Mcfreeze.ControlPlane.Versions
import Mcfreeze.ControlPlane.Builds
import Mcfreeze.ControlPlane.Retention
import Mcfreeze.ControlPlane.Lifecycle
import Mcfreeze.ControlPlane.Finalize
import Mcfreeze.ControlPlane.Names
import Mcfreeze.ControlPlane.Cleanup
import Mcfreeze.ControlPlane.Rollout
import Mcfreeze.ControlPlane.Meta
import Mcfreeze.ControlPlane.CronTable
import Mcfreeze.ControlPlane.WorkerFile
import Mcfreeze.NodeAgent.Handover
import Mcfreeze.NodeAgent.Volume
import Mcfreeze.NodeAgent.Serving
import Mcfreeze.NodeAgent.Detaching
import Mcfreeze.NodeAgent.Waiting
import Mcfreeze.Format.MetaFile
