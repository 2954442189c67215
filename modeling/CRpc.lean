import CRpc.Lib.Decoder
import CRpc.Buffer
import CRpc.Protocol
import CRpc.CoroConnection
import CRpc.Lib.Machine
import CRpc.ReadLoop
import CRpc.Framing
import CRpc.ReadProgress
import CRpc.EventLoop
import CRpc.CompletionRouting
import CRpc.EchoSession
import CRpc.SessionInvariant
import CRpc.SessionRun
import CRpc.WriteOrder
import CRpc.SessionHistory
import CRpc.SyncEcho
import CRpc.AsyncEcho
import CRpc.PendingOps
import CRpc.ConnectionResources
import CRpc.Server
import CRpc.ServerInvariant
import CRpc.Shutdown
import CRpc.SubmissionQueue
import CRpc.ServerProjection
import CRpc.BufferQueue
import CRpc.MessageCodec
import CRpc.Resync
import CRpc.PartialWrites
import CRpc.QueueConsumer
import CRpc.Connections
import CRpc.Ownership
import CRpc.ResourceLifetime
import CRpc.QueueProjection
import CRpc.StopRequest
import CRpc.Coroutine
import CRpc.CoroutineInvariant
import CRpc.TaskAwait
import CRpc.CoroutineProgress
import CRpc.WriteTask
import CRpc.Lib.StrictReader
import CRpc.ResponseReader
import CRpc.Lib.Endpoint
import CRpc.Pipeline
import CRpc.PipelineInvariant
import CRpc.PostedOps
import CRpc.SessionProgress
import CRpc.ReadMemory
import CRpc.Link
import CRpc.LinkProgress
import CRpc.PipelineEcho
import CRpc.PipelineErrors
import CRpc.PingPong
import CRpc.PingPongEcho
import CRpc.DrainBound
import CRpc.DrainProlonged
import CRpc.PoolTeardown
import CRpc.ClientView
import CRpc.Process
import CRpc.ClientService
