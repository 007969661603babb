import IpcBroker.Broker.Ownership
import IpcBroker.Broker.CleanupExact
import IpcBroker.Broker.ResponseRouting
import IpcBroker.Broker.WorkerLoss
import IpcBroker.Broker.CallRouting
import IpcBroker.Broker.FailedStart
import IpcBroker.Client.Correlation
import IpcBroker.Broker.CallTargets
import IpcBroker.Broker.ResponseCopies
import IpcBroker.Broker.Provenance
import IpcBroker.Broker.InFlight
import IpcBroker.Protocol.Json
import IpcBroker.Protocol.Stream
import IpcBroker.Broker.PublishSources
import IpcBroker.Broker.PublishDelivery
import IpcBroker.Broker.LockSections
import IpcBroker.Broker.LockOrder
import IpcBroker.Broker.RefusalRoom
import IpcBroker.Broker.LockProgress
import IpcBroker.Broker.Stalled
import IpcBroker.Foundation.Custody
import IpcBroker.Broker.CallCustody
import IpcBroker.Broker.EqualIds
import IpcBroker.Broker.ChannelOrder
import IpcBroker.Broker.CallOrder
import IpcBroker.Connections.Connections
import IpcBroker.Connections.Components
import IpcBroker.Connections.Backpressure
import IpcBroker.Rob.Signature
import IpcBroker.Rob.Denotation
import IpcBroker.Rob.Encoding
import IpcBroker.Rob.Acceptance
import IpcBroker.Protocol.CompactText
import IpcBroker.Broker.FrameSize
import IpcBroker.Worker.RunWorker
import IpcBroker.Client.Publish
import IpcBroker.Client.BrokenConnection
import IpcBroker.Client.EventDelivery
import IpcBroker.Broker.ReplyProgress
import IpcBroker.Foundation.Simulation
import IpcBroker.Foundation.RemoteCalls
import IpcBroker.Deployment.Deployment
import IpcBroker.Deployment.Links
import IpcBroker.Broker.DeliveredOnce
import IpcBroker.Deployment.RemoteCalls
import IpcBroker.Broker.AnswersForwarded
import IpcBroker.Deployment.CallsServed
import IpcBroker.Foundation.NameRegistry
import IpcBroker.Broker.Registry
import IpcBroker.Deployment.Listing
import IpcBroker.Client.RequestOrder
import IpcBroker.Client.AfterHangUp
import IpcBroker.Client.SubscriberOrder
import IpcBroker.Connections.Streams
import IpcBroker.Connections.Publications
import IpcBroker.Connections.Arrivals
import IpcBroker.Worker.Supervisor
import IpcBroker.Worker.Sessions
import IpcBroker.Worker.Recovery
