import RemoteCall.Cancel.Desk
import RemoteCall.Proofs.Branch.Atomicity
import RemoteCall.Proofs.Branch.Descriptor
import RemoteCall.Proofs.Branch.Discipline
import RemoteCall.Proofs.Branch.Prepared
import RemoteCall.Proofs.Branch.Work
import RemoteCall.Proofs.Cancel.Standing
import RemoteCall.Proofs.Client.Affinity
import RemoteCall.Proofs.Client.Branch
import RemoteCall.Proofs.Client.Outcomes
import RemoteCall.Proofs.Client.Pinning
import RemoteCall.Proofs.Client.Sharing
import RemoteCall.Proofs.Codec.Canonical
import RemoteCall.Proofs.Codec.Legacy
import RemoteCall.Proofs.Codec.Screening
import RemoteCall.Proofs.Codec.Shape
import RemoteCall.Proofs.Codec.Spelling
import RemoteCall.Proofs.FaultChain
import RemoteCall.Proofs.Http.Selection
import RemoteCall.Proofs.Invocation.Arity
import RemoteCall.Proofs.Invocation.Carriable
import RemoteCall.Proofs.Invocation.Entries
import RemoteCall.Proofs.MediaType
import RemoteCall.Proofs.Service.ClassFilter
import RemoteCall.Proofs.Service.Conduct
import RemoteCall.Proofs.Service.Echo
import RemoteCall.Proofs.Service.Interplay
import RemoteCall.Proofs.Service.Isolation
import RemoteCall.Proofs.Service.Pipeline
import RemoteCall.Proofs.Service.Records
import RemoteCall.Proofs.Service.Reporting
import RemoteCall.Proofs.Service.Running
import RemoteCall.Proofs.Service.Simulation
import RemoteCall.Proofs.Service.Workers
import RemoteCall.Service.Scenario
