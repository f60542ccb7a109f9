import Afdx.Pipeline
import Afdx.Server
import Afdx.Lib.LastWrite
import Afdx.Scheduler
import Afdx.RegistrySpec
import Afdx.Lib.Heap
import Afdx.Lib.Chain
import Afdx.Proofs.SemaphoreProofs
import Afdx.Proofs.UnregisterProofs
import Afdx.Proofs.PipelineProofs
import Afdx.Proofs.SpuriousProofs
import Afdx.Proofs.IntdataProofs
import Afdx.Proofs.ActionProofs
import Afdx.Proofs.FaultProofs
import Afdx.Proofs.EngineIndexProofs
import Afdx.Proofs.SchedulingProofs
import Afdx.Proofs.DescriptorProofs
import Afdx.Proofs.ServerSchedulingProofs
import Afdx.Proofs.DatagramProofs
import Afdx.Proofs.ServeQueryProofs
import Afdx.Proofs.RoundProofs
import Afdx.Proofs.SchedulerListProofs
import Afdx.Proofs.QueueCallsProofs
import Afdx.Proofs.CadenceProofs
import Afdx.Proofs.ServerRegistryProofs
import Afdx.Proofs.OwnershipProofs
import Afdx.Proofs.RequestProofs
import Afdx.Proofs.ReadingProofs
import Afdx.Proofs.ReportProofs
import Afdx.Proofs.ClientProofs
import Afdx.Proofs.ProgressProofs
import Afdx.Proofs.ReuseProofs
import Afdx.Proofs.OverwriteProofs
import Afdx.Proofs.FdSetProofs
