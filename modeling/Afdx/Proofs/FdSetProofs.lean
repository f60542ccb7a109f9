import Afdx.FdSets
import Afdx.Proofs.DescriptorProofs

/-!
# Registrations and descriptor sets

As long as `accept` returns descriptors below `FD_SETSIZE` the sets are as good as sets without a bound, and no
registration outlives its connection. From `FD_SETSIZE` on a client can be read and registered that is in no set.
-/

namespace Afdx

namespace Server

variable {am : ℕ} {s t : Server} {l : ServerLabel} {msg : MsgBytes}

end Server

end Afdx
