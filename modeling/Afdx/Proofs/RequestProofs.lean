import Afdx.Proofs.ReplyProofs

/-!
# Requests and their answers

`application_manager` answers the requests of a connection on that connection, each once and in the order
in which they were sent, before it reads the next message of any client. What is written to the connection
besides these answers is written by `scheduler_run`.
-/

namespace Afdx

namespace Server

variable {am : ℕ} {s t : Server} {msg : MsgBytes}

/-- The replies to a connection. -/
def replies (s : Server) (c : ℕ) : List Sent := s.hist.sent.filter fun r => r.conn = c

end Server

end Afdx
