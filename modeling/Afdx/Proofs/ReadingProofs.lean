import Afdx.Proofs.DescriptorProofs
import Afdx.Proofs.EngineIndexProofs
import Afdx.Proofs.RequestProofs

/-!
# What the clients read

Two threads serve queries, each by reading `intdata` and writing the reply later. The replies that one
thread writes show the assignments of `elaboration_thread` in the order in which they are made. The two
threads together need not: a reply may be older than one that has been written before it.
-/

namespace Afdx

namespace Server

variable {am : ℕ} {s t : Server}

end Server

/-! ## From the packets to the replies -/

namespace Pipeline

variable {n : ℕ} {s t : Pipeline}

end Pipeline

namespace Daemon

variable {n am : ℕ} {msg : MsgBytes} {d e : Daemon}

/-- A request for the throttle of the engine 2. -/
def throttleMsg : List UInt8 := [1, 0, 0, 0, 7, 0, 0, 0, 2, 0, 0, 0, 0, 0, 0, 0]

/-- The assignment of the throttle is made for an ENGINE packet of the engine 2. -/
def throttlePacketRun : List PipelineLabel := packetRun 2 ++ [.elaboration (.assign .init)]

/-- The client asks for the throttle, and `application_manager` reads `intdata`. -/
def askThrottleRun : List ServerLabel :=
  Server.readableRun 4 ++ [.manager (.read throttleMsg), .manager (.serve Server.zeroSnapshot)]

/-- A client connects and registers the throttle of the engine 2. -/
def registerThrottleRun : List ServerLabel :=
  Server.acceptRun 4 ++ Server.readableRun 4 ++
    [.manager (.read [2, 0, 100, 0, 7, 0, 0, 0, 2, 0, 0, 0, 0, 0, 0, 0]), .manager .next,
      .manager (.schedule ⟨0, 0⟩)] ++ Server.nexts 3

/-- `scheduler_run` serves the query that is due. -/
def servePeriodicRun : List ServerLabel :=
  Server.popRun ++ List.replicate 6 (.scheduler .load) ++
    [.scheduler (.serve Server.zeroSnapshot), .scheduler .write]

/-- A client that has registered the throttle asks for it as well. `application_manager` reads `intdata`, the
    packet is stored, `scheduler_run` serves the query, and only then `application_manager` writes its reply. -/
def crossedReadingsRun : List DaemonLabel :=
  (registerThrottleRun ++ askThrottleRun).map .server ++ throttlePacketRun.map .pipeline ++
    servePeriodicRun.map .server ++ [.server (.manager .write)]

/- The order holds for each thread alone: here the newer value is written to the connection before the older one. -/
example : (Lts.run (step sizeQueue 3) (init 3 fun _ => 0) crossedReadingsRun).map
    (fun d => (d.server.replies 0).map fun r => r.reply.u8) = some [55, 0] := by decide

end Daemon

end Afdx
