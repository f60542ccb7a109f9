import Afdx.Pipeline
import Afdx.Server

/-!
# The daemon

The packet pipeline and the server side by side. They share `intdata`, which `elaboration_thread` writes
and `serve_query` reads, and the process: an `exit(1)` in one thread ends all four.
-/

namespace Afdx

structure Daemon where
  pipeline : Pipeline
  server : Server

inductive DaemonLabel
  | pipeline (l : PipelineLabel)
  | server (l : ServerLabel)

/-- `serve_query` reads `data`, whatever the label says. -/
def ServerLabel.reading (data : Intdata) : ServerLabel → ServerLabel
  | .manager (.serve snap) => .manager (.serve { snap with data := data })
  | .scheduler (.serve snap) => .scheduler (.serve { snap with data := data })
  | l => l

namespace Daemon

def init (am : ℕ) (msg : MsgBytes) : Daemon := ⟨.init, .init am msg⟩

/-- One step of the daemon; `n` is `SIZE_QUEUE`. -/
def step (n am : ℕ) (d : Daemon) : DaemonLabel → Option Daemon
  | .pipeline l =>
    if d.server.running then
      (Pipeline.step n d.pipeline l).map fun pipeline => { d with pipeline := pipeline }
    else none
  | .server l =>
    match d.pipeline.network with
    | .exit => none
    | _ =>
      (Server.step am d.server (l.reading d.pipeline.intdata)).map fun server =>
        { d with server := server }

end Daemon

end Afdx
