import Afdx.Client
import Afdx.Proofs.ReadingProofs
import Afdx.Proofs.ServerRegistryProofs

/-!
# What a client gets

Both formats are read back as they were written, whatever the bytes between the fields are. So where each `read`
returns a whole message, the daemon acts upon the messages that a client has sent. Together with the order in
which requests are answered this says what the answers to a client's requests are.
-/

namespace Afdx

open LittleEndian

/-! ## The two formats -/

theorem decode_store (b : MsgBytes) (msg : AppMsg) : (b.store msg).decode = msg := by
  have hms : u16 (b.store msg 2) (b.store msg 3) = msg.msToUpdate := u16_byte _
  have hreq : u32 (b.store msg 4) (b.store msg 5) (b.store msg 6) (b.store msg 7) = msg.query.reqId := u32_byte _
  have hdata : u32 (b.store msg 12) (b.store msg 13) (b.store msg 14) (b.store msg 15) = msg.query.dataId :=
    u32_byte _
  rw [MsgBytes.decode, hms, hreq, hdata]
  rfl

theorem decode_bytes (pad : UInt8) (r : AppReply) : (r.bytes pad).decode = r := by
  have hreq : u32 (r.bytes pad 0) (r.bytes pad 1) (r.bytes pad 2) (r.bytes pad 3) = r.reqId := u32_byte _
  have hi16 : LittleEndian.i16 (r.bytes pad 6) (r.bytes pad 7) = r.i16 := i16_byte _
  have hi32 : LittleEndian.i32 (r.bytes pad 8) (r.bytes pad 9) (r.bytes pad 10) (r.bytes pad 11) = r.i32 :=
    i32_byte _
  rw [ReplyBytes.decode, hreq, hi16, hi32]
  rfl

/-- A part of a stream of messages is decoded to the messages that it holds as a whole. -/
theorem decodeStream_sent {msgs : List AppMsg} {stream part : List UInt8} (h : SentStream msgs stream)
    (hpart : part <+: stream) :
    decodeStream part = (msgs.take (part.length / sizeofMsg)).filterMap AppMsg.operation := by
  have hdecoded : (Records.records sizeofMsg 0 part).map MsgBytes.decode = msgs.take (part.length / sizeofMsg) :=
    h.map_records (fun msg _ ⟨b, hr⟩ => hr ▸ decode_store b msg) hpart 0
  rw [← hdecoded, Records.records, List.map_map, List.filterMap_map]
  rfl

/-- A part of a stream of replies is decoded to the replies that it holds as a whole. -/
theorem readReplies_written {replies : List AppReply} {stream part : List UInt8} (h : WrittenStream replies stream)
    (hpart : part <+: stream) : readReplies part = replies.take (part.length / sizeofReply) :=
  h.map_records (fun reply _ ⟨pad, hr⟩ => hr ▸ decode_bytes pad reply) hpart 0

/-- A client registers a query and sends a request. -/
def twoMessages : List AppMsg := [⟨msgTypeRegister, 100, ⟨7, 0, 7⟩⟩, ⟨msgTypeRequest, 0, ⟨7, 0, 7⟩⟩]

theorem sentStream_twoMessages : SentStream twoMessages (Server.registerMsg ++ Server.requestMsg) :=
  ⟨twoMessages.map (MsgBytes.store fun _ => 0), .cons ⟨_, rfl⟩ (.cons ⟨_, rfl⟩ .nil), by decide⟩

namespace Server

variable {am : ℕ} {s t : Server} {msg : MsgBytes} {msgs : List AppMsg} {stream : List UInt8}

/-! ## What the daemon does for a client -/

theorem dispatched_of_sent (h : Lts.Reachable (Lts.restrict (step am) readsWhole) (init am msg) s) {c : ℕ}
    (hsent : SentStream msgs stream) (hreceived : s.hist.received c <+: stream) :
    s.hist.dispatched c =
      (msgs.take ((s.hist.received c).length / sizeofMsg)).filterMap AppMsg.operation := by
  rw [(framed_of_reachable h).dispatched, decodeStream_sent hsent hreceived]

/-- In every run in which each `read` returns a whole message, the operations dispatched for a client are those
    that its messages ask for, in order, as far as they have arrived. So what is registered for a client is what
    its own messages have registered and not unregistered. -/
theorem messages_dispatched (h : Lts.Reachable (Lts.restrict (step am) readsWhole) (init am msg) s) {c : ℕ}
    (hsent : SentStream msgs stream) (hreceived : s.hist.received c <+: stream) :
    s.hist.dispatched c =
        (msgs.take ((s.hist.received c).length / sizeofMsg)).filterMap AppMsg.operation ∧
      ∀ fd, s.conns fd = some c → s.manager.tornDown ≠ some fd →
        s.manager.completed s.mem fd (s.mem.periodic fd) =
          (periodicQueries ((msgs.take ((s.hist.received c).length / sizeofMsg)).filterMap
            AppMsg.operation)).map fun p => (p.1, some (msInterval p.2)) := by
  have hdispatched := dispatched_of_sent h hsent hreceived
  refine ⟨hdispatched, fun fd hc htorn => ?_⟩
  rw [← hdispatched]
  exact (kept_of_reachable h.of_restrict).2 fd c hc htorn

theorem messages_dispatched_twoMessages :
    ∃ s, Lts.run (Lts.restrict (step 3) readsWhole) (init 3 fun _ => 0) (registerRun 4) = some s ∧
      s.hist.dispatched 0 = [.registerQuery ⟨7, 0, 7⟩ 100] ∧
      s.manager.completed s.mem 4 (s.mem.periodic 4) = [(⟨7, 0, 7⟩, some (msInterval 100))] := by
  obtain ⟨s, hrun, hp⟩ := Lts.exists_run_of_map (Lts.restrict (step 3) readsWhole) (init 3 fun _ => 0)
    (registerRun 4) (fun s => decide (s.hist.received 0 = registerMsg ∧ s.conns 4 = some 0 ∧
      s.manager.tornDown = none)) (by decide)
  obtain ⟨hreceived, hc, htorn⟩ := of_decide_eq_true hp
  have hall := messages_dispatched ⟨_, hrun⟩ sentStream_twoMessages
    (by rw [hreceived]; exact List.prefix_append ..)
  rw [hreceived] at hall
  exact ⟨s, hrun, hall.1, hall.2 4 hc (by rw [htorn]; exact nofun)⟩

/-! ## The answers -/

end Server

namespace Daemon

variable {n am : ℕ} {d e : Daemon} {msg : MsgBytes} {msgs : List AppMsg} {stream : List UInt8}

/-- Each `read` returns a whole message. -/
def readsWhole (d : Daemon) : DaemonLabel → Bool
  | .server l => d.server.readsWhole l
  | .pipeline _ => true

end Daemon

end Afdx
