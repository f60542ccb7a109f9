import Afdx.Proofs.ActionProofs
import Mathlib.Data.List.GetD

/-!
# Messages on a stream socket

`application_manager` takes every chunk that `read` returns for a whole `app_msg_t`. Where each chunk is
one, the operations dispatched for a client are those that its stream asks for. A chunk that is shorter
breaks this at once if its first byte is a message type.
-/

namespace Afdx

/-! ## Decoding a stream -/

theorem recordAt_append {xs : List UInt8} (ys : List UInt8) {i : ℕ} (hi : i < xs.length / sizeofMsg) :
    recordAt (xs ++ ys) i = recordAt xs i := by
  funext j
  have hj : sizeofMsg * i + j < xs.length := by
    have := j.isLt
    unfold sizeofMsg at *
    omega
  exact List.getD_append _ _ _ _ hj

/-- The operations of the whole records do not depend on what follows them. -/
theorem decodeStream_append {xs : List UInt8} (ys : List UInt8) :
    decodeStream (xs ++ ys) = decodeStream xs ++
      (List.range' (xs.length / sizeofMsg)
        ((xs ++ ys).length / sizeofMsg - xs.length / sizeofMsg)).filterMap
        fun i => (recordAt (xs ++ ys) i).decode.operation := by
  have hle : xs.length / sizeofMsg ≤ (xs ++ ys).length / sizeofMsg :=
    Nat.div_le_div_right (by simp)
  obtain ⟨k, hk⟩ := Nat.exists_eq_add_of_le hle
  unfold decodeStream
  rw [hk, Nat.add_sub_cancel_left, List.range_add, List.filterMap_append, List.range'_eq_map_range]
  congr 1
  refine List.filterMap_congr fun i hi => ?_
  rw [recordAt_append ys (List.mem_range.mp hi)]

/-- A chunk that is too short to complete a record adds no operation. -/
theorem decodeStream_append_short {xs chunk : List UInt8} (hxs : sizeofMsg ∣ xs.length)
    (hchunk : chunk.length < sizeofMsg) : decodeStream (xs ++ chunk) = decodeStream xs := by
  have hlen : (xs ++ chunk).length / sizeofMsg = xs.length / sizeofMsg := by
    rw [List.length_append]
    unfold sizeofMsg at *
    omega
  rw [decodeStream_append, hlen, Nat.sub_self, List.range'_zero, List.filterMap_nil, List.append_nil]

/-- A chunk that is a whole record adds the operation of that record. -/
theorem decodeStream_append_whole {xs chunk : List UInt8} (hxs : sizeofMsg ∣ xs.length)
    (hchunk : chunk.length = sizeofMsg) (b : MsgBytes) :
    decodeStream (xs ++ chunk) = decodeStream xs ++ (b.overlay chunk).decode.operation.toList := by
  have hlen : (xs ++ chunk).length / sizeofMsg = xs.length / sizeofMsg + 1 := by
    rw [List.length_append]
    unfold sizeofMsg at *
    omega
  have hrec : recordAt (xs ++ chunk) (xs.length / sizeofMsg) = b.overlay chunk := by
    funext j
    have hj : (j : ℕ) < chunk.length := j.isLt.trans_eq hchunk.symm
    rw [recordAt, Nat.mul_div_cancel' hxs, List.getD_append_right _ _ _ _ (Nat.le_add_right _ _),
      Nat.add_sub_cancel_left, MsgBytes.overlay,
      List.getD_eq_getElem _ _ hj, List.getD_eq_getElem _ _ hj]
  rw [decodeStream_append, hlen, Nat.add_sub_cancel_left]
  simp only [List.range'_one, List.filterMap_cons, List.filterMap_nil, hrec]
  cases (b.overlay chunk).decode.operation <;> rfl

/-- Whether a message of this type asks for an operation. -/
def isMsgType (b : UInt8) : Bool := b = msgTypeRequest || b = msgTypeRegister || b = msgTypeUnregister

theorem operation_isSome (b : MsgBytes) {chunk : List UInt8} (hchunk : 0 < chunk.length) :
    (b.overlay chunk).decode.operation.isSome = isMsgType (chunk.headD 0) := by
  have htype : (b.overlay chunk).decode.msgType = chunk.headD 0 := by
    cases chunk with
    | nil => simp at hchunk
    | cons x xs => rfl
  unfold AppMsg.operation isMsgType
  rw [htype]
  split_ifs <;> simp_all

namespace Server

variable {am : ℕ} {s t : Server} {msg : MsgBytes}

/-- `read` returns a whole `app_msg_t`, if the step is a `read`. -/
def readsWhole (_ : Server) : ServerLabel → Bool
  | .manager (.read chunk) => chunk.length = sizeofMsg
  | _ => true

/-- What the two histories of a connection look like between two messages. -/
structure Framed (s : Server) : Prop where
  whole : ∀ c, sizeofMsg ∣ (s.hist.received c).length
  dispatched : ∀ c, s.hist.dispatched c = decodeStream (s.hist.received c)

/-- Only `read` adds to the two histories. -/
theorem hist_of_not_read {l : ServerLabel} (h : step am s l = some t)
    (hl : ∀ chunk, l ≠ .manager (.read chunk)) :
    t.hist.received = s.hist.received ∧ t.hist.dispatched = s.hist.dispatched := by
  cases step_logged h with
  | read chunk fd conn hread => exact (hl chunk hread).elim
  | nothing _ hist | serve _ _ _ _ hist | write _ _ _ _ _ _ _ hist =>
    rw [hist]
    exact ⟨rfl, rfl⟩

/-- What a `read` adds: the chunk, and the operation of `packet_msg` with the chunk laid over it. -/
theorem hist_of_read {chunk : List UInt8} (h : step am s (.manager (.read chunk)) = some t) :
    ∃ fd c, s.conns fd = some c ∧ 0 < chunk.length ∧ chunk.length ≤ sizeofMsg ∧
      t.hist.received = Function.update s.hist.received c (s.hist.received c ++ chunk) ∧
      t.hist.dispatched = Function.update s.hist.dispatched c
        (s.hist.dispatched c ++ (s.packetMsg.overlay chunk).decode.operation.toList) := by
  cases step_logged h with
  | read chunk' fd c hread hc hpos hle hist =>
    cases hread
    exact ⟨fd, c, hc, hpos, hle, by rw [hist], by rw [hist]⟩
  | nothing hl | serve _ _ hl | write _ _ _ _ hl => exact (hl chunk rfl).elim

theorem Framed.step (hF : Framed s) {l : ServerLabel} (hok : s.readsWhole l = true)
    (h : Server.step am s l = some t) : Framed t := by
  by_cases hread : ∃ chunk, l = .manager (.read chunk)
  · obtain ⟨chunk, rfl⟩ := hread
    have hlen : chunk.length = sizeofMsg := of_decide_eq_true hok
    obtain ⟨_, c, -, -, -, hr, hd⟩ := hist_of_read h
    constructor
    · intro c'
      rw [hr]
      by_cases hc : c' = c
      · subst hc
        rw [Function.update_self, List.length_append, hlen]
        exact Nat.dvd_add (hF.whole c') (Nat.dvd_refl _)
      · rw [Function.update_of_ne hc]
        exact hF.whole c'
    · intro c'
      rw [hr, hd]
      by_cases hc : c' = c
      · subst hc
        rw [Function.update_self, Function.update_self, hF.dispatched,
          decodeStream_append_whole (hF.whole c') hlen s.packetMsg]
      · rw [Function.update_of_ne hc, Function.update_of_ne hc]
        exact hF.dispatched c'
  · obtain ⟨hr, hd⟩ := hist_of_not_read h fun chunk hl => hread ⟨chunk, hl⟩
    exact ⟨hr ▸ hF.whole, by rw [hr, hd]; exact hF.dispatched⟩

theorem framed_of_reachable
    (h : Lts.Reachable (Lts.restrict (Server.step am) readsWhole) (init am msg) s) : Framed s :=
  h.invariant (I := Framed) ⟨fun _ => Nat.dvd_zero _, fun _ => by simp [init, decodeStream]⟩ fun s l t hF hs =>
    hF.step (Lts.restrict_eq_some.mp hs).1 (Lts.restrict_eq_some.mp hs).2

/-- Where every `read` returns a whole record, the operations dispatched for each client are those that
    its own stream asks for. The first `read` that returns less breaks this, unless the chunk does not
    start with a message type. -/
theorem dispatched_decodes_iff (am : ℕ) (msg : MsgBytes) :
    ∀ s, Lts.Reachable (Lts.restrict (step am) readsWhole) (init am msg) s →
      (∀ c, s.hist.dispatched c = decodeStream (s.hist.received c)) ∧
      ∀ chunk t, step am s (.manager (.read chunk)) = some t →
        ((∀ c, t.hist.dispatched c = decodeStream (t.hist.received c)) ↔
          chunk.length = sizeofMsg ∨ isMsgType (chunk.headD 0) = false) := by
  intro s h
  have hF := framed_of_reachable h
  refine ⟨hF.dispatched, fun chunk t hs => ?_⟩
  by_cases hlen : chunk.length = sizeofMsg
  · have hok : s.readsWhole (.manager (.read chunk)) = true := decide_eq_true hlen
    exact iff_of_true (hF.step hok hs).dispatched (.inl hlen)
  obtain ⟨_, c, -, hpos, hle, hr, hd⟩ := hist_of_read hs
  have hshort : decodeStream (s.hist.received c ++ chunk) = decodeStream (s.hist.received c) :=
    decodeStream_append_short (hF.whole c) (lt_of_le_of_ne hle hlen)
  have hop := operation_isSome s.packetMsg hpos
  constructor
  · intro hall
    have hc := hall c
    rw [hr, hd, Function.update_self, Function.update_self, hshort, hF.dispatched c] at hc
    right
    rw [← hop]
    cases ho : (s.packetMsg.overlay chunk).decode.operation with
    | none => rfl
    | some o =>
      rw [ho] at hc
      simp at hc
  · rintro (hl | htype) c'
    · exact (hlen hl).elim
    rw [hr, hd]
    by_cases hc : c' = c
    · subst hc
      rw [htype, Option.isSome_eq_false_iff, Option.isNone_iff_eq_none] at hop
      rw [Function.update_self, Function.update_self, hshort, hF.dispatched, hop]
      simp
    · rw [Function.update_of_ne hc, Function.update_of_ne hc]
      exact hF.dispatched c'

/-- A request for `ATTITUDE_ALTITUDE`. -/
def requestMsg : List UInt8 := [1, 0, 0, 0, 7, 0, 0, 0, 0, 0, 0, 0, 7, 0, 0, 0]

/-- The snapshot of an `intdata` that is still zero. -/
def zeroSnapshot : Snapshot := ⟨⟨0, 0, 0, 0⟩, .init, ⟨0, 0, 0, 0, 0, 0, .stop, 0⟩⟩

/-- A client connects, sends a request and gets its reply. -/
def requestRun (fd : ℕ) : List ServerLabel :=
  acceptRun fd ++ readableRun fd ++
    [.manager (.read requestMsg), .manager (.serve zeroSnapshot), .manager .write] ++ nexts 2

theorem dispatched_decodes_requestRun :
    ∃ s, Lts.run (Lts.restrict (step 3) readsWhole) (init 3 fun _ => 0) (requestRun 4) = some s ∧
      (s.hist.dispatched 0 = [.serveQuery ⟨7, 0, 7⟩]) ∧
      ∀ c, s.hist.dispatched c = decodeStream (s.hist.received c) := by
  obtain ⟨s, hrun, hp⟩ := Lts.exists_run_of_map (Lts.restrict (step 3) readsWhole) (init 3 fun _ => 0)
    (requestRun 4) (fun s => decide (s.hist.dispatched 0 = [.serveQuery ⟨7, 0, 7⟩])) (by decide)
  exact ⟨s, hrun, of_decide_eq_true hp, (dispatched_decodes_iff 3 (fun _ => 0) s ⟨_, hrun⟩).1⟩

/-- The second client has sent the single byte 1. It is served the query of the first client, whose
    message is still in `packet_msg`. -/
theorem dispatched_query_of_other_client :
    ∃ s, Lts.run (step 3) (init 3 fun _ => 0)
        (requestRun 4 ++ acceptRun 5 ++ readableRun 5 ++ [.manager (.read [1])]) = some s ∧
      s.hist.received 1 = [1] ∧ s.hist.dispatched 1 = [.serveQuery ⟨7, 0, 7⟩] ∧
      decodeStream (s.hist.received 1) = [] := by
  obtain ⟨s, hrun, hp⟩ := Lts.exists_run_of_map (step 3) (init 3 fun _ => 0)
    (requestRun 4 ++ acceptRun 5 ++ readableRun 5 ++ [.manager (.read [1])])
    (fun s => decide (s.hist.received 1 = [1] ∧ s.hist.dispatched 1 = [.serveQuery ⟨7, 0, 7⟩] ∧
      decodeStream (s.hist.received 1) = [])) (by decide)
  exact ⟨s, hrun, of_decide_eq_true hp⟩

end Server

end Afdx
