import Afdx.Proofs.ReplyProofs
import Afdx.Reuse

/-!
# Stores into freed nodes

The lists of the registry and of the scheduler hold live nodes only, and so does `application_manager`. What is
stored over a freed node is therefore no part of the invariant; only a stale pointer of the action in progress
finds it.
-/

namespace Afdx

namespace Mem

variable {m m' : Mem} {S : Shape}

/-- The two memories hold the same live nodes, and the lists begin at the same ones. -/
structure SameLive (m m' : Mem) : Prop where
  apps : m.apps.SameLive m'.apps
  queries : m.queries.SameLive m'.queries
  nodes : m.sched.nodes.SameLive m'.sched.nodes
  registered : m'.registeredApplications = m.registeredApplications
  first : m'.sched.first = m.sched.first
  last : m'.sched.last = m.sched.last

theorem sameLive_overwrite {o : Overwrite} (h : m.overwrite o = some m') : SameLive m m' := by
  cases o with
  | node x c =>
    simp only [overwrite] at h
    split at h <;> [cases h; rename_i hx]
    cases h
    exact ⟨.refl _, .refl _, .modify (fun _ => c) hx, rfl, rfl, rfl⟩
  | query q c =>
    simp only [overwrite] at h
    split at h <;> [cases h; rename_i hq]
    cases h
    exact ⟨.refl _, .modify (fun _ => c) hq, .refl _, rfl, rfl, rfl⟩
  | app a c =>
    simp only [overwrite] at h
    split at h <;> [cases h; rename_i ha]
    cases h
    exact ⟨.modify (fun _ => c) ha, .refl _, .refl _, rfl, rfl, rfl⟩

theorem SameLive.payload (h : SameLive m m') {x : ℕ} (hx : x ∈ m.sched.nodes.live) :
    m'.sched.payload x = m.sched.payload x := congrArg SchedulerNode.payload (h.nodes.cell x hx)

theorem SameLive.wf (h : SameLive m m') (hw : m.Wf S) : m'.Wf S := by
  refine hw.congr h.registered (fun a ha => ?_) (fun a ha => ?_) (fun q hq => ?_) ?_ fun x hx => ?_
  · exact ⟨h.apps.cell a (hw.appLive a ha), h.apps.live ▸ hw.appLive a ha⟩
  · exact h.apps.live ▸ (hw.detached a ha).1
  · exact ⟨h.queries.cell q (hw.queryLive q hq), h.queries.live ▸ hw.queryLive q hq⟩
  · refine hw.schedRepr.congr h.first h.last (fun x hx => ?_) fun x hx => ?_
    · rw [h.nodes.cell x (hw.schedRepr.live x hx)]
      exact ⟨rfl, rfl⟩
    · exact h.nodes.live ▸ hw.schedRepr.live x hx
  · exact h.payload (hw.schedRepr.live x hx)

end Mem

namespace Obj

variable {m m' : Mem} {o : Obj}

theorem Live.same (ho : o.Live m) (h : m.SameLive m') : o.Same m m' := by
  cases o with
  | node x =>
    have hpay := h.payload ho
    exact ⟨congrArg Payload.action hpay, congrArg Payload.data hpay⟩
  | query q =>
    have hcell := h.queries.cell q ho
    exact ⟨congrArg RegQueryNode.query hcell, congrArg RegQueryNode.app hcell⟩
  | app a => exact congrArg RegApp.fd (h.apps.cell a ho)

theorem Live.of_sameLive (ho : o.Live m) (h : m.SameLive m') : o.Live m' := by
  cases o with
  | node x => exact h.nodes.live.symm.subset ho
  | query q => exact h.queries.live.symm.subset ho
  | app a => exact h.apps.live.symm.subset ho

end Obj

variable {m m' : Mem} {S : Shape}

/-- The application that is being unregistered is allocated, and so are its queries. -/
theorem Dropping.sameLive {fd app : ℕ} {p : Option ℕ} (hd : Dropping m S fd app p) (hw : m.Wf S)
    (h : m.SameLive m') : Dropping m' S fd app p := by
  have hcell : ∀ q ∈ S.loose, m'.queries.cell q = m.queries.cell q := fun q hq =>
    h.queries.cell q (hw.queryLive q (.inr hq))
  refine ⟨hd.detached, hd.chain.congr fun q hq => by rw [hcell q hq], fun q hq => ?_, ?_, fun a ha => ?_,
    fun q hq => ?_⟩
  · rw [hcell q hq]
    exact hd.queryApp q hq
  · rw [h.apps.cell app (hw.detached app (by simp [hd.detached])).1]
    exact hd.appFd
  · rw [h.apps.cell a (hw.appLive a ha)]
    exact hd.unique a ha
  · obtain ⟨x, hx, hh, hdata⟩ := hd.handler q hq
    rw [hcell q hq]
    exact ⟨x, hx, hh, (congrArg Payload.data (h.payload (hw.schedRepr.live x hx))).trans hdata⟩

theorem Caller.inv_sameLive {caller : Caller} {p : Option ℕ} (hc : caller.Inv m S p) (hw : m.Wf S)
    (h : m.SameLive m') : caller.Inv m' S p := by
  cases caller with
  | unregisterQuery fd => exact hc
  | unregisterApplication fd app site => exact Dropping.sameLive hc hw h

theorem Mem.ownerFd_sameLive (hw : m.Wf S) (h : m.SameLive m') {x : ℕ} (hx : x ∈ S.sched) :
    m'.ownerFd x = m.ownerFd x := by
  have howned := (hw.schedNode x hx).2
  rw [Mem.ownerFd, Mem.ownerFd, h.payload (hw.schedRepr.live x hx), h.queries.cell _ (hw.queryLive _ howned),
    h.apps.cell _ (hw.appLive_of_owned howned)]

/-- What `application_manager` works on is live. -/
theorem ManagerPc.inv_sameLive {pc : ManagerPc} (hinv : pc.Inv m S) (hw : m.Wf S) (h : m.SameLive m') :
    pc.Inv m' S := by
  have hfd : ∀ a ∈ S.apps, (m'.apps.cell a).fd = (m.apps.cell a).fd := fun a ha => by
    rw [h.apps.cell a (hw.appLive a ha)]
  cases pc with
  | schedule fd app node interval =>
    obtain ⟨hl, hd, happ, happfd, hlive, hno, hna, hnn⟩ := hinv
    have hcell := h.queries.cell node hlive
    exact ⟨hl, hd, happ, (hfd app happ).trans happfd, h.queries.live ▸ hlive, hno, hcell ▸ hna, hcell ▸ hnn⟩
  | storeHandler fd app node handler =>
    obtain ⟨hl, hd, happ, happfd, hna, hnn, hx, hdata⟩ := hinv
    have hcell := h.queries.cell node (hw.queryLive node (.inr (by simp [hl])))
    exact ⟨hl, hd, happ, (hfd app happ).trans happfd, hcell ▸ hna, hcell ▸ hnn, hx,
      (congrArg Payload.data (h.payload (hw.schedRepr.live handler hx))).trans hdata⟩
  | dropLoop fd app p site => exact Dropping.sameLive hinv hw h
  | removeNode node handler caller =>
    obtain ⟨hx, hdata, hc⟩ := hinv
    refine ⟨hx, (congrArg Payload.data (h.payload (hw.schedRepr.live handler hx))).trans hdata, ?_⟩
    cases caller with
    | unregisterQuery fd => exact ⟨hc.1, hc.2.1, (Mem.ownerFd_sameLive hw h hx).trans hc.2.2⟩
    | unregisterApplication fd app site => exact Dropping.sameLive hc hw h
  | freeNode node handler caller =>
    obtain ⟨hx, hlive, hno, hc⟩ := hinv
    refine ⟨hx, h.queries.live ▸ hlive, hno, ?_⟩
    rw [h.queries.cell node hlive]
    exact Caller.inv_sameLive hc hw h
  | freeQuery node caller =>
    obtain ⟨hlive, hno, hc⟩ := hinv
    refine ⟨h.queries.live ▸ hlive, hno, ?_⟩
    rw [h.queries.cell node hlive]
    exact Caller.inv_sameLive hc hw h
  | freeApp fd app site => exact ⟨hinv.1, hinv.2.1, fun a ha => (hfd a ha).symm ▸ hinv.2.2 a ha⟩
  | close fd site => exact ⟨hinv.1, hinv.2.1, fun a ha => (hfd a ha).symm ▸ hinv.2.2 a ha⟩
  | _ => exact hinv

/-- The query that is being registered is allocated. -/
theorem ManagerPc.target_sameLive {pc : ManagerPc} (hinv : pc.Inv m S) (h : m.SameLive m') :
    pc.target m' = pc.target m := by
  cases pc with
  | schedule fd app node interval =>
    simp only [ManagerPc.target, h.queries.cell node hinv.2.2.2.2.1]
  | _ => rfl

end Afdx
