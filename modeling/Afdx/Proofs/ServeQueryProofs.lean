import Afdx.ServeQuery

/-!
# What a reply depends on

`serve_query` sets the request id and at most one of the three data fields of `reply_msg`, and `write` sends
all four. The fields that are not set hold what was in the memory where `reply_msg` lies.
-/

namespace Afdx

/-- The fields of `app_reply_t` behind the request id. -/
inductive ReplyField
  | u8 | i16 | i32
  deriving DecidableEq

/-- The value of the field in a reply. -/
def ReplyField.get (f : ReplyField) (r : AppReply) : ℤ :=
  match f with
  | u8 => r.u8.toNat
  | i16 => r.i16.toInt
  | i32 => r.i32.toInt

/-- The field that the `switch` of `serve_query` sets for a data id. -/
def DataId.field : DataId → ReplyField
  | engineThrottle | engineRealThrust | engineStatus | engineFlags => .u8
  | engineOilTemp | engineOilPress | engineFuelPress | attitudeRoll | attitudePitch | attitudeYaw
  | speedsAoa | speedsAirspeed => .i16
  | attitudeAltitude => .i32

/-- The field that is set for a query. It is none if `data_id` is no value of `data_id_t`. -/
def AppQuery.field (query : AppQuery) : Option ReplyField :=
  (DataId.ofRaw query.dataId).map DataId.field

variable {stack stack' : AppReply} {data : Intdata} {beyond : IntdataEngine} {query : AppQuery}

theorem AppReply.eq_iff {r r' : AppReply} :
    r = r' ↔ r.reqId = r'.reqId ∧ ∀ f : ReplyField, f.get r = f.get r' := by
  constructor
  · rintro rfl
    exact ⟨rfl, fun _ => rfl⟩
  · rintro ⟨hreq, hget⟩
    have hu8 : r.u8.toNat = r'.u8.toNat := Int.ofNat.inj (hget .u8)
    have hi16 : r.i16.toInt = r'.i16.toInt := hget .i16
    have hi32 : r.i32.toInt = r'.i32.toInt := hget .i32
    obtain ⟨reqId, u8, i16, i32⟩ := r
    rw [AppReply.mk.injEq]
    exact ⟨hreq, UInt8.toNat_inj.mp hu8, Int16.toInt_inj.mp hi16, Int32.toInt_inj.mp hi32⟩

/-- The field that is set does not depend on the memory of the reply. -/
theorem get_serveQuery_of_eq {f : ReplyField} (hf : query.field = some f) :
    f.get (serveQuery stack data beyond query) = f.get (serveQuery stack' data beyond query) := by
  unfold AppQuery.field at hf
  unfold serveQuery
  cases hd : DataId.ofRaw query.dataId with
  | none => simp [hd] at hf
  | some d =>
    rw [hd] at hf
    obtain rfl := Option.some.inj hf
    cases d <;> rfl

/-- Every other data field is what the memory of the reply held before. -/
theorem get_serveQuery_of_ne {f : ReplyField} (hf : query.field ≠ some f) :
    f.get (serveQuery stack data beyond query) = f.get stack := by
  unfold AppQuery.field at hf
  unfold serveQuery
  cases hd : DataId.ofRaw query.dataId with
  | none => cases f <;> rfl
  | some d =>
    rw [hd] at hf
    have hf : d.field ≠ f := fun he => hf (congrArg some he)
    cases d <;> cases f <;> first | rfl | exact absurd rfl hf

/-- The replies of two runs on the same query and the same `intdata` are equal exactly if the memory of the
    reply agreed before in every data field but the one that is set. No query sets them all, so none has
    the same reply for every memory. -/
theorem replies_equal_iff (data : Intdata) (beyond : IntdataEngine) (query : AppQuery) :
    (∀ stack stack', serveQuery stack data beyond query = serveQuery stack' data beyond query ↔
      ∀ f : ReplyField, query.field ≠ some f → f.get stack = f.get stack') ∧
    ∃ stack stack', serveQuery stack data beyond query ≠ serveQuery stack' data beyond query := by
  have hiff : ∀ stack stack',
      serveQuery stack data beyond query = serveQuery stack' data beyond query ↔
        ∀ f : ReplyField, query.field ≠ some f → f.get stack = f.get stack' := by
    intro stack stack'
    rw [AppReply.eq_iff, serveQuery_reqId, serveQuery_reqId]
    constructor
    · intro h f hf
      have hget := h.2 f
      rwa [get_serveQuery_of_ne hf, get_serveQuery_of_ne hf] at hget
    · intro h
      refine ⟨rfl, fun f => ?_⟩
      by_cases hf : query.field = some f
      · exact get_serveQuery_of_eq hf
      · rw [get_serveQuery_of_ne hf, get_serveQuery_of_ne hf, h f hf]
  refine ⟨hiff, ⟨0, 0, 0, 0⟩, ⟨0, 1, 1, 1⟩, fun heq => ?_⟩
  have hsame := (hiff _ _).mp heq
  -- at least one of two data fields is not set
  by_cases hf : query.field = some .u8
  · exact absurd (hsame .i16 (by rw [hf]; decide)) (by decide)
  · exact absurd (hsame .u8 hf) (by decide)

/-- A client that asks for the throttle of the first engine reads, in `i16`, what the stack held before. -/
theorem throttle_reply_leaks :
    serveQuery ⟨0, 0, 0, 0⟩ .init ⟨0, 0, 0, 0, 0, 0, .stop, 0⟩ ⟨7, 0, DataId.engineThrottle.toRaw⟩ ≠
      serveQuery ⟨0, 0, 12345, 0⟩ .init ⟨0, 0, 0, 0, 0, 0, .stop, 0⟩
        ⟨7, 0, DataId.engineThrottle.toRaw⟩ := by decide

end Afdx
