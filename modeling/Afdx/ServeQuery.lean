import Afdx.ApplicationProtocol
import Afdx.InternalData

/-!
# `serve_query`

The reply to a query: which field of `intdata` goes to which field of the reply. The reply is a local
variable, so the fields that are not set keep what the stack held before (`stack`). The `write` that
follows is a step of its own in the model of the threads.
-/

namespace Afdx

/-- The `switch` of `serve_query`. An engine index out of range reads past the array (`beyond`). -/
def serveQuery (stack : AppReply) (data : Intdata) (beyond : IntdataEngine) (query : AppQuery) :
    AppReply :=
  let reply := { stack with reqId := query.reqId }
  let engine := data.engineAt beyond query.engineId
  match DataId.ofRaw query.dataId with
  | some .engineThrottle => { reply with u8 := engine.throttle }
  | some .engineRealThrust => { reply with u8 := engine.realThrust }
  | some .engineOilTemp => { reply with i16 := engine.oilTemp }
  | some .engineOilPress => { reply with i16 := engine.oilPress }
  | some .engineFuelPress => { reply with i16 := engine.fuelPress }
  | some .engineStatus => { reply with u8 := engine.status.toUInt8 }
  | some .engineFlags => { reply with u8 := engine.engineFlags }
  | some .attitudeAltitude => { reply with i32 := data.attitude.altitude }
  | some .attitudeRoll => { reply with i16 := data.attitude.roll }
  | some .attitudePitch => { reply with i16 := data.attitude.pitch }
  | some .attitudeYaw => { reply with i16 := data.attitude.yaw }
  | some .speedsAoa => { reply with i16 := data.speeds.aoa }
  | some .speedsAirspeed => { reply with i16 := data.speeds.airspeed }
  | none => reply

/-- Whether the `switch` reads a field of an engine record for this data id. -/
def DataId.namesEngine : DataId → Bool
  | engineThrottle | engineRealThrust | engineOilTemp | engineOilPress | engineFuelPress
  | engineStatus | engineFlags => true
  | _ => false

/-- The index of `intdata.engines` that serving the query uses, if it uses one. -/
def AppQuery.engineIndex (query : AppQuery) : Option ℕ :=
  match DataId.ofRaw query.dataId with
  | some d => if d.namesEngine then some query.engineId.toNat else none
  | none => none

/-- The reply always carries the request id of its query. -/
theorem serveQuery_reqId (stack : AppReply) (data : Intdata) (beyond : IntdataEngine)
    (query : AppQuery) : (serveQuery stack data beyond query).reqId = query.reqId := by
  unfold serveQuery
  split <;> rfl

end Afdx
