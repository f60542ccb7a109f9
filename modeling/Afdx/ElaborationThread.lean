import Afdx.InternalData
import Afdx.Queue

/-!
# What the elaboration thread stores for a packet

The `switch` of `elaboration_thread` as the list of assignments it makes to `intdata`, in order. Each
assignment is one step of the thread: whoever serves a query may read `intdata` between two of them.
-/

namespace Afdx

/-- The assignments of the case `AFDX_PACKET_TYPE_ADIRU`, by the field they store into. -/
inductive AdiruField
  | attitudeLastUpdate | attitudeAltitude | attitudeRoll | attitudePitch | attitudeYaw
  | speedsLastUpdate | speedsAoa | speedsAirspeed
  deriving DecidableEq

/-- The assignments of the case `AFDX_PACKET_TYPE_ENGINE`, by the field of
    `intdata.engines[id_engine]` they store into. -/
inductive EngineField
  | lastUpdate | throttle | realThrust | oilTemp | oilPress | fuelPress | status | engineFlags
  deriving DecidableEq

/-- One assignment to `intdata`. -/
inductive Assignment
  | adiru (f : AdiruField)
  | engine (idEngine : UInt8) (f : EngineField)
  deriving DecidableEq

def AdiruField.assign (f : AdiruField) (node : Nqnode) (data : Intdata) : Intdata :=
  match f with
  | attitudeLastUpdate =>
    { data with attitude := { data.attitude with lastUpdate := node.lastUpdate } }
  | attitudeAltitude =>
    { data with attitude := { data.attitude with altitude := node.packet.adiruAltitude } }
  | attitudeRoll => { data with attitude := { data.attitude with roll := node.packet.adiruRoll } }
  | attitudePitch => { data with attitude := { data.attitude with pitch := node.packet.adiruPitch } }
  | attitudeYaw => { data with attitude := { data.attitude with yaw := node.packet.adiruYaw } }
  | speedsLastUpdate => { data with speeds := { data.speeds with lastUpdate := node.lastUpdate } }
  | speedsAoa => { data with speeds := { data.speeds with aoa := node.packet.adiruAoa } }
  | speedsAirspeed =>
    { data with speeds := { data.speeds with airspeed := node.packet.adiruAirspeed } }

def EngineField.assign (f : EngineField) (node : Nqnode) (e : IntdataEngine) : IntdataEngine :=
  match f with
  | lastUpdate => { e with lastUpdate := node.lastUpdate }
  | throttle => { e with throttle := node.packet.engineThrottle }
  | realThrust => { e with realThrust := node.packet.engineRealThrust }
  | oilTemp => { e with oilTemp := node.packet.engineOilTemp }
  | oilPress => { e with oilPress := node.packet.engineOilPress }
  | fuelPress => { e with fuelPress := node.packet.engineFuelPress }
  | status => { e with status := .ofFlag node.packet.engineFlagStatus }
  | engineFlags =>
    { e with engineFlags := node.packet.engineFlagReverse * engineFReverse +
        node.packet.engineFlagFire * engineFOnFire +
        node.packet.engineFlagMaintainance * engineFMaint }

/-- The assignments of the ADIRU case, in the order of the source. -/
def adiruFields : List AdiruField :=
  [.attitudeLastUpdate, .attitudeAltitude, .attitudeRoll, .attitudePitch, .attitudeYaw,
    .speedsLastUpdate, .speedsAoa, .speedsAirspeed]

/-- The assignments of the ENGINE case, in the order of the source. -/
def engineFields : List EngineField :=
  [.lastUpdate, .throttle, .realThrust, .oilTemp, .oilPress, .fuelPress, .status, .engineFlags]

/-- `intdata` after one assignment. An index that is out of range stores outside the four engine
    records; what the memory of `intdata` holds after that is left open (`beyond`). -/
def Assignment.exec (a : Assignment) (node : Nqnode) (beyond data : Intdata) : Intdata :=
  match a with
  | adiru f => f.assign node data
  | engine idEngine f =>
    if h : idEngine.toNat < nrEngines then
      let e : Fin nrEngines := ⟨idEngine.toNat, h⟩
      { data with engines := Function.update data.engines e (f.assign node (data.engines e)) }
    else beyond

/-- The index of `intdata.engines` an assignment uses, if it names an engine record. -/
def Assignment.engineIndex : Assignment → Option ℕ
  | adiru _ => none
  | engine idEngine _ => some idEngine.toNat

/-- All assignments made for the packet in `node`: the body of the `switch`. -/
def Nqnode.assignments (node : Nqnode) : List Assignment :=
  if node.packet.identifier = packetTypeAdiru then adiruFields.map .adiru
  else if node.packet.identifier = packetTypeEngine then
    engineFields.map (.engine node.packet.engineId)
  else []

/-! ## The memory past the engine records -/

/-- What a store into a field of `intdata.engines[idEngine]` makes of `intdata` when the index is out of
    range. It is given a record that holds the value in this field, and zeros elsewhere. -/
abbrev Stray := UInt8 → EngineField → IntdataEngine → Intdata → Intdata

/-- What `intdata` holds after the assignment if its index is out of range. -/
def Assignment.beyond (stray : Stray) (a : Assignment) (node : Nqnode) (data : Intdata) : Intdata :=
  match a with
  | adiru _ => data
  | engine idEngine f => stray idEngine f (f.assign node ⟨0, 0, 0, 0, 0, 0, .stop, 0⟩) data

/-- `intdata` after one assignment, with the memory past the engine records laid out as `stray` says. -/
def Assignment.store (stray : Stray) (a : Assignment) (node : Nqnode) (data : Intdata) : Intdata :=
  a.exec node (a.beyond stray node data) data

/-- `intdata` after all assignments for the packet in `node`. -/
def Nqnode.process (stray : Stray) (node : Nqnode) (data : Intdata) : Intdata :=
  node.assignments.foldl (fun data a => a.store stray node data) data

end Afdx
