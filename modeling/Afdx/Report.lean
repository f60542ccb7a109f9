import Afdx.ElaborationThread

/-!
# What a packet reports

A packet as its sender sees it: the values that are stored into the fields of an `afdx_packet_t`, and what the
daemon is to make of them as a whole. The sender stores into a variable that is not cleared, so the bytes and the
bits that belong to no field of the payload are those that were there before.
-/

namespace Afdx

open LittleEndian

/-- `AFDX_PACKET_TYPE_UNKNOWN` -/
def packetTypeUnknown : UInt8 := 0

/-- The fields of `afdx_adiru_t`. -/
structure AdiruReport where
  airspeed : Int16
  altitude : Int32
  aoa : Int16
  roll : Int16
  pitch : Int16
  yaw : Int16

/-- The fields of `afdx_engine_t`, with values that fit into its bit-fields. -/
structure EngineReport where
  /-- One of the engines that there is a record of. -/
  engineId : Fin nrEngines
  throttle : UInt8
  realThrust : UInt8
  oilTemp : Int16
  oilPress : Int16
  fuelPress : Int16
  flagStatus : EngineStatus
  flagReverse : Bool
  flagFire : Bool
  flagMaintainance : Bool

/-- A packet with the values of its payload. -/
inductive Report
  | unknown
  | adiru (r : AdiruReport)
  | engine (r : EngineReport)

/-! ## The bytes of a packet -/

/-- The bit-fields, in the low five bits of a byte. -/
def flagBits (status : EngineStatus) (reverse fire maintainance : Bool) : UInt8 :=
  status.toUInt8 ||| (if reverse then 4 else 0) ||| (if fire then 8 else 0) ||| (if maintainance then 16 else 0)

/-- The bytes that hold the identifier and the payload. The bit-fields are stored into a byte that held `old`,
    and leave its other three bits alone. -/
def Report.bytes (old : UInt8) : Report → List UInt8
  | unknown => [packetTypeUnknown]
  | adiru r =>
    [packetTypeAdiru,
      byte r.airspeed.toBitVec 0, byte r.airspeed.toBitVec 1,
      byte r.altitude.toBitVec 0, byte r.altitude.toBitVec 1, byte r.altitude.toBitVec 2,
      byte r.altitude.toBitVec 3,
      byte r.aoa.toBitVec 0, byte r.aoa.toBitVec 1,
      byte r.roll.toBitVec 0, byte r.roll.toBitVec 1,
      byte r.pitch.toBitVec 0, byte r.pitch.toBitVec 1,
      byte r.yaw.toBitVec 0, byte r.yaw.toBitVec 1]
  | engine r =>
    [packetTypeEngine, UInt8.ofNat r.engineId, r.throttle, r.realThrust,
      byte r.oilTemp.toBitVec 0, byte r.oilTemp.toBitVec 1,
      byte r.oilPress.toBitVec 0, byte r.oilPress.toBitVec 1,
      byte r.fuelPress.toBitVec 0, byte r.fuelPress.toBitVec 1,
      (old &&& 224) ||| flagBits r.flagStatus r.flagReverse r.flagFire r.flagMaintainance]

/-- The packet after its fields are stored. -/
def AfdxPacket.store (p : AfdxPacket) (r : Report) : AfdxPacket := fun i =>
  (r.bytes (p ⟨10, by decide⟩))[i.val]?.getD (p i)

/-- The datagram that holds a whole packet. -/
def AfdxPacket.datagram (p : AfdxPacket) : List UInt8 := List.ofFn p

/-- The datagram is a packet in which the values of the report were stored. -/
def Report.SentAs (r : Report) (dg : List UInt8) : Prop := ∃ p : AfdxPacket, dg = (p.store r).datagram

/-! ## What the daemon is to make of it -/

/-- The flags of an engine, as `intdata` keeps them. -/
def EngineReport.engineFlags (r : EngineReport) : UInt8 :=
  (if r.flagReverse then engineFReverse else 0) + (if r.flagFire then engineFOnFire else 0) +
    (if r.flagMaintainance then engineFMaint else 0)

/-- `intdata` after the report of `time` as a whole. -/
def Report.apply (time : ℤ) (r : Report) (data : Intdata) : Intdata :=
  match r with
  | unknown => data
  | adiru r =>
    { data with
      attitude := ⟨time, r.altitude, r.roll, r.pitch, r.yaw⟩
      speeds := ⟨time, r.aoa, r.airspeed⟩ }
  | engine r =>
    let record : IntdataEngine :=
      ⟨time, r.throttle, r.realThrust, r.oilTemp, r.oilPress, r.fuelPress, r.flagStatus, r.engineFlags⟩
    { data with engines := Function.update data.engines r.engineId record }

end Afdx
