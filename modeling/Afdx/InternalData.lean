import Mathlib.Data.Int.Notation
import Mathlib.Data.Nat.Notation
import Mathlib.Logic.Function.Basic

/-!
# The internal data of the daemon

The global `intdata`, written by the elaboration thread and read by whoever serves a query.
-/

namespace Afdx

/-- `NR_ENGINES` -/
abbrev nrEngines : ℕ := 4

/-- `engine_status_t` -/
inductive EngineStatus
  | stop | starting | running | shutdownInProgress
  deriving DecidableEq

/-- The value of an `engine_status_t`. -/
def EngineStatus.toUInt8 : EngineStatus → UInt8
  | .stop => 0
  | .starting => 1
  | .running => 2
  | .shutdownInProgress => 3

/-- The status named by the two bits of `flag_status`. -/
def EngineStatus.ofFlag (b : UInt8) : EngineStatus :=
  if b = 0 then .stop else if b = 1 then .starting else if b = 2 then .running
  else .shutdownInProgress

/-- `ENGINE_F_REVERSE` -/
def engineFReverse : UInt8 := 1

/-- `ENGINE_F_ON_FIRE` -/
def engineFOnFire : UInt8 := 2

/-- `ENGINE_F_MAINT` -/
def engineFMaint : UInt8 := 4

/-- `intdata_engine_t` -/
structure IntdataEngine where
  lastUpdate : ℤ
  throttle : UInt8
  realThrust : UInt8
  oilTemp : Int16
  oilPress : Int16
  fuelPress : Int16
  status : EngineStatus
  engineFlags : UInt8

/-- `intdata_attitude_t` -/
structure IntdataAttitude where
  lastUpdate : ℤ
  altitude : Int32
  roll : Int16
  pitch : Int16
  yaw : Int16

/-- `intdata_speeds_t` -/
structure IntdataSpeeds where
  lastUpdate : ℤ
  aoa : Int16
  airspeed : Int16

/-- `intdata_t` -/
structure Intdata where
  engines : Fin nrEngines → IntdataEngine
  attitude : IntdataAttitude
  speeds : IntdataSpeeds

/-- `intdata` as the program starts: a global without initialiser, so all bytes are zero, and `main`
    stores zero into every `last_update` once more. -/
def Intdata.init : Intdata where
  engines _ := ⟨0, 0, 0, 0, 0, 0, .stop, 0⟩
  attitude := ⟨0, 0, 0, 0, 0⟩
  speeds := ⟨0, 0, 0⟩

/-- The record that `intdata.engines[idEngine]` denotes: one of the four, or whatever memory follows
    the array (`beyond`) when the index is out of range. -/
def Intdata.engineAt (data : Intdata) (beyond : IntdataEngine) (idEngine : UInt8) : IntdataEngine :=
  if h : idEngine.toNat < nrEngines then data.engines ⟨idEngine.toNat, h⟩ else beyond

end Afdx
