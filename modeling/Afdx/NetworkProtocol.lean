import Afdx.Lib.LittleEndian
import Mathlib.Data.Nat.Notation

/-!
# The packets received by the UDP socket

`afdx_packet_t` is a packed struct of fifteen bytes: the identifier and a union of the two payloads.
A packet is kept as its bytes, since a reused slot of the queue may hold a datagram only in part; the
accessors read the fields at the offsets the packed layout gives them on a little-endian machine.
-/

namespace Afdx

open LittleEndian

/-- `sizeof(afdx_packet_t)`. -/
abbrev sizeofPacket : ℕ := 15

/-- `afdx_packet_t`, as the bytes it occupies. -/
abbrev AfdxPacket := Fin sizeofPacket → UInt8

/-- `AFDX_PACKET_TYPE_ADIRU` -/
def packetTypeAdiru : UInt8 := 1

/-- `AFDX_PACKET_TYPE_ENGINE` -/
def packetTypeEngine : UInt8 := 2

namespace AfdxPacket

variable (p : AfdxPacket)

def identifier : UInt8 := p 0

/-! The payload `afdx_adiru_t`. -/

def adiruAirspeed : Int16 := i16 (p 1) (p 2)
def adiruAltitude : Int32 := i32 (p 3) (p 4) (p 5) (p 6)
def adiruAoa : Int16 := i16 (p 7) (p 8)
def adiruRoll : Int16 := i16 (p 9) (p 10)
def adiruPitch : Int16 := i16 (p 11) (p 12)
def adiruYaw : Int16 := i16 (p 13) (p 14)

/-! The payload `afdx_engine_t`; its four flags are bit-fields of one byte. -/

def engineId : UInt8 := p 1
def engineThrottle : UInt8 := p 2
def engineRealThrust : UInt8 := p 3
def engineOilTemp : Int16 := i16 (p 4) (p 5)
def engineOilPress : Int16 := i16 (p 6) (p 7)
def engineFuelPress : Int16 := i16 (p 8) (p 9)
def engineFlagStatus : UInt8 := p 10 &&& 3
def engineFlagReverse : UInt8 := (p 10 >>> 2) &&& 1
def engineFlagFire : UInt8 := (p 10 >>> 3) &&& 1
def engineFlagMaintainance : UInt8 := (p 10 >>> 4) &&& 1

end AfdxPacket

end Afdx
