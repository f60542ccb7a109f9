import Afdx.Lib.LittleEndian
import Mathlib.Data.Nat.Notation

/-!
# The messages between the daemon and its clients

`app_msg_t` and `app_reply_t`. A client sends the bytes of an `app_msg_t` over a stream socket; the
accessors below decode them at the offsets of the unpacked struct on a little-endian machine with
four-byte alignment of `uint32_t` and of the enumeration.
-/

namespace Afdx

open LittleEndian

/-- `AFDX_MSG_TYPE_REQUEST` -/
def msgTypeRequest : UInt8 := 1

/-- `AFDX_MSG_TYPE_REGISTER` -/
def msgTypeRegister : UInt8 := 2

/-- `AFDX_MSG_TYPE_UNREGISTER` -/
def msgTypeUnregister : UInt8 := 3

/-- `data_id_t` -/
inductive DataId
  | engineThrottle | engineRealThrust | engineOilTemp | engineOilPress | engineFuelPress
  | engineStatus | engineFlags
  | attitudeAltitude | attitudeRoll | attitudePitch | attitudeYaw
  | speedsAoa | speedsAirspeed
  deriving DecidableEq

/-- The value of an enumerator of `data_id_t`. -/
def DataId.toRaw : DataId → UInt32
  | engineThrottle => 0
  | engineRealThrust => 1
  | engineOilTemp => 2
  | engineOilPress => 3
  | engineFuelPress => 4
  | engineStatus => 5
  | engineFlags => 6
  | attitudeAltitude => 7
  | attitudeRoll => 8
  | attitudePitch => 9
  | attitudeYaw => 10
  | speedsAoa => 11
  | speedsAirspeed => 12

/-- The enumerator with a given value; a client may send a value that none has. -/
def DataId.ofRaw (raw : UInt32) : Option DataId :=
  match raw.toNat with
  | 0 => some engineThrottle
  | 1 => some engineRealThrust
  | 2 => some engineOilTemp
  | 3 => some engineOilPress
  | 4 => some engineFuelPress
  | 5 => some engineStatus
  | 6 => some engineFlags
  | 7 => some attitudeAltitude
  | 8 => some attitudeRoll
  | 9 => some attitudePitch
  | 10 => some attitudeYaw
  | 11 => some speedsAoa
  | 12 => some speedsAirspeed
  | _ => none

theorem DataId.ofRaw_toRaw (d : DataId) : ofRaw d.toRaw = some d := by cases d <;> rfl

/-- `app_query_t`. The field `data_id` is kept as the value received. -/
structure AppQuery where
  reqId : UInt32
  engineId : UInt8
  dataId : UInt32
  deriving DecidableEq

/-- `app_msg_t` -/
structure AppMsg where
  msgType : UInt8
  msToUpdate : UInt16
  query : AppQuery
  deriving DecidableEq

/-- `app_reply_t` -/
structure AppReply where
  reqId : UInt32
  u8 : UInt8
  i16 : Int16
  i32 : Int32
  deriving DecidableEq

/-- `sizeof(app_msg_t)`. -/
abbrev sizeofMsg : ℕ := 16

/-- The memory of an `app_msg_t`, as the bytes it occupies. -/
abbrev MsgBytes := Fin sizeofMsg → UInt8

/-- The message held by the bytes of an `app_msg_t`. -/
def MsgBytes.decode (b : MsgBytes) : AppMsg where
  msgType := b 0
  msToUpdate := u16 (b 2) (b 3)
  query :=
    { reqId := u32 (b 4) (b 5) (b 6) (b 7)
      engineId := b 8
      dataId := u32 (b 12) (b 13) (b 14) (b 15) }

/-- The memory of an `app_msg_t` after its fields are stored. -/
def MsgBytes.store (b : MsgBytes) (msg : AppMsg) : MsgBytes := fun i =>
  [msg.msgType, b 1,
    byte msg.msToUpdate.toBitVec 0, byte msg.msToUpdate.toBitVec 1,
    byte msg.query.reqId.toBitVec 0, byte msg.query.reqId.toBitVec 1, byte msg.query.reqId.toBitVec 2,
    byte msg.query.reqId.toBitVec 3,
    msg.query.engineId, b 9, b 10, b 11,
    byte msg.query.dataId.toBitVec 0, byte msg.query.dataId.toBitVec 1, byte msg.query.dataId.toBitVec 2,
    byte msg.query.dataId.toBitVec 3].getD i 0

/-- `read` of a chunk into the memory of an `app_msg_t`: the bytes behind the chunk are kept. -/
def MsgBytes.overlay (b : MsgBytes) (chunk : List UInt8) : MsgBytes := fun i => chunk.getD i (b i)

/-! ## The operations that messages ask for -/

/-- What `application_manager` does for a message. -/
inductive Operation
  | serveQuery (query : AppQuery)
  | registerQuery (query : AppQuery) (msToUpdate : UInt16)
  | unregisterQuery (reqId : UInt32)
  deriving DecidableEq

/-- The `switch` on the message type. -/
def AppMsg.operation (msg : AppMsg) : Option Operation :=
  if msg.msgType = msgTypeRequest then some (.serveQuery msg.query)
  else if msg.msgType = msgTypeRegister then some (.registerQuery msg.query msg.msToUpdate)
  else if msg.msgType = msgTypeUnregister then some (.unregisterQuery msg.query.reqId)
  else none

/-- The query that an operation asks to serve, now or periodically. -/
def Operation.query : Operation → Option AppQuery
  | serveQuery query | registerQuery query _ => some query
  | unregisterQuery _ => none

/-- Record number `i` of a stream of messages. -/
def recordAt (stream : List UInt8) (i : ℕ) : MsgBytes := fun j => stream.getD (sizeofMsg * i + j) 0

/-- The operations that a stream asks for: its consecutive whole records, decoded one by one. -/
def decodeStream (stream : List UInt8) : List Operation :=
  (List.range (stream.length / sizeofMsg)).filterMap fun i => (recordAt stream i).decode.operation

end Afdx
