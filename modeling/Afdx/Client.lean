import Afdx.ApplicationProtocol
import Afdx.Lib.Records

/-!
# The clients' end of a connection

A client fills an `app_msg_t` and writes it, and the replies it is sent are `app_reply_t`s one after the other. Both
structs hold bytes that belong to no field. Nobody clears them, so the bytes of a message are stored over some
memory, and those of a reply come with whatever the padding byte holds.
-/

namespace Afdx

open LittleEndian

/-- The bytes that a client sends for these messages. -/
def SentStream (msgs : List AppMsg) (stream : List UInt8) : Prop :=
  Records.IsStream (fun msg (r : MsgBytes) => ∃ b : MsgBytes, r = b.store msg) msgs stream

/-- `sizeof(app_reply_t)`. -/
abbrev sizeofReply : ℕ := 12

/-- The memory of an `app_reply_t`, as the bytes it occupies. -/
abbrev ReplyBytes := Fin sizeofReply → UInt8

/-- The bytes of a reply, with the byte between `u8` and `i16`. -/
def AppReply.bytes (pad : UInt8) (r : AppReply) : ReplyBytes := fun i =>
  [byte r.reqId.toBitVec 0, byte r.reqId.toBitVec 1, byte r.reqId.toBitVec 2, byte r.reqId.toBitVec 3,
    r.u8, pad, byte r.i16.toBitVec 0, byte r.i16.toBitVec 1,
    byte r.i32.toBitVec 0, byte r.i32.toBitVec 1, byte r.i32.toBitVec 2, byte r.i32.toBitVec 3].getD i 0

/-- The bytes that are written for these replies. -/
def WrittenStream (replies : List AppReply) (stream : List UInt8) : Prop :=
  Records.IsStream (fun (reply : AppReply) (r : ReplyBytes) => ∃ pad, r = reply.bytes pad) replies stream

/-- The fields of an `app_reply_t`. -/
def ReplyBytes.decode (b : ReplyBytes) : AppReply where
  reqId := u32 (b 0) (b 1) (b 2) (b 3)
  u8 := b 4
  i16 := LittleEndian.i16 (b 6) (b 7)
  i32 := LittleEndian.i32 (b 8) (b 9) (b 10) (b 11)

/-- The replies that a stream holds as a whole. -/
def readReplies (stream : List UInt8) : List AppReply :=
  (Records.records sizeofReply 0 stream).map ReplyBytes.decode

end Afdx
