import Mathlib.Data.Nat.Basic

/-!
# Little-endian integers

The fixed-width integers that consecutive bytes of memory hold on a little-endian machine, least
significant byte first.
-/

namespace LittleEndian

/-- The unsigned 16-bit integer held by two bytes. -/
def u16 (b₀ b₁ : UInt8) : UInt16 := UInt16.ofBitVec (b₁.toBitVec ++ b₀.toBitVec)

/-- The unsigned 32-bit integer held by four bytes. -/
def u32 (b₀ b₁ b₂ b₃ : UInt8) : UInt32 :=
  UInt32.ofBitVec (b₃.toBitVec ++ b₂.toBitVec ++ b₁.toBitVec ++ b₀.toBitVec)

/-- The signed 16-bit integer held by two bytes. -/
def i16 (b₀ b₁ : UInt8) : Int16 := (u16 b₀ b₁).toInt16

/-- The signed 32-bit integer held by four bytes. -/
def i32 (b₀ b₁ b₂ b₃ : UInt8) : Int32 := (u32 b₀ b₁ b₂ b₃).toInt32

example : i16 0xfe 0xff = -2 := by decide

/-- Two integers with the same low byte and different high bytes differ. -/
theorem i16_injective (b : UInt8) : Function.Injective (i16 b) := by
  intro c c' h
  have h' : c.toBitVec ++ b.toBitVec = c'.toBitVec ++ b.toBitVec :=
    congrArg (fun x : Int16 => x.toBitVec) h
  refine UInt8.toBitVec_inj.mp ?_
  rw [← BitVec.extractLsb'_append_eq_left (a := c.toBitVec) (b := b.toBitVec), h',
    BitVec.extractLsb'_append_eq_left]

/-! ## From integers to bytes -/

/-- Byte number `i` of a word, the least significant byte first. -/
def byte {w : ℕ} (x : BitVec w) (i : ℕ) : UInt8 := UInt8.ofBitVec (x.extractLsb' (8 * i) 8)

theorem u16_byte (x : UInt16) : u16 (byte x.toBitVec 0) (byte x.toBitVec 1) = x := by
  refine UInt16.toBitVec_inj.mp ?_
  exact BitVec.extractLsb'_append_extractLsb'

theorem u32_byte (x : UInt32) :
    u32 (byte x.toBitVec 0) (byte x.toBitVec 1) (byte x.toBitVec 2) (byte x.toBitVec 3) = x := by
  refine UInt32.toBitVec_inj.mp ?_
  simp only [u32, byte]
  rw [BitVec.extractLsb'_append_extractLsb'_eq_extractLsb' (by decide),
    BitVec.extractLsb'_append_extractLsb'_eq_extractLsb' (by decide),
    BitVec.extractLsb'_append_extractLsb'_eq_extractLsb' (by decide)]
  exact BitVec.extractLsb'_eq_self

theorem i16_byte (x : Int16) : i16 (byte x.toBitVec 0) (byte x.toBitVec 1) = x :=
  congrArg UInt16.toInt16 (u16_byte x.toUInt16)

theorem i32_byte (x : Int32) :
    i32 (byte x.toBitVec 0) (byte x.toBitVec 1) (byte x.toBitVec 2) (byte x.toBitVec 3) = x :=
  congrArg UInt32.toInt32 (u32_byte x.toUInt32)

end LittleEndian
