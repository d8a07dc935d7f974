import Mathlib.Data.List.Basic
import Mathlib.Logic.Function.Iterate
import Syncthing.Core.Types

/-! The checksum of `FINGERPRINT` (`stun/mod.rs`), a byte at a time from a table. -/
namespace Syncthing.Stun

open List BitVec

variable {crc x : BitVec 32}

def crc32Polynomial : BitVec 32 := 0xedb88320

/-- The inner loop of the table. -/
def crc32Shift (crc : BitVec 32) : BitVec 32 :=
  if crc &&& 1 ≠ 0 then crc32Polynomial ^^^ (crc >>> 1) else crc >>> 1

def crc32Table : List (BitVec 32) := (range 256).map fun i => crc32Shift^[8] (.ofNat 32 i)

variable (data : Bytes)

def crc32Ieee : BitVec 32 :=
  ~~~ data.foldl (fun crc byte =>
    crc32Table.getD ((crc ^^^ byte.toBitVec.setWidth 32) &&& 0xff).toNat 0 ^^^ (crc >>> 8)) (~~~ 0)

/-- A step of the division, in which the next bit of the message comes in. -/
def divideBit (crc : BitVec 32) (bit : Bool) : BitVec 32 :=
  if crc.getLsbD 0 ^^ bit then crc32Polynomial ^^^ (crc >>> 1) else crc >>> 1

def lowBits (n : Nat) {w : Nat} (x : BitVec w) : List Bool := (range n).map x.getLsbD

/-- The remainder of the division, bit by bit from the low one of each byte. -/
def crc32Remainder : BitVec 32 :=
  ~~~ (data.flatMap fun byte => lowBits 8 byte.toBitVec).foldl divideBit (allOnes 32)

theorem crc32Shift_xor :
    crc32Shift (crc ^^^ x) = divideBit crc (x.getLsbD 0) ^^^ (x >>> 1) := by
  have hbit : ∀ y : BitVec 32, y &&& 1 ≠ 0 ↔ y.getLsbD 0 = true := by
    intro y
    rw [show (1 : BitVec 32) = 1#32 from rfl, and_one_eq_setWidth_ofBool_getLsbD]
    cases y.getLsbD 0 <;> decide
  simp only [crc32Shift, hbit, divideBit, getLsbD_xor, ushiftRight_xor_distrib]
  split <;> simp only [BitVec.xor_assoc]

/-- The low bits of what is added to the register leave it one by one. -/
theorem iterate_crc32Shift_xor (n : Nat) (crc x : BitVec 32) :
    crc32Shift^[n] (crc ^^^ x) = (lowBits n x).foldl divideBit crc ^^^ (x >>> n) := by
  induction n with
  | zero => simp [lowBits]
  | succ n ih =>
    rw [Function.iterate_succ_apply', ih, crc32Shift_xor]
    simp [lowBits, range_succ, shiftRight_add]

/-- Eight steps take the low byte to its entry in the table and move the others down. -/
theorem crc32Table_getD (x : BitVec 32) :
    crc32Table.getD (x &&& 0xff).toNat 0 ^^^ (x >>> 8) = crc32Shift^[8] x := by
  have hlt : (x &&& 0xff).toNat < 256 := by
    rw [toNat_and]
    exact Nat.lt_succ_of_le Nat.and_le_right
  have hmask : ∀ i, (255#32).getLsbD i = decide (i < 8) := by
    intro i
    rw [getLsbD_ofNat, show 255 = 2 ^ 8 - 1 from rfl, Nat.testBit_two_pow_sub_one]
    by_cases h : i < 8 <;> simp [h]
    omega
  have hlow : lowBits 8 (x &&& 0xff) = lowBits 8 x := by simp +contextual [lowBits, hmask]
  have hhigh : (x &&& 0xff) >>> 8 = 0#32 := by
    ext
    simp [hmask]
  have hentry := iterate_crc32Shift_xor 8 0#32 (x &&& 0xff)
  have hx := iterate_crc32Shift_xor 8 0#32 x
  rw [hlow, hhigh, BitVec.xor_zero, BitVec.zero_xor] at hentry
  rw [BitVec.zero_xor, ← hentry] at hx
  rw [hx, crc32Table, getD_eq_getElem?_getD, getElem?_map, getElem?_range hlt]
  simp only [Option.map_some, Option.getD_some, ofNat_toNat, setWidth_eq]

theorem divide_byte (crc : BitVec 32) (byte : UInt8) :
    crc32Table.getD ((crc ^^^ byte.toBitVec.setWidth 32) &&& 0xff).toNat 0 ^^^ (crc >>> 8) =
      (lowBits 8 byte.toBitVec).foldl divideBit crc := by
  have hhigh : byte.toBitVec.setWidth 32 >>> 8 = 0#32 := by
    ext i hi
    simp [getLsbD_of_ge]
  have hlow : lowBits 8 (byte.toBitVec.setWidth 32) = lowBits 8 byte.toBitVec := by
    simp only [lowBits, map_inj_left, mem_range, getLsbD_setWidth]
    intro i hi
    simp [show i < 32 by omega]
  have h := crc32Table_getD (crc ^^^ byte.toBitVec.setWidth 32)
  rwa [iterate_crc32Shift_xor, ushiftRight_xor_distrib, hhigh, hlow, BitVec.xor_zero,
    BitVec.xor_zero] at h

theorem crc32_by_table_is_remainder : crc32Ieee data = crc32Remainder data := by
  unfold crc32Ieee crc32Remainder
  rw [foldl_flatMap]
  simp only [divide_byte]
  rfl

end Syncthing.Stun
