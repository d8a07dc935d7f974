import Mathlib.Algebra.Group.Nat.Defs
import Mathlib.Data.List.Infix

/-! Big-endian numbers of a fixed width, and a task that reads a stream in pieces of known lengths,
however its bytes arrive. -/
namespace Wire

open List

/-- The last `width` bytes of a number, the most significant first. -/
def beBytes : Nat → Nat → List UInt8
  | 0, _ => []
  | width + 1, n => beBytes width (n / 256) ++ [UInt8.ofNat n]

variable (bytes : List UInt8)

def fromBe : Nat := bytes.foldl (fun n b => n * 256 + b.toNat) 0

@[simp] theorem length_beBytes (width n : Nat) : (beBytes width n).length = width := by
  induction width generalizing n with
  | zero => rfl
  | succ width ih => simp [beBytes, ih]

theorem fromBe_beBytes (width n : Nat) : fromBe (beBytes width n) = n % 256 ^ width := by
  induction width generalizing n with
  | zero => simp [beBytes, fromBe, Nat.mod_one]
  | succ width ih =>
    have hstep : fromBe (beBytes (width + 1) n) =
        fromBe (beBytes width (n / 256)) * 256 + n % 256 := by
      simp [beBytes, fromBe]
    rw [hstep, ih, Nat.pow_succ, Nat.mul_comm (256 ^ width), Nat.mod_mul]
    omega

/-- A number that fits its width is read back. -/
theorem fromBe_beBytes_of_lt {width n : Nat} (h : n < 256 ^ width) :
    fromBe (beBytes width n) = n := by
  rw [fromBe_beBytes, Nat.mod_eq_of_lt h]

theorem fromBe_lt : fromBe bytes < 256 ^ bytes.length := by
  induction bytes using reverseRecOn with
  | nil => decide
  | append_singleton bytes b ih =>
    have hstep : fromBe (bytes ++ [b]) = fromBe bytes * 256 + b.toNat := by simp [fromBe]
    have hb := b.toNat_lt
    rw [hstep, length_append, length_singleton, Nat.pow_succ]
    omega

section reads
variable {S β : Type*} (need : S → Nat) (complete : S → List β → S)

/-- One more byte for the read under way: the state of the task and what it has of the piece it
reads. -/
def feed (p : S × List β) (b : β) : S × List β :=
  if (p.2 ++ [b]).length < need p.1 then (p.1, p.2 ++ [b]) else (complete p.1 (p.2 ++ [b]), [])

variable {need complete} {s : S}

theorem feed_rest {got bytes : List β} (hne : bytes ≠ [])
    (hlen : got.length + bytes.length = need s) :
    bytes.foldl (feed need complete) (s, got) = (complete s (got ++ bytes), []) := by
  induction bytes generalizing got with
  | nil => exact absurd rfl hne
  | cons b bytes ih =>
    rw [length_cons] at hlen
    rw [foldl_cons, feed]
    by_cases hbytes : bytes = []
    · subst hbytes
      rw [length_nil] at hlen
      rw [if_neg (by simp only [length_append, length_singleton]; omega)]
      rfl
    · have hpos := length_pos_of_ne_nil hbytes
      rw [if_pos (by simp only [length_append, length_singleton]; omega),
        ih hbytes (by simp only [length_append, length_singleton]; omega)]
      simp

/-- A piece is read whole, however its bytes arrive. -/
theorem feed_piece {bytes : List β} (hne : bytes ≠ []) (hlen : bytes.length = need s) :
    bytes.foldl (feed need complete) (s, []) = (complete s bytes, []) := by
  have h := @feed_rest S β need complete s [] bytes hne (by simpa using hlen)
  simpa using h

theorem feed_short {bytes : List β} (hlen : bytes.length < need s) :
    bytes.foldl (feed need complete) (s, []) = (s, bytes) := by
  induction bytes using reverseRecOn with
  | nil => rfl
  | append_singleton bytes b ih =>
    have hbytes : bytes.length < need s := by
      rw [length_append, length_singleton] at hlen
      omega
    rw [foldl_append, ih hbytes, foldl_cons, foldl_nil, feed, if_pos hlen]

/-- Where the task is after the first bytes of a stream: inside the first piece or behind it. -/
theorem feed_initial {P : S × List β → Prop} {piece rest bytes : List β} (hne : piece ≠ [])
    (hlen : piece.length = need s) (hinitial : bytes <+: piece ++ rest)
    (hinside : bytes.length < need s → P (s, bytes))
    (hbehind : ∀ more, more <+: rest → bytes = piece ++ more →
      P (more.foldl (feed need complete) (complete s piece, []))) :
    P (bytes.foldl (feed need complete) (s, [])) := by
  by_cases hshort : bytes.length < need s
  · rw [feed_short hshort]
    exact hinside hshort
  · obtain ⟨more, rfl⟩ :=
      prefix_of_prefix_length_le (prefix_append piece rest) hinitial (by omega)
    rw [foldl_append, feed_piece hne hlen]
    exact hbehind more ((prefix_append_right_inj piece).mp hinitial) rfl

end reads
end Wire
