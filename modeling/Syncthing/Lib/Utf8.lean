import Mathlib.Algebra.GroupWithZero.Nat
import Mathlib.Data.List.Basic

/-! A text is the list of its characters; positions count the bytes of its UTF-8 encoding. A
position inside a character, or past the end, gives `none`. -/
namespace Utf8

open Option

variable (s : List Char)

def byteLen : Nat := (s.map Char.utf8Size).sum

/-- The text before a position and the text after it. -/
def splitBytes : List Char → Nat → Option (List Char × List Char)
  | s, 0 => some ([], s)
  | [], _ + 1 => none
  | c :: s, n + 1 =>
    if c.utf8Size ≤ n + 1 then (splitBytes s (n + 1 - c.utf8Size)).map fun p => (c :: p.1, p.2)
    else none

def slice (start stop : Nat) : Option (List Char) := do
  let (_, tail) ← splitBytes s start
  let (part, _) ← splitBytes tail (stop - start)
  return part

def insert (position : Nat) (c : Char) : Option (List Char) := do
  let (front, tail) ← splitBytes s position
  return front ++ c :: tail

@[simp] theorem byteLen_nil : byteLen [] = 0 := rfl

@[simp] theorem byteLen_cons (c : Char) (s : List Char) :
    byteLen (c :: s) = c.utf8Size + byteLen s := by
  simp [byteLen]

variable (s t : List Char)

@[simp] theorem byteLen_append : byteLen (s ++ t) = byteLen s + byteLen t := by
  simp [byteLen]

/-- Every character of an ASCII text takes one byte. -/
theorem byteLen_eq_length {s : List Char} (h : ∀ c ∈ s, c.utf8Size = 1) : byteLen s = s.length := by
  induction s with
  | nil => rfl
  | cons c s ih =>
    have hs := ih fun c' hc' => h c' (List.mem_cons_of_mem c hc')
    rw [byteLen_cons, h c List.mem_cons_self, hs, List.length_cons, Nat.add_comm]

theorem splitBytes_append : splitBytes (s ++ t) (byteLen s) = some (s, t) := by
  induction s with
  | nil => cases t <;> rfl
  | cons c s ih =>
    obtain ⟨n, hn⟩ := Nat.exists_eq_add_of_lt c.utf8Size_pos
    have hlen : byteLen (c :: s) = n + byteLen s + 1 := by
      rw [byteLen_cons]
      omega
    have hle : c.utf8Size ≤ n + byteLen s + 1 := by omega
    have hsub : n + byteLen s + 1 - c.utf8Size = byteLen s := by omega
    rw [hlen, List.cons_append, splitBytes, if_pos hle, hsub, ih]
    rfl

theorem slice_append (s t u : List Char) :
    slice (s ++ (t ++ u)) (byteLen s) (byteLen s + byteLen t) = some t := by
  simp only [slice, splitBytes_append, Nat.add_sub_cancel_left, bind_eq_bind, bind_some, pure_def]

theorem insert_append (c : Char) : insert (s ++ t) (byteLen s) c = some (s ++ c :: t) := by
  simp only [insert, splitBytes_append, bind_eq_bind, bind_some, pure_def]

end Utf8
