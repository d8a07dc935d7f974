import Mathlib.Data.Nat.Digits.Lemmas

/-! Digits of `w` bits go through a buffer of bounded width and come out as digits of `v` bits, the
most significant bit first. What the buffer holds above the bits still to come out may overflow. -/
namespace Regroup

open List Nat

/-- The number of a list of digits, the most significant one first. -/
def value (base : Nat) (digits : List Nat) : Nat := ofDigits base digits.reverse

theorem value_concat (base : Nat) (digits : List Nat) (d : Nat) :
    value base (digits ++ [d]) = value base digits * base + d := by
  simp only [value, reverse_concat, ofDigits_cons]
  ring

/-- Bits shifted out at the top leave those below as they are. -/
theorem shift_add_mod {w k a x : Nat} (hx : x < 2 ^ w) :
    (a * 2 ^ w + x) % 2 ^ (k + w) = a % 2 ^ k * 2 ^ w + x := by
  rw [Nat.add_comm k, Nat.pow_add, Nat.mod_mul, Nat.mul_add_mod_self_right, Nat.mod_eq_of_lt hx,
    Nat.add_comm _ x, Nat.add_mul_div_right _ _ (Nat.two_pow_pos w), Nat.div_eq_of_lt hx,
    zero_add]
  ring

theorem eq_of_value_eq {base : Nat} {xs ys : List Nat} (hbase : 1 < base)
    (hlen : xs.length = ys.length) (hxs : ∀ x ∈ xs, x < base) (hys : ∀ y ∈ ys, y < base)
    (h : value base xs = value base ys) : xs = ys := by
  have hrev : xs.reverse = ys.reverse := ofDigits_inj_of_len_eq hbase
    (by simpa using hlen) (by simpa using hxs) (by simpa using hys) h
  exact reverse_injective hrev

/-- `input` has been read and `output` written; the low `bits` bits of the buffer are pending. -/
structure Buffered (w v : Nat) (input output : List Nat) (buffer bits : Nat) : Prop where
  length : input.length * w = output.length * v + bits
  sum : value (2 ^ w) input = value (2 ^ v) output * 2 ^ bits + buffer % 2 ^ bits
  digits : ∀ d ∈ output, d < 2 ^ v

namespace Buffered

variable {w v : Nat} {input output : List Nat} {buffer bits : Nat}

theorem initial (w v buffer : Nat) : Buffered w v [] [] buffer 0 where
  length := by simp
  sum := by simp [value, mod_one]
  digits := by simp

section
variable (h : Buffered w v input output buffer bits)
include h

/-- A digit read in below the others. The buffer has room for what is pending. -/
theorem push {x cap : Nat} (hx : x < 2 ^ w) (hcap : bits + w ≤ cap) :
    Buffered w v (input ++ [x]) output ((buffer * 2 ^ w + x) % 2 ^ cap) (bits + w) where
  length := by
    have := h.length
    simp only [length_append, length_singleton, add_mul]
    omega
  sum := by
    have hmod : (buffer * 2 ^ w + x) % 2 ^ cap % 2 ^ (bits + w) =
        buffer % 2 ^ bits * 2 ^ w + x := by
      rw [mod_mod_of_dvd _ (pow_dvd_pow 2 hcap), shift_add_mod hx]
    rw [value_concat, h.sum, hmod, pow_add]
    ring
  digits := h.digits

/-- The highest pending bits written out as a digit. -/
theorem emit (hv : v ≤ bits) :
    Buffered w v input (output ++ [buffer / 2 ^ (bits - v) % 2 ^ v]) buffer (bits - v) where
  length := by
    have := h.length
    simp only [length_append, length_singleton, add_mul]
    omega
  sum := by
    obtain ⟨k, rfl⟩ := Nat.exists_eq_add_of_le' hv
    rw [h.sum, value_concat, Nat.add_sub_cancel, Nat.pow_add, Nat.mod_mul]
    ring
  digits := by
    intro d hd
    rcases mem_append.mp hd with hd | hd
    · exact h.digits d hd
    · rw [mem_singleton.mp hd]
      exact Nat.mod_lt _ (Nat.two_pow_pos v)

/-- The last pending bits written out as a digit that is filled up with zeros. -/
theorem pad (hbits : bits ≤ v) : value (2 ^ v) (output ++ [buffer * 2 ^ (v - bits) % 2 ^ v]) =
      value (2 ^ w) input * 2 ^ (v - bits) := by
  obtain ⟨k, rfl⟩ := Nat.exists_eq_add_of_le hbits
  rw [value_concat, h.sum, Nat.add_sub_cancel_left, Nat.pow_add, Nat.mul_mod_mul_right]
  ring

/-- Digits that were filled up with as many bits as are left over read back as what they encode. -/
theorem output_eq {digits : List Nat}
    (hv : 0 < v) (hlen : output.length = digits.length) (hdigits : ∀ d ∈ digits, d < 2 ^ v)
    (hpad : value (2 ^ w) input = value (2 ^ v) digits * 2 ^ bits) : output = digits := by
  have hdiv : value (2 ^ v) output = value (2 ^ v) digits := by
    have hsum := h.sum.symm.trans hpad
    have hrest := Nat.mod_lt buffer (Nat.two_pow_pos bits)
    calc value (2 ^ v) output
        = (value (2 ^ v) output * 2 ^ bits + buffer % 2 ^ bits) / 2 ^ bits := by
          rw [Nat.add_comm, Nat.add_mul_div_right _ _ (Nat.two_pow_pos bits),
            Nat.div_eq_of_lt hrest, Nat.zero_add]
      _ = value (2 ^ v) digits := by rw [hsum, Nat.mul_div_cancel _ (Nat.two_pow_pos bits)]
  exact eq_of_value_eq (Nat.one_lt_two_pow hv.ne') hlen h.digits hdigits hdiv

end

end Buffered
end Regroup
