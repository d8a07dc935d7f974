import Syncthing.Lib.Regroup
import Syncthing.Lib.Utf8
import Syncthing.Net.RelayProtocol

/-! `syncthing-core/src/device_id.rs`: base 32 with a Luhn check character after every 13 digits.
The two conversions push bits through a `u32` out of which old bits fall at the top. -/
namespace Syncthing.DeviceIdText

open Utf8 List Nat
open UInt32 (ofNat toNat_ofNat_of_lt')
open UInt8 (toNat)
open Regroup (Buffered value shift_add_mod)

/-- `char::is_alphanumeric`. Outside ASCII it is a table of the Unicode standard. -/
structure CharClass where
  isAlphanumeric : Char → Bool
  ascii : ∀ c : Char, c.toNat < 128 → isAlphanumeric c = c.isAlphanum

instance inhabitedCharClass : Inhabited CharClass := ⟨⟨Char.isAlphanum, fun _ _ => rfl⟩⟩

inductive IdError where
  | invalid (message : String)
  /-- Prints as an invalid hex encoding: what `hex::decode` found, and where. -/
  | invalidHex (byte : UInt8) (index : Nat)
  | panicked
  deriving DecidableEq

def base32Alphabet : List Char :=
  ['A', 'B', 'C', 'D', 'E', 'F', 'G', 'H', 'I', 'J', 'K', 'L', 'M', 'N', 'O', 'P', 'Q', 'R', 'S',
    'T', 'U', 'V', 'W', 'X', 'Y', 'Z', '2', '3', '4', '5', '6', '7']

def alphabetAt (index : Fin 32) : Char := base32Alphabet.get index

def alphabetPosition (c : Char) : Option Nat := base32Alphabet.findIdx? (· == c)

/-- The bits not yet written and what has been written. -/
structure BitBuffer (α : Type) where
  result : List α
  buffer : UInt32
  bitsLeft : Nat

namespace BitBuffer

variable {α : Type}

def empty : BitBuffer α := ⟨[], 0, 0⟩

/-- `while bits_left >= width`. Each round takes bits off, so `bits_left` rounds are enough. -/
def drain (width : Nat) (digit : UInt32 → α) : Nat → BitBuffer α → BitBuffer α
  | 0, s => s
  | rounds + 1, s =>
    if width ≤ s.bitsLeft then drain width digit rounds
        { s with
          result := s.result ++ [digit (s.buffer >>> ofNat (s.bitsLeft - width))]
          bitsLeft := s.bitsLeft - width }
    else s

/-- One round of the loop over the input, whose items have `inWidth` bits. -/
def feed (inWidth width : Nat) (digit : UInt32 → α) (s : BitBuffer α) (x : UInt32) : BitBuffer α :=
  drain width digit (s.bitsLeft + inWidth)
    { s with
      buffer := (s.buffer <<< ofNat inWidth) ||| x
      bitsLeft := s.bitsLeft + inWidth }

end BitBuffer
open BitBuffer (empty)

variable (x : UInt32)

theorem and_mask_lt : (x &&& 0x1F).toNat < 32 := lt_succ_of_le and_le_right

def base32Digit : Char := alphabetAt ⟨(x &&& 0x1F).toNat, and_mask_lt x⟩

def lowByte : UInt8 := (x &&& 0xFF).toUInt8

def toBase32 (bytes : Bytes) : List Char :=
  let s := bytes.foldl (fun s byte => s.feed 8 5 base32Digit byte.toUInt32) empty
  if 0 < s.bitsLeft then s.result ++ [base32Digit (s.buffer <<< ofNat (5 - s.bitsLeft))]
  else s.result

def readChar (s : BitBuffer UInt8) (c : Char) : Except IdError (BitBuffer UInt8) :=
  match alphabetPosition c.toUpper with
  | none =>
    .error (.invalid ("Device ID error: Invalid Base32 character: " ++ String.singleton c.toUpper))
  | some index => .ok (s.feed 5 8 lowByte (ofNat index))

variable (s : List Char)

def fromBase32 : Except IdError Bytes := do
  let buffer ← s.foldlM readChar empty
  return buffer.result

def base32CharToValue (c : Char) : Nat := (alphabetPosition c.toUpper).getD 0

/-- The sum and the next factor. -/
def luhnStep (s : Nat × Nat) (c : Char) : Nat × Nat :=
  let addend := s.2 * base32CharToValue c
  (s.1 + (addend / 32 + addend % 32), if s.2 = 2 then 1 else 2)

def luhn32Char : Char :=
  let remainder := (s.foldl luhnStep (0, 1)).1 % 32
  alphabetAt ⟨(32 - remainder) % 32, mod_lt _ (by decide)⟩

/-- One round of `luhnify`; `none` is a panic of the slice or of the insertion. -/
def insertCheck (result : List Char) (i : Nat) : Option (List Char) := do
  let group ← slice result (i * 13) (i * 13 + 13)
  insert result (i * 13 + 13) (luhn32Char group)

def luhnify : Option (List Char) := [3, 2, 1, 0].foldlM insertCheck s

/-- `chunks`, of a text in which every character is a byte. -/
def chunks (size : Nat) (s : List Char) : List (List Char) :=
  (range ((s.length + size - 1) / size)).map fun i => (s.drop (i * size)).take size

/-- The `Display` of an id. -/
def fmt (id : Relay.DeviceId) : Option String := do
  let base32 := toBase32 id.bytes
  let data ←
    if 52 ≤ byteLen base32 then slice base32 0 52
    else some (base32 ++ List.replicate (52 - base32.length) '0')
  let withLuhn ← luhnify data
  return "-".intercalate ((chunks 7 withLuhn).map String.ofList)

/-- The loop of `verify_luhn32_checksum` over the groups. -/
def verifyGroups (s : List Char) : List Nat → Option Bool
  | [] => some true
  | i :: is => do
    let group ← slice s (i * 14) (i * 14 + 13)
    match s[i * 14 + 13]? with
    | none => some false
    | some checkChar => if checkChar ≠ luhn32Char group then some false else verifyGroups s is

def verifyLuhn32Checksum : Option Bool :=
  if byteLen s ≠ 56 then some false else verifyGroups s [0, 1, 2, 3]

def hexValue (byte : UInt8) : Option UInt8 :=
  if 65 ≤ byte ∧ byte ≤ 70 then some (byte - 65 + 10)
  else if 97 ≤ byte ∧ byte ≤ 102 then some (byte - 97 + 10)
  else if 48 ≤ byte ∧ byte ≤ 57 then some (byte - 48)
  else none

def hexPairs (index : Nat) : Bytes → Except IdError Bytes
  | high :: low :: bytes =>
    match hexValue high, hexValue low with
    | none, _ => .error (.invalidHex high index)
    | some _, none => .error (.invalidHex low (index + 1))
    | some h, some l => (hexPairs (index + 2) bytes).map ((h <<< 4 ||| l) :: ·)
  | _ => .ok []

/-- `hex::decode`. -/
def hexDecode : Except IdError Bytes :=
  let bytes := s.flatMap String.utf8EncodeChar
  if bytes.length % 2 ≠ 0 then
    .error (.invalid "Device ID error: Invalid hex encoding: Odd number of digits")
  else hexPairs 0 bytes

def orPanic {α : Type} : Option α → Except IdError α
  | none => .error .panicked
  | some a => .ok a

def fromBytes (bytes : Bytes) : Except IdError Relay.DeviceId :=
  (Relay.DeviceId.fromBytes bytes).mapError .invalid

/-- The data of the four groups, without the check characters. -/
def base32Data (cleaned : List Char) : Option (List Char) := do
  let groups ← [0, 1, 2, 3].mapM fun i => slice cleaned (i * 14) (i * 14 + 13)
  return groups.flatten

variable (chars : CharClass)

def fromStr (s : String) : Except IdError Relay.DeviceId := do
  let cleaned := s.toList.filter chars.isAlphanumeric
  if byteLen cleaned = 64 then
    let bytes ← hexDecode cleaned
    fromBytes bytes
  else if byteLen cleaned = 56 then
    let data ← orPanic (base32Data cleaned)
    let valid ← orPanic (verifyLuhn32Checksum cleaned)
    if !valid then throw (.invalid "Device ID error: Invalid Luhn-32 checksum")
    let bytes ← fromBase32 data
    fromBytes bytes
  else
    throw (.invalid ("Device ID error: Invalid device ID length: expected 64 (hex) or 56 (base32) " ++
      "alphanumeric chars, got " ++ toString (byteLen cleaned)))

/-! The alphabet. -/

theorem alphabetAt_mem (i : Fin 32) : alphabetAt i ∈ base32Alphabet := List.get_mem _ _

theorem utf8Size_of_mem : ∀ c ∈ base32Alphabet, c.utf8Size = 1 :=
  @of_decide_eq_true _ (decidableBAll _ base32Alphabet) rfl

theorem toUpper_of_mem : ∀ c ∈ base32Alphabet, c.toUpper = c :=
  @of_decide_eq_true _ (decidableBAll _ base32Alphabet) rfl

theorem isAlphanumeric_of_mem {c : Char} (h : c ∈ base32Alphabet) :
    chars.isAlphanumeric c = true := by
  have hascii : ∀ c ∈ base32Alphabet, c.toNat < 128 ∧ c.isAlphanum = true :=
    @of_decide_eq_true _ (decidableBAll _ base32Alphabet) rfl
  rw [chars.ascii c (hascii c h).1, (hascii c h).2]

theorem not_isAlphanumeric_dash : chars.isAlphanumeric '-' = false := by
  rw [chars.ascii '-' (by decide)]
  decide

theorem alphabetPosition_alphabetAt : ∀ i, alphabetPosition (alphabetAt i) = some i.val := by decide

theorem base32CharToValue_alphabetAt (i : Fin 32) : base32CharToValue (alphabetAt i) = i.val := by
  rw [base32CharToValue, toUpper_of_mem _ (alphabetAt_mem i), alphabetPosition_alphabetAt,
    Option.getD_some]

theorem alphabetPosition_of_mem : ∀ c ∈ base32Alphabet,
    alphabetPosition c.toUpper = some (base32CharToValue c) ∧ base32CharToValue c < 2 ^ 5 :=
  @of_decide_eq_true _ (decidableBAll _ base32Alphabet) rfl

theorem luhn32Char_mem : luhn32Char s ∈ base32Alphabet := alphabetAt_mem _

theorem byteLen_of_alphabet {s : List Char} (h : ∀ c ∈ s, c ∈ base32Alphabet) :
    byteLen s = s.length :=
  byteLen_eq_length fun c hc => utf8Size_of_mem c (h c hc)

/-! The words of the buffer as numbers. -/

theorem toNat_shift_or {buffer x : UInt32} {w : Nat} (hw : w < 32) (hx : x.toNat < 2 ^ w) :
    ((buffer <<< ofNat w) ||| x).toNat = (buffer.toNat * 2 ^ w + x.toNat) % 2 ^ 32 := by
  have hsize : (ofNat w).toNat % 32 = w := by
    rw [toNat_ofNat_of_lt' (hw.trans (by decide)), mod_eq_of_lt hw]
  obtain ⟨k, hk⟩ := Nat.exists_eq_add_of_le' hw.le
  have hshift : (buffer <<< ofNat w).toNat = (buffer.toNat % 2 ^ k) <<< w := by
    rw [UInt32.toNat_shiftLeft, hsize, shiftLeft_eq, shiftLeft_eq, hk, pow_add,
      mul_mod_mul_right]
  rw [UInt32.toNat_or, hshift, ← shiftLeft_add_eq_or_of_lt hx, shiftLeft_eq, hk,
    shift_add_mod hx]

theorem toNat_shiftRight {buffer : UInt32} {k : Nat} (hk : k < 32) :
    (buffer >>> ofNat k).toNat = buffer.toNat / 2 ^ k := by
  rw [UInt32.toNat_shiftRight, toNat_ofNat_of_lt' (hk.trans (by decide)),
    mod_eq_of_lt hk, shiftRight_eq_div_pow]

theorem base32CharToValue_digit (x : UInt32) :
    base32CharToValue (base32Digit x) = x.toNat % 2 ^ 5 := by
  rw [base32Digit, base32CharToValue_alphabetAt]
  exact and_two_pow_sub_one_eq_mod x.toNat 5

theorem toNat_lowByte (x : UInt32) : (lowByte x).toNat = x.toNat % 2 ^ 8 := by
  have hand : x.toNat &&& 255 = x.toNat % 2 ^ 8 := and_two_pow_sub_one_eq_mod x.toNat 8
  rw [lowByte, UInt32.toNat_toUInt8, UInt32.toNat_and]
  exact (congrArg (· % 2 ^ 8) hand).trans (mod_mod _ _)

namespace BitBuffer

variable {α : Type} {w v : Nat} {val : α → Nat} {digit : UInt32 → α} {input : List Nat}
  {s : BitBuffer α}

/-- What the loops keep: less than a digit is pending. -/
structure Holds (w v : Nat) (val : α → Nat) (input : List Nat) (s : BitBuffer α) : Prop where
  buffered : Buffered w v input (s.result.map val) s.buffer.toNat s.bitsLeft
  few : s.bitsLeft < v

theorem holds_empty (hv : 0 < v) : Holds w v val [] empty := ⟨.initial w v 0, hv⟩

section
variable (hdigit : ∀ x, val (digit x) = x.toNat % 2 ^ v)
include hdigit

theorem holds_drain (hv : 0 < v) {rounds : Nat}
    (h : Buffered w v input (s.result.map val) s.buffer.toNat s.bitsLeft)
    (hrounds : s.bitsLeft ≤ rounds) (hsize : s.bitsLeft < 32) :
    Holds w v val input (drain v digit rounds s) := by
  induction rounds generalizing s with
  | zero => exact ⟨h, by rw [drain]; omega⟩
  | succ rounds ih =>
    rw [drain]
    split
    next hle =>
      apply ih
      · have hemit := h.emit hle
        rw [← toNat_shiftRight (by omega), ← hdigit] at hemit
        simpa only [List.map_append, List.map_singleton] using hemit
      · change s.bitsLeft - v ≤ rounds
        omega
      · change s.bitsLeft - v < 32
        omega
    · exact ⟨h, by omega⟩

theorem holds_feed (hv : 0 < v)
    (hwidth : v + w ≤ 32) (h : Holds w v val input s) {x : UInt32} (hx : x.toNat < 2 ^ w) :
    Holds w v val (input ++ [x.toNat]) (s.feed w v digit x) := by
  have hfew := h.few
  have hpush : Buffered w v _ _ (_ % 2 ^ 32) _ := h.buffered.push hx (by omega)
  rw [← toNat_shift_or (by omega) hx] at hpush
  exact holds_drain hdigit hv hpush (le_refl _) (by change s.bitsLeft + w < 32; omega)

end

/-- The loops write digits only. -/
theorem forall_mem_drain {P : α → Prop} (hdigit : ∀ x, P (digit x)) {rounds : Nat}
    (h : ∀ a ∈ s.result, P a) : ∀ a ∈ (drain v digit rounds s).result, P a := by
  induction rounds generalizing s with
  | zero => exact h
  | succ rounds ih =>
    rw [drain]
    split
    · apply ih
      simp only [List.mem_append, List.mem_singleton]
      rintro a (ha | rfl)
      · exact h a ha
      · exact hdigit _
    · exact h

end BitBuffer

open BitBuffer

/-! The loop of `to_base32`. -/

theorem base32Digit_mem (x : UInt32) : base32Digit x ∈ base32Alphabet := alphabetAt_mem _

def encoded (bytes : Bytes) : BitBuffer Char :=
  bytes.foldl (fun s byte => s.feed 8 5 base32Digit byte.toUInt32) empty

section
variable (bytes : Bytes)
include bytes

theorem toBase32_eq : toBase32 bytes =
    if 0 < (encoded bytes).bitsLeft then (encoded bytes).result ++
        [base32Digit ((encoded bytes).buffer <<< ofNat (5 - (encoded bytes).bitsLeft))]
    else (encoded bytes).result := rfl

theorem holds_encoded : Holds 8 5 base32CharToValue (bytes.map toNat) (encoded bytes) := by
  induction bytes using List.reverseRecOn with
  | nil => exact holds_empty (by decide)
  | append_singleton bytes byte ih =>
    have hfeed := holds_feed base32CharToValue_digit (by decide) (by decide) ih
      (x := byte.toUInt32) (by rw [UInt8.toNat_toUInt32]; exact byte.toNat_lt)
    rw [UInt8.toNat_toUInt32] at hfeed
    rw [map_append, encoded, foldl_append]
    exact hfeed

theorem encoded_mem : ∀ c ∈ (encoded bytes).result, c ∈ base32Alphabet := by
  induction bytes using List.reverseRecOn with
  | nil => simp [encoded, empty]
  | append_singleton bytes byte ih =>
    rw [encoded, foldl_append]
    exact forall_mem_drain base32Digit_mem ih

theorem toBase32_mem : ∀ c ∈ toBase32 bytes, c ∈ base32Alphabet := by
  rw [toBase32_eq]
  split
  · intro c hc
    rcases List.mem_append.mp hc with hc | hc
    · exact encoded_mem bytes c hc
    · rw [mem_singleton.mp hc]
      exact base32Digit_mem _
  · exact encoded_mem bytes

end

/-- The 256 bits of an id and four zeros are 52 digits. -/
theorem toBase32_of_size {bytes : Bytes} (h : bytes.length = 32) : (toBase32 bytes).length = 52 ∧
      value (2 ^ 5) ((toBase32 bytes).map base32CharToValue) =
        value (2 ^ 8) (bytes.map toNat) * 2 ^ 4 := by
  have hholds := holds_encoded bytes
  have hlen := hholds.buffered.length
  have hfew := hholds.few
  rw [length_map, length_map, h] at hlen
  obtain ⟨hbits, hresult⟩ : (encoded bytes).bitsLeft = 1 ∧ (encoded bytes).result.length = 51 := by
    omega
  have hpad := hholds.buffered.pad hfew.le
  rw [toBase32_eq, if_pos (by omega), hbits]
  constructor
  · rw [length_append, hresult, length_singleton]
  · rw [hbits] at hpad
    rw [map_append, map_singleton, base32CharToValue_digit, ← hpad]
    have hshift : ((encoded bytes).buffer <<< ofNat 4).toNat % 2 ^ 5 =
        (encoded bytes).buffer.toNat * 2 ^ 4 % 2 ^ 5 := by
      have hor : (((encoded bytes).buffer <<< ofNat 4) ||| 0).toNat = _ :=
        toNat_shift_or (by decide) (by decide)
      rw [UInt32.or_zero] at hor
      rw [hor, UInt32.toNat_zero, add_zero,
        mod_mod_of_dvd _ (pow_dvd_pow 2 (by decide))]
    rw [hshift]

/-! The loop of `from_base32`. -/

theorem readChar_of_mem {s : BitBuffer UInt8} {c : Char} (h : c ∈ base32Alphabet) :
    readChar s c = .ok (s.feed 5 8 lowByte (ofNat (base32CharToValue c))) := by
  rw [readChar, (alphabetPosition_of_mem c h).1]

theorem exists_foldlM_readChar {chars : List Char} (h : ∀ c ∈ chars, c ∈ base32Alphabet) :
    ∃ s, chars.foldlM readChar empty = .ok s ∧ Holds 5 8 toNat (chars.map base32CharToValue) s := by
  induction chars using List.reverseRecOn with
  | nil => exact ⟨empty, rfl, holds_empty (by decide)⟩
  | append_singleton chars c ih =>
    obtain ⟨s, hrun, hs⟩ := ih fun c hc => h c (mem_append_left _ hc)
    have hc := h c (by simp)
    have hlt := (alphabetPosition_of_mem c hc).2
    have hvalue : (ofNat (base32CharToValue c)).toNat = base32CharToValue c :=
      toNat_ofNat_of_lt' (hlt.trans (by decide))
    have hfeed := holds_feed toNat_lowByte (by decide) (by decide) hs
      (x := ofNat (base32CharToValue c)) (by rwa [hvalue])
    rw [hvalue] at hfeed
    rw [foldlM_append, hrun, map_append]
    exact ⟨_, congrArg (Except.bind · pure) (readChar_of_mem hc), hfeed⟩

theorem fromBase32_toBase32 {bytes : Bytes} (h : bytes.length = 32) :
    fromBase32 (toBase32 bytes) = .ok bytes := by
  obtain ⟨hlen, hvalue⟩ := toBase32_of_size h
  obtain ⟨s, hrun, hs⟩ := exists_foldlM_readChar (toBase32_mem bytes)
  have hcount := hs.buffered.length
  have hfew := hs.few
  rw [length_map, length_map, hlen] at hcount
  obtain ⟨hbits, hresult⟩ : s.bitsLeft = 4 ∧ s.result.length = 32 := by omega
  have hbytes : ∀ d ∈ bytes.map toNat, d < 2 ^ 8 := by
    simp only [mem_map]
    rintro d ⟨b, -, rfl⟩
    exact b.toNat_lt
  have hmap : s.result.map toNat = bytes.map toNat :=
    hs.buffered.output_eq (by decide) (by rw [length_map, length_map, hresult, h])
      hbytes (by rw [hvalue, hbits])
  have heq : s.result = bytes := map_injective_iff.mpr (fun _ _ => UInt8.toNat_inj.mp) hmap
  rw [fromBase32, hrun, ← heq]
  rfl

/-! The check characters. -/

/-- The digits of a group, without the check character. -/
structure IsGroup (group : List Char) : Prop where
  length : group.length = 13
  mem : ∀ c ∈ group, c ∈ base32Alphabet

/-- A group as it is printed, apart from the dashes. -/
def checked (group : List Char) : List Char := group ++ [luhn32Char group]

variable {group : List Char} {groups : List (List Char)}

theorem length_checked (group : List Char) : (checked group).length = group.length + 1 :=
  List.length_append

theorem checked_mem (h : IsGroup group) : ∀ c ∈ checked group, c ∈ base32Alphabet := by
  intro c hc
  rcases List.mem_append.mp hc with hc | hc
  · exact h.mem c hc
  · rw [mem_singleton.mp hc]
    exact luhn32Char_mem group

theorem mem_flatten_checked (h : ∀ g ∈ groups, IsGroup g) :
    ∀ c ∈ (groups.map checked).flatten, c ∈ base32Alphabet := by
  simp only [List.mem_flatten, mem_map]
  rintro c ⟨-, ⟨g, hg, rfl⟩, hc⟩
  exact checked_mem (h g hg) c hc

theorem mem_flatten (h : ∀ g ∈ groups, IsGroup g) : ∀ c ∈ groups.flatten, c ∈ base32Alphabet := by
  intro c hc
  obtain ⟨g, hg, hc⟩ := List.mem_flatten.mp hc
  exact (h g hg).mem c hc

theorem length_flatten_of_forall {n : Nat} (h : ∀ g ∈ groups, g.length = n) :
    groups.flatten.length = groups.length * n := by
  rw [List.length_flatten, List.map_congr_left h, List.map_const', List.sum_replicate_nat]

section
variable {s : List Char}

/-- The text begins with a group and its check character. -/
def Sealed (s : List Char) : Prop := s[13]? = some (luhn32Char (s.take 13))

instance decidableSealed (s : List Char) : Decidable (Sealed s) := inferInstanceAs (Decidable (_ = _))

variable (h : ∀ c ∈ s, c ∈ base32Alphabet)
include h

theorem slice_alphabet {i : Nat} (hi : i * 14 + 13 < s.length) :
    slice s (i * 14) (i * 14 + 13) = some ((s.drop (i * 14)).take 13) := by
  have hslice := slice_append (s.take (i * 14)) ((s.drop (i * 14)).take 13)
    ((s.drop (i * 14)).drop 13)
  rw [byteLen_of_alphabet fun c hc => h c (mem_of_mem_take hc),
    byteLen_of_alphabet fun c hc => h c (mem_of_mem_drop (mem_of_mem_take hc)),
    take_append_drop, take_append_drop, length_take, length_take, length_drop] at hslice
  convert hslice using 2 <;> omega

theorem verifyGroups_eq {is : List Nat} (his : ∀ i ∈ is, i * 14 + 13 < s.length) :
    verifyGroups s is = some (is.all fun i => Sealed (s.drop (i * 14))) := by
  induction is with
  | nil => rfl
  | cons i is ih =>
    have hi := his i mem_cons_self
    simp only [verifyGroups, slice_alphabet h hi, getElem?_eq_getElem hi,
      ih fun j hj => his j (mem_cons_of_mem i hj)]
    by_cases hseal : s[i * 14 + 13] = luhn32Char ((s.drop (i * 14)).take 13) <;>
      simp [hseal, Sealed, hi]

theorem base32Data_eq (hlen : s.length = 56) : base32Data s =
    some ((range 4).map fun i => (s.drop (i * 14)).take 13).flatten := by
  simp only [base32Data, List.mapM_cons, List.mapM_nil, slice_alphabet h (i := 0) (by omega),
    slice_alphabet h (i := 1) (by omega), slice_alphabet h (i := 2) (by omega),
    slice_alphabet h (i := 3) (by omega)]
  rfl

end

section
variable (h : ∀ g ∈ groups, IsGroup g)
include h

theorem length_flatten_checked : (groups.map checked).flatten.length = groups.length * 14 := by
  rw [← length_map (f := checked)]
  apply length_flatten_of_forall
  intro _ hmem
  obtain ⟨g, hg, rfl⟩ := mem_map.mp hmem
  rw [length_checked, (h g hg).length]

/-- `luhnify` works from the last group to the first: what is in front of a group has not been
changed yet when its turn comes. -/
theorem insertChecks (tail : List Char) :
    (range groups.length).reverse.foldlM insertCheck (groups.flatten ++ tail) =
      some ((groups.map checked).flatten ++ tail) := by
  induction groups using List.reverseRecOn generalizing tail with
  | nil => rfl
  | append_singleton groups group ih =>
    have hgroups : ∀ g ∈ groups, IsGroup g := fun g hg => h g (mem_append_left _ hg)
    have hgroup : IsGroup group := h group (by simp)
    have hfront : byteLen groups.flatten = groups.length * 13 :=
      (byteLen_of_alphabet (mem_flatten hgroups)).trans
        (length_flatten_of_forall fun g hg => (hgroups g hg).length)
    have hlen : byteLen group = 13 := (byteLen_of_alphabet hgroup.mem).trans hgroup.length
    have hslice := slice_append groups.flatten group tail
    have hinsert := insert_append (groups.flatten ++ group) tail (luhn32Char group)
    rw [hfront, hlen] at hslice
    rw [byteLen_append, hfront, hlen, append_assoc] at hinsert
    have hstep : insertCheck (groups.flatten ++ (group ++ tail)) groups.length =
        some (groups.flatten ++ (checked group ++ tail)) := by
      simp only [insertCheck, hslice, hinsert, checked, Option.bind_eq_bind, Option.bind_some,
        append_assoc, singleton_append]
    rw [length_append, length_singleton, range_succ, reverse_concat,
      foldlM_cons, flatten_append, flatten_singleton, append_assoc, hstep]
    simpa using ih hgroups (checked group ++ tail)

theorem luhnify_flatten (hcount : groups.length = 4) :
    luhnify groups.flatten = some (groups.map checked).flatten := by
  have hinsert := insertChecks h []
  rw [hcount, append_nil, append_nil] at hinsert
  exact hinsert

/-- Where a group is found in the text. -/
theorem drop_flatten_checked {i : Nat} (hi : i < groups.length) :
    (groups.map checked).flatten.drop (i * 14) =
      groups[i] ++ luhn32Char groups[i] :: ((groups.drop (i + 1)).map checked).flatten := by
  have hfront := length_flatten_checked fun g hg => h g (mem_of_mem_take (i := i) hg)
  rw [List.length_take, min_eq_left hi.le] at hfront
  have hsplit : (groups.map checked).flatten = ((groups.take i).map checked).flatten ++
      (groups[i] ++ luhn32Char groups[i] :: ((groups.drop (i + 1)).map checked).flatten) := by
    conv_lhs => rw [← take_append_drop i groups, drop_eq_getElem_cons hi]
    simp only [map_append, map_cons, flatten_append, flatten_cons, checked, append_assoc,
      singleton_append]
  rw [hsplit, ← hfront, drop_left]

theorem take_drop_flatten_checked {i : Nat} (hi : i < groups.length) :
    ((groups.map checked).flatten.drop (i * 14)).take 13 = groups[i] := by
  rw [drop_flatten_checked h hi, ← (h _ (getElem_mem hi)).length, take_left]

theorem sealed_flatten_checked {i : Nat} (hi : i < groups.length) :
    Sealed ((groups.map checked).flatten.drop (i * 14)) := by
  rw [Sealed, take_drop_flatten_checked h hi, drop_flatten_checked h hi,
    ← (h _ (getElem_mem hi)).length, getElem?_append_right (Nat.le_refl _), Nat.sub_self,
    getElem?_cons_zero]

variable (hcount : groups.length = 4)
include hcount

theorem byteLen_flatten_checked : byteLen (groups.map checked).flatten = 56 := by
  rw [byteLen_of_alphabet (mem_flatten_checked h), length_flatten_checked h, hcount]

theorem verifyLuhn32Checksum_flatten :
    verifyLuhn32Checksum (groups.map checked).flatten = some true := by
  rw [verifyLuhn32Checksum, byteLen_flatten_checked h hcount, if_neg (by decide),
    verifyGroups_eq (mem_flatten_checked h) (by simp [length_flatten_checked h, hcount]),
    Option.some.injEq, all_eq_true]
  intro i hi
  exact decide_eq_true (sealed_flatten_checked h (by simp at hi; omega))

theorem base32Data_flatten : base32Data (groups.map checked).flatten = some groups.flatten := by
  have hparts : ((range 4).map fun i => ((groups.map checked).flatten.drop (i * 14)).take 13) =
      groups := by
    refine ext_getElem (by simp [hcount]) fun i _ hi => ?_
    rw [getElem_map, getElem_range, take_drop_flatten_checked h hi]
  rw [base32Data_eq (mem_flatten_checked h) (by rw [length_flatten_checked h, hcount]), hparts]

end

/-! Chunks, of the digits and of the printed text. -/

section
variable {s : List Char} {size count : Nat}

section
variable (hsize : 0 < size)
include hsize

theorem chunks_eq (h : s.length = count * size) :
    chunks size s = (range count).map fun i => (s.drop (i * size)).take size := by
  have hcount : (s.length + size - 1) / size = count := by
    rw [h, Nat.add_sub_assoc hsize, Nat.add_comm, Nat.add_mul_div_right _ _ hsize,
      Nat.div_eq_of_lt (Nat.sub_lt hsize Nat.one_pos), Nat.zero_add]
  rw [chunks, hcount]

theorem length_chunks (h : s.length = count * size) : (chunks size s).length = count := by
  rw [chunks_eq hsize h, length_map, List.length_range]

theorem length_of_mem_chunks (h : s.length = count * size) :
    ∀ chunk ∈ chunks size s, chunk.length = size := by
  rw [chunks_eq hsize h]
  simp only [mem_map, List.mem_range]
  rintro chunk ⟨i, hi, rfl⟩
  have hroom : i * size + size ≤ s.length := by
    rw [h, ← succ_mul]
    exact mul_le_mul_right size hi
  rw [length_take, length_drop]
  omega

theorem flatten_chunks (h : s.length = count * size) : (chunks size s).flatten = s := by
  have htake : ∀ n, ((range n).map fun i => (s.drop (i * size)).take size).flatten =
      s.take (n * size) := by
    intro n
    induction n with
    | zero => simp
    | succ n ih =>
      rw [List.range_succ, List.map_append, List.flatten_append, ih, succ_mul, List.take_add]
      simp
  rw [chunks_eq hsize h, htake, ← h, take_length]

end

theorem mem_of_mem_chunks {chunk : List Char} (h : chunk ∈ chunks size s) : ∀ c ∈ chunk, c ∈ s := by
  obtain ⟨i, -, rfl⟩ := List.mem_map.mp h
  exact fun c hc => List.mem_of_mem_drop (List.mem_of_mem_take hc)

end

/-- Dashes do not count. -/
theorem filter_intercalate {p : Char → Bool} (hdash : p '-' = false) {parts : List (List Char)}
    (h : ∀ part ∈ parts, ∀ c ∈ part, p c = true) :
    (['-'].intercalate parts).filter p = parts.flatten := by
  induction parts with
  | nil => rfl
  | cons part parts ih =>
    have hpart : part.filter p = part := List.filter_eq_self.mpr (h part mem_cons_self)
    have ih := ih fun part' hpart' => h part' (List.mem_cons_of_mem part hpart')
    cases parts with
    | nil => simp [List.intercalate, hpart]
    | cons part' parts =>
      rw [List.intercalate_cons_cons, List.filter_append, List.filter_append, ih, hpart]
      simp [hdash]

/-- What an id is printed as, before the dashes. -/
theorem exists_groups (id : Relay.DeviceId) : ∃ groups : List (List Char),
    (∀ g ∈ groups, IsGroup g) ∧ groups.length = 4 ∧ groups.flatten = toBase32 id.bytes := by
  have hlen : (toBase32 id.bytes).length = 4 * 13 := (toBase32_of_size id.size).1
  refine ⟨chunks 13 (toBase32 id.bytes), ?_, length_chunks (by decide) hlen,
    flatten_chunks (by decide) hlen⟩
  intro g hg
  exact ⟨length_of_mem_chunks (by decide) hlen g hg,
    fun c hc => toBase32_mem id.bytes c (mem_of_mem_chunks hg c hc)⟩

variable {id : Relay.DeviceId}

theorem fmt_eq (h : ∀ g ∈ groups, IsGroup g) (hcount : groups.length = 4)
    (hdata : groups.flatten = toBase32 id.bytes) : fmt id = some ("-".intercalate
      ((chunks 7 (groups.map checked).flatten).map String.ofList)) := by
  have hbytes : byteLen (toBase32 id.bytes) = 52 :=
    (byteLen_of_alphabet (toBase32_mem id.bytes)).trans (toBase32_of_size id.size).1
  have hslice : slice (toBase32 id.bytes) 0 52 = some (toBase32 id.bytes) := by
    have hall := slice_append [] (toBase32 id.bytes) []
    rwa [byteLen_nil, hbytes, nil_append, append_nil] at hall
  have hluhn := luhnify_flatten h hcount
  rw [hdata] at hluhn
  simp only [fmt, hbytes, hslice, le_refl, if_true, hluhn, Option.bind_eq_bind, Option.bind_some,
    Option.pure_def]

/-- Any text that is this form apart from characters that do not count is read as the id. -/
theorem fromStr_eq {chars : CharClass} {s : String} (h : ∀ g ∈ groups, IsGroup g)
    (hcount : groups.length = 4) (hdata : groups.flatten = toBase32 id.bytes)
    (hclean : s.toList.filter chars.isAlphanumeric = (groups.map checked).flatten) :
    fromStr chars s = .ok id := by
  have hid : fromBytes id.bytes = .ok id := by
    rw [fromBytes, Relay.DeviceId.fromBytes, dif_pos id.size]
    rfl
  simp only [fromStr, hclean, byteLen_flatten_checked h hcount, base32Data_flatten h hcount,
    verifyLuhn32Checksum_flatten h hcount, orPanic, hdata]
  change (fromBase32 (toBase32 id.bytes)).bind fromBytes = _
  rw [fromBase32_toBase32 id.size]
  exact hid

/-- The printed text without the dashes. -/
theorem filter_fmt {p : Char → Bool} {s : List Char} (hdash : p '-' = false) (hlen : s.length = 8 * 7)
    (hmem : ∀ c ∈ s, p c = true) :
    ("-".intercalate ((chunks 7 s).map String.ofList)).toList.filter p = s := by
  have htext : ("-".intercalate ((chunks 7 s).map String.ofList)).toList =
      ['-'].intercalate (chunks 7 s) := by
    rw [String.toList_intercalate, List.map_map]
    simp [Function.comp_def]
  rw [htext, filter_intercalate hdash, flatten_chunks (by decide) hlen]
  exact fun chunk hchunk c hc => hmem c (mem_of_mem_chunks hchunk c hc)

/-- The id printed in eight groups of seven digits is the id read back. -/
theorem fromStr_fmt (chars : CharClass) (id : Relay.DeviceId) :
    ∃ groups : List String, groups.length = 8 ∧
      (∀ group ∈ groups, group.toList.length = 7 ∧ ∀ c ∈ group.toList, c ∈ base32Alphabet) ∧
      fmt id = some ("-".intercalate groups) ∧
      fromStr chars ("-".intercalate groups) = .ok id := by
  obtain ⟨groups, h, hcount, hdata⟩ := exists_groups id
  have hmem := mem_flatten_checked h
  have hlen : (groups.map checked).flatten.length = 8 * 7 := by
    rw [length_flatten_checked h, hcount]
  refine ⟨(chunks 7 (groups.map checked).flatten).map String.ofList, ?_, ?_,
    fmt_eq h hcount hdata, fromStr_eq h hcount hdata ?_⟩
  · rw [length_map, length_chunks (by decide) hlen]
  · intro group hgroup
    obtain ⟨chunk, hchunk, rfl⟩ := List.mem_map.mp hgroup
    rw [String.toList_ofList]
    exact ⟨length_of_mem_chunks (by decide) hlen chunk hchunk,
      fun c hc => hmem c (mem_of_mem_chunks hchunk c hc)⟩
  · exact filter_fmt (not_isAlphanumeric_dash chars) hlen fun c hc =>
      isAlphanumeric_of_mem chars (hmem c hc)

/-! One character of a text is changed. -/

section
variable {x y s : List Char} {c c' : Char}

theorem foldl_luhnStep (n factor : Nat) :
    (s.foldl luhnStep (n, factor)).1 = n + (s.foldl luhnStep (0, factor)).1 := by
  induction s generalizing n factor with
  | nil => rfl
  | cons c s ih =>
    simp only [foldl_cons, luhnStep]
    rw [ih, ih (0 + _)]
    omega

theorem luhn_factor : ∀ n factor, factor = 1 ∨ factor = 2 →
    (s.foldl luhnStep (n, factor)).2 = 1 ∨ (s.foldl luhnStep (n, factor)).2 = 2 := by
  induction s with
  | nil => exact fun _ _ h => h
  | cons c s ih => exact fun n factor _ => ih _ _ (by dsimp only; split <;> simp)

/-- Either factor permutes the digits modulo 32. -/
theorem eq_of_luhn32Char_eq (hc : c ∈ base32Alphabet) (hc' : c' ∈ base32Alphabet)
    (h : luhn32Char (x ++ c :: y) = luhn32Char (x ++ c' :: y)) : c = c' := by
  have hget : ∀ c ∈ base32Alphabet, base32Alphabet[base32CharToValue c]? = some c :=
    @of_decide_eq_true _ (decidableBAll _ base32Alphabet) rfl
  have hlt := (alphabetPosition_of_mem c hc).2
  have hlt' := (alphabetPosition_of_mem c' hc').2
  have hcheck := congrArg alphabetPosition h
  simp only [luhn32Char, alphabetPosition_alphabetAt, foldl_append, foldl_cons, luhnStep,
    Option.some.injEq] at hcheck
  rw [foldl_luhnStep, foldl_luhnStep (_ + _) (ite ..)] at hcheck
  have hvalue : base32CharToValue c = base32CharToValue c' := by
    rcases luhn_factor (s := x) 0 1 (.inl rfl) with hf | hf <;> rw [hf] at hcheck <;> omega
  have heq := hget c hc
  rw [hvalue, hget c' hc'] at heq
  exact (Option.some.inj heq).symm

theorem eq_of_sealed (hc : c ∈ base32Alphabet) (hc' : c' ∈ base32Alphabet) (hx : x.length ≤ 13)
    (h : Sealed (x ++ c :: y)) (h' : Sealed (x ++ c' :: y)) : c = c' := by
  unfold Sealed at h h'
  rcases lt_or_eq_of_le hx with hlt | heq
  · obtain ⟨k, hk⟩ := Nat.exists_eq_add_of_lt hlt
    have hsub : 13 - x.length = k + 1 := by omega
    simp only [getElem?_append_right hx, take_append, take_of_length_le hx, hsub,
      getElem?_cons_succ, take_succ_cons] at h h'
    exact eq_of_luhn32Char_eq hc hc' (Option.some.inj (h.symm.trans h'))
  · simp only [← heq, getElem?_append_right (Nat.le_refl _), Nat.sub_self, getElem?_cons_zero,
      take_left] at h h'
    exact Option.some.inj (h.trans h'.symm)

theorem fromStr_of_not_sealed {chars : CharClass} {text : String} {i : Nat}
    (h : ∀ c ∈ s, c ∈ base32Alphabet)
    (hclean : text.toList.filter chars.isAlphanumeric = s) (hlen : s.length = 56) (hi : i < 4)
    (hseal : ¬ Sealed (s.drop (i * 14))) : fromStr chars text =
      .error (.invalid "Device ID error: Invalid Luhn-32 checksum") := by
  have hbytes := (byteLen_of_alphabet h).trans hlen
  have hverify : verifyLuhn32Checksum s = some false := by
    rw [verifyLuhn32Checksum, if_neg (by simp [hbytes]), verifyGroups_eq h (by simp [hlen]),
      Option.some.injEq, all_eq_false]
    exact ⟨i, by simp; omega, by simpa using hseal⟩
  simp only [fromStr, hclean, hbytes, base32Data_eq h hlen, hverify]
  rfl

/-- A printed id with another digit in the place of one of its characters is not read as an id. -/
theorem fromStr_typo (chars : CharClass) {text : String} (hfmt : fmt id = some text)
    (htext : text.toList = x ++ c :: y) (hc : c ≠ '-') (hc' : c' ∈ base32Alphabet) (hne : c' ≠ c) :
    fromStr chars (String.ofList (x ++ c' :: y)) =
      .error (.invalid "Device ID error: Invalid Luhn-32 checksum") := by
  obtain ⟨groups, h, hcount, hdata⟩ := exists_groups id
  have hmem := mem_flatten_checked h
  have hlen : (groups.map checked).flatten.length = 8 * 7 := by
    rw [length_flatten_checked h, hcount]
  cases (fmt_eq h hcount hdata).symm.trans hfmt
  have hnot : ∀ c ∈ base32Alphabet, c ≠ '-' := by
    rintro _ hc rfl
    simpa [not_isAlphanumeric_dash] using isAlphanumeric_of_mem chars hc
  have hdigits := filter_fmt (p := (· ≠ '-')) (by simp) hlen fun c hc => by
    simpa using hnot c (hmem c hc)
  have hclean := filter_fmt (not_isAlphanumeric_dash chars) hlen fun c hc =>
    isAlphanumeric_of_mem chars (hmem c hc)
  have hc : c ∈ base32Alphabet := by
    apply hmem
    rw [← hdigits, htext]
    simp [hc]
  have hchanged : (String.ofList (x ++ c' :: y)).toList.filter chars.isAlphanumeric =
      x.filter chars.isAlphanumeric ++ c' :: y.filter chars.isAlphanumeric := by
    simp [isAlphanumeric_of_mem chars hc']
  rw [htext, filter_append, filter_cons_of_pos (isAlphanumeric_of_mem chars hc)] at hclean
  generalize x.filter chars.isAlphanumeric = front, y.filter chars.isAlphanumeric = back
    at hclean hchanged
  rw [← hclean] at hmem hlen
  have hpos : front.length / 14 * 14 ≤ front.length := div_mul_le_self ..
  simp only [length_append, length_cons] at hlen
  refine fromStr_of_not_sealed (i := front.length / 14) ?_ hchanged ?_ (by omega) fun hsealed => ?_
  · rw [forall_mem_append, forall_mem_cons] at hmem ⊢
    exact ⟨hmem.1, hc', hmem.2.2⟩
  · simp
    omega
  -- the group of the character is sealed by the same digits otherwise
  have hsealed' := sealed_flatten_checked h (i := front.length / 14) (by omega)
  rw [← hclean, drop_append_of_le_length hpos] at hsealed'
  rw [drop_append_of_le_length hpos] at hsealed
  exact hne (eq_of_sealed hc' hc (by simp; omega) hsealed hsealed')

def zeroId : Relay.DeviceId := ⟨replicate 32 0, rfl⟩

def zeroTail : List Char := "AAAAAA-AAAAAAA-AAAAAAA-AAAAAAA-AAAAAAA-AAAAAAA-AAAAAAA-AAAAAAA".toList

theorem fromStr_typo_first : fromStr default (String.ofList ('B' :: zeroTail)) =
      .error (.invalid "Device ID error: Invalid Luhn-32 checksum") := by
  have hfmt : fmt zeroId = some (String.ofList ('A' :: zeroTail)) := by decide +kernel
  exact fromStr_typo (x := []) default hfmt String.toList_ofList (by decide) (by decide) (by decide)

end

end Syncthing.DeviceIdText
