import Syncthing.Lib.AtomicObject
import Syncthing.Sync.DatabaseRefinement
import Mathlib.Data.Nat.Digits.Defs

/-! `get_sequence` and `increment_sequence` of the filesystem-backed database, cut where another
task can come in between. The counter of a folder is a text file that is truncated and written again
under the lock of the folder. -/
namespace Syncthing

open AtomicObject Transition List Function AtomicObject.Event
open UInt64 (ofNat toNat)

/-! ### The text of a counter -/

/-- `seq.to_string()`. -/
def sequenceText (seq : UInt64) : List Char := Nat.toDigits 10 seq.toNat

/-- The loop of `str::parse`. -/
def parseDigits : Nat → List Char → Except String Nat
  | acc, [] => .ok acc
  | acc, c :: cs =>
    if c.isDigit then
      let next := 10 * acc + (c.toNat - '0'.toNat)
      if next < 2 ^ 64 then parseDigits next cs
      else .error "number too large to fit in target type"
    else .error "invalid digit found in string"

/-- `str::parse::<u64>`. -/
def parseU64 (text : List Char) : Except DbError UInt64 :=
  let invalid (e : String) : DbError := .database ("Invalid sequence: " ++ e)
  match text with
  | [] => .error (invalid "cannot parse integer from empty string")
  | ['+'] | ['-'] => .error (invalid "invalid digit found in string")
  | '+' :: digits => ((parseDigits 0 digits).map ofNat).mapError invalid
  | digits => ((parseDigits 0 digits).map ofNat).mapError invalid

theorem le_ofDigitChars (cs : List Char) (acc : Nat) : acc ≤ Nat.ofDigitChars 10 cs acc := by
  induction cs generalizing acc with
  | nil => exact le_rfl
  | cons c cs ih =>
    rw [Nat.ofDigitChars_cons]
    have h := ih (10 * acc + (c.toNat - '0'.toNat))
    omega

theorem parseDigits_of_digits {cs : List Char} {acc : Nat} (hdigits : ∀ c ∈ cs, c.isDigit = true)
    (hsmall : Nat.ofDigitChars 10 cs acc < 2 ^ 64) :
    parseDigits acc cs = .ok (Nat.ofDigitChars 10 cs acc) := by
  induction cs generalizing acc with
  | nil => rfl
  | cons c cs ih =>
    rw [Nat.ofDigitChars_cons] at hsmall ⊢
    have hnext := lt_of_le_of_lt (le_ofDigitChars cs _) hsmall
    rw [parseDigits, if_pos (hdigits c mem_cons_self)]
    simp only [hnext, if_true]
    exact ih (fun c hc => hdigits c (mem_cons_of_mem _ hc)) hsmall

/-- What is written is what is read. -/
theorem parseU64_sequenceText (seq : UInt64) : parseU64 (sequenceText seq) = .ok seq := by
  have hdigits : ∀ c ∈ sequenceText seq, c.isDigit = true :=
    fun c hc => Nat.isDigit_of_mem_toDigits (by decide) (by decide) hc
  have hvalue : Nat.ofDigitChars 10 (sequenceText seq) 0 = seq.toNat :=
    Nat.ofDigitChars_toDigits (by decide) (by decide)
  have hparse := @parseDigits_of_digits (sequenceText seq) 0 hdigits (hvalue ▸ seq.toNat_lt)
  rw [hvalue] at hparse
  have hok : ∀ digits, parseDigits 0 digits = .ok seq.toNat →
      ((parseDigits 0 digits).map ofNat).mapError
        (fun e => DbError.database ("Invalid sequence: " ++ e)) = .ok seq := by
    intro digits h
    simp [h, Except.map, Except.mapError]
  unfold parseU64
  split
  next htext => exact absurd htext Nat.toDigits_ne_nil
  next htext => exact absurd (hdigits '+' (by simp [htext])) (by decide)
  next htext => exact absurd (hdigits '-' (by simp [htext])) (by decide)
  next htext => exact absurd (hdigits '+' (by simp [htext])) (by decide)
  · exact hok _ hparse

/-! ### The calls -/

variable {φ κ : Type} {text : List Char}

inductive SequenceOp (φ : Type) where
  | getSequence (folder : φ)
  | incrementSequence (folder : φ)

def SequenceOp.folder : SequenceOp φ → φ
  | getSequence folder | incrementSequence folder => folder

abbrev SequenceResult := Except DbError UInt64

/-- How far a call has got. From `locked` to `leaving` it holds the lock of its folder. -/
inductive SequenceCall (φ : Type) where
  | made (op : SequenceOp φ)
  /-- It has got the lock out of `seq_locks`. -/
  | waiting (op : SequenceOp φ) (lock : Nat)
  | locked (op : SequenceOp φ) (lock : Nat)
  /-- The file is there. -/
  | reading (op : SequenceOp φ) (lock : Nat)
  | truncating (folder : φ) (lock : Nat) (seq : UInt64)
  /-- That many characters are written. -/
  | writing (folder : φ) (lock : Nat) (seq : UInt64) (written : Nat)
  | leaving (op : SequenceOp φ) (lock : Nat) (result : SequenceResult)
  | unlocked (op : SequenceOp φ) (result : SequenceResult)
  | returned

namespace SequenceOp

/-- A folder without a sequence file. -/
def ifMissing (lock : Nat) : SequenceOp φ → SequenceCall φ
  | getSequence folder => .leaving (getSequence folder) lock (.ok 0)
  | incrementSequence folder => .truncating folder lock 1

/-- The content of the sequence file has been read. -/
def afterRead (lock : Nat) (text : List Char) : SequenceOp φ → SequenceCall φ
  | getSequence folder => .leaving (getSequence folder) lock (parseU64 text)
  | incrementSequence folder =>
    match parseU64 text with
    | .ok current => .truncating folder lock (current + 1)
    | .error e => .leaving (incrementSequence folder) lock (.error e)

end SequenceOp

/-- What the calls share, and the calls. -/
structure SequenceState (φ κ : Type) where
  seqLocks : φ → Option Nat
  nextLock : Nat
  holder : Nat → Option Nat
  files : κ → Option (List Char)
  calls : Nat → Option (SequenceCall φ)

inductive SequenceAction (φ : Type) where
  | call (c : Nat) (op : SequenceOp φ)
  | work (c : Nat)
  | ret (c : Nat) (result : SequenceResult)

/-- A write at an offset. What is missing before it reads as zeros. -/
def overwrite (content : List Char) (offset : Nat) (piece : List Char) : List Char :=
  content.take offset ++ replicate (offset - content.length) (Char.ofNat 0) ++ piece ++
    content.drop (offset + piece.length)

section model
variable [DecidableEq φ] [DecidableEq κ]

namespace SequenceState

variable (s : SequenceState φ κ)

def setCall (c : Nat) (call : SequenceCall φ) : SequenceState φ κ :=
  { s with calls := update s.calls c (some call) }

def setFile (file : κ) (content : List Char) : SequenceState φ κ :=
  { s with files := update s.files file (some content) }

def setHolder (lock : Nat) (c : Option Nat) : SequenceState φ κ :=
  { s with holder := update s.holder lock c }

/-- The lock of a folder, made when it is first asked for. -/
def getSeqLock (folder : φ) : Nat × SequenceState φ κ :=
  match s.seqLocks folder with
  | some lock => (lock, s)
  | none => (s.nextLock, { s with
      seqLocks := update s.seqLocks folder (some s.nextLock)
      nextLock := s.nextLock + 1 })

/-- A database with these counters, and no call under way. -/
def initial (start : κ → Option UInt64) : SequenceState φ κ :=
  ⟨fun _ => none, 0, fun _ => none, fun file => (start file).map sequenceText, fun _ => none⟩

end SequenceState

/-- One step of a call, none of which fails. `fileOf` is the file that the path
`base_path.join(format!("seq_{}", folder))` leads to. -/
inductive SequenceStep (fileOf : φ → κ) :
    SequenceState φ κ → SequenceAction φ → SequenceState φ κ → Prop where
  | call {s c} (op : SequenceOp φ) (h : s.calls c = none) :
    SequenceStep fileOf s (.call c op) (s.setCall c (.made op))
  | getSeqLock {s c op} (h : s.calls c = some (.made op)) :
    SequenceStep fileOf s (.work c)
      ((s.getSeqLock op.folder).2.setCall c (.waiting op (s.getSeqLock op.folder).1))
  | lock {s c op lock} (h : s.calls c = some (.waiting op lock)) (hfree : s.holder lock = none) :
    SequenceStep fileOf s (.work c) ((s.setHolder lock (some c)).setCall c (.locked op lock))
  | pathMissing {s c op lock} (h : s.calls c = some (.locked op lock))
    (hfile : s.files (fileOf op.folder) = none) :
    SequenceStep fileOf s (.work c) (s.setCall c (op.ifMissing lock))
  | pathExists {s c op lock text} (h : s.calls c = some (.locked op lock))
    (hfile : s.files (fileOf op.folder) = some text) :
    SequenceStep fileOf s (.work c) (s.setCall c (.reading op lock))
  | read {s c op lock text} (h : s.calls c = some (.reading op lock))
    (hfile : s.files (fileOf op.folder) = some text) :
    SequenceStep fileOf s (.work c) (s.setCall c (op.afterRead lock text))
  | truncate {s c folder lock seq} (h : s.calls c = some (.truncating folder lock seq)) :
    SequenceStep fileOf s (.work c)
      ((s.setFile (fileOf folder) []).setCall c (.writing folder lock seq 0))
  | write {s c folder lock seq written content} (n : Nat)
    (h : s.calls c = some (.writing folder lock seq written))
    (hfile : s.files (fileOf folder) = some content)
    (hn : written + n ≤ (sequenceText seq).length) : SequenceStep fileOf s (.work c)
      ((s.setFile (fileOf folder)
        (overwrite content written (((sequenceText seq).drop written).take n))).setCall c
        (.writing folder lock seq (written + n)))
  | finish {s c folder lock seq written} (h : s.calls c = some (.writing folder lock seq written))
    (hall : written = (sequenceText seq).length) : SequenceStep fileOf s (.work c)
      (s.setCall c (.leaving (.incrementSequence folder) lock (.ok seq)))
  | unlock {s c op lock result} (h : s.calls c = some (.leaving op lock result)) :
    SequenceStep fileOf s (.work c) ((s.setHolder lock none).setCall c (.unlocked op result))
  | ret {s c op result} (h : s.calls c = some (.unlocked op result)) :
    SequenceStep fileOf s (.ret c result) (s.setCall c .returned)

/-! ### The counters as they are meant -/

/-- A sequence number is allocated or looked up. -/
def allocate (latest : φ → Nat) : SequenceOp φ → Except DbError Nat × (φ → Nat)
  | .getSequence folder => (.ok (latest folder), latest)
  | .incrementSequence folder => (.ok (latest folder + 1), update latest folder (latest folder + 1))

abbrev SequenceEvent (φ : Type) := AtomicObject.Event Nat (SequenceOp φ) (Except DbError Nat)

/-- What can be seen of a step from outside. -/
def SequenceAction.observe : SequenceAction φ → Option (SequenceEvent φ)
  | call c op => some (.call c op)
  | work _ => none
  | ret c result => some (.ret c (result.map toNat))

/-- The numbers allocated for a folder, in the order in which the calls take effect. -/
def allocated (folder : φ) (events : List (SequenceEvent φ)) : List Nat := events.filterMap fun
    | .effect _ (.incrementSequence f) (.ok seq) => if f = folder then some seq else none
    | _ => none

/-- What is seen of the calls comes from allocations that take effect one at a time, each while its
call is under way. -/
structure Exclusive (start : φ → Nat) (seen : List (SequenceEvent φ)) : Prop where
  noError : ∀ c e, ret c (.error e) ∉ seen
  linear : ∃ events : List (SequenceEvent φ), events.filter visible = seen ∧
    (∀ folder, allocated folder events =
      range' (start folder + 1) (allocated folder events).length) ∧
    (∀ c folder seq, call c (.incrementSequence folder) ∈ seen → ret c (.ok seq) ∈ seen →
      ∃ before after, events = before ++ .effect c (.incrementSequence folder) (.ok seq) :: after ∧
        call c (.incrementSequence folder) ∈ before ∧ ret c (.ok seq) ∈ after ∧
        ∀ op r, effect c op r ∉ before ++ after) ∧
    ∀ c folder seq, call c (.getSequence folder) ∈ seen → ret c (.ok seq) ∈ seen →
      ∃ before after, events = before ++ after ∧ call c (.getSequence folder) ∈ before ∧
        ret c (.ok seq) ∈ after ∧
        seq = ((allocated folder before).getLast?).getD (start folder)

end model

/-! ### From allocations to numbers -/

section allocations
variable [DecidableEq φ] {start latest : φ → Nat} {events : List (SequenceEvent φ)} {folder : φ}

section
variable (h : History allocate start events latest)
include h

theorem allocated_of_history (folder : φ) :
    allocated folder events = range' (start folder + 1) (allocated folder events).length ∧
      latest folder = start folder + (allocated folder events).length := by
  induction h with
  | nil => exact ⟨rfl, rfl⟩
  | call _ _ _ ih | ret _ _ _ ih => simpa [allocated] using ih
  | @effect es u c op _ _ _ ih =>
    cases op with
    | getSequence f => simpa [allocated, allocate] using ih
    | incrementSequence f =>
      obtain ⟨hnumbers, hlatest⟩ := ih
      by_cases hf : f = folder
      · subst hf
        have hone : allocated f (es ++ [.effect c (.incrementSequence f)
            (allocate u (.incrementSequence f)).1]) = allocated f es ++ [u f + 1] := by
          simp [allocated, allocate]
        rw [hone, length_append, length_singleton, range'_concat, ← hnumbers]
        simp only [allocate, update_self, hlatest]
        exact ⟨by congr 2; omega, by omega⟩
      · have hother : allocated folder (es ++ [.effect c (.incrementSequence f)
            (allocate u (.incrementSequence f)).1]) = allocated folder es := by
          simp [allocated, allocate, hf]
        rw [hother]
        exact ⟨hnumbers, by simpa [allocate, update_of_ne (Ne.symm hf)] using hlatest⟩

/-- The latest number is the last one allocated. -/
theorem latest_eq_getLast (folder : φ) :
    latest folder = ((allocated folder events).getLast?).getD (start folder) := by
  obtain ⟨hnumbers, hlatest⟩ := allocated_of_history h folder
  rw [hlatest, hnumbers, getLast?_range', length_range']
  split
  next hzero => simp [hzero]
  · simp only [Option.getD_some]
    omega

theorem exclusive_of_history : Exclusive start (events.filter visible) where
  noError := by
    intro c e hret
    obtain ⟨before, op, after, u, -, -, -, hr, -⟩ := h.ret_explained (mem_filter.mp hret).1
    cases op with
    | getSequence | incrementSequence => cases hr
  linear := by
    refine ⟨events, rfl, fun folder => (allocated_of_history h folder).1, ?_, ?_⟩
    · intro c folder seq hcall hret
      obtain ⟨before, op, after, u, hsplit, -, hop, -, hafter⟩ :=
        h.ret_explained (mem_filter.mp hret).1
      have hin : call c op ∈ events := by simp [hsplit, hop]
      obtain rfl := h.call_unique hin (mem_filter.mp hcall).1
      refine ⟨before, after, hsplit, hop, hafter, ?_⟩
      rw [hsplit] at h
      exact h.not_effect_of_split
    · intro c folder seq hcall hret
      obtain ⟨before, op, after, u, hsplit, hbefore, hop, hr, hafter⟩ :=
        h.ret_explained (mem_filter.mp hret).1
      have hin : call c op ∈ events := by simp [hsplit, hop]
      obtain rfl := h.call_unique hin (mem_filter.mp hcall).1
      refine ⟨before, _, hsplit, hop, mem_cons_of_mem _ hafter, ?_⟩
      rw [← latest_eq_getLast hbefore]
      exact (Except.ok.inj hr).symm

end

end allocations

/-! ### What the locks keep -/

namespace SequenceCall

/-- The folder of a call and the lock it has got for it. -/
def uses : SequenceCall φ → Option (φ × Nat)
  | waiting op lock | locked op lock | reading op lock | leaving op lock _ => some (op.folder, lock)
  | truncating folder lock _ | writing folder lock .. => some (folder, lock)
  | made _ | unlocked .. | returned => none

def critical : SequenceCall φ → Bool
  | locked .. | reading .. | truncating .. | writing .. | leaving .. => true
  | made _ | waiting .. | unlocked .. | returned => false

/-- The folder whose file is half done. -/
def writes : SequenceCall φ → Option φ
  | writing folder .. => some folder
  | _ => none

theorem uses_of_writes {call : SequenceCall φ} {folder : φ} (h : call.writes = some folder) :
    ∃ lock, call.uses = some (folder, lock) := by
  cases call <;> cases h
  exact ⟨_, rfl⟩

end SequenceCall

theorem SequenceOp.uses_ifMissing {op : SequenceOp φ} {lock : Nat} :
    (op.ifMissing lock).uses = some (op.folder, lock) := by
  cases op <;> rfl

theorem SequenceOp.uses_afterRead {op : SequenceOp φ} {lock : Nat} :
    (op.afterRead lock text).uses = some (op.folder, lock) := by
  cases op with
  | getSequence => rfl
  | incrementSequence =>
    simp only [afterRead]
    split <;> rfl

variable (fileOf : φ → κ)

/-- The file of a folder holds its counter. -/
def Stored (latest : φ → Nat) (files : κ → Option (List Char)) (folder : φ) : Prop :=
  match files (fileOf folder) with
  | none => latest folder = 0
  | some text => ∃ seq, text = sequenceText seq ∧ latest folder = seq.toNat

/-- A call that has not taken effect. -/
structure Pending (es : List (SequenceEvent φ)) (c : Nat) (op : SequenceOp φ) : Prop where
  call : .call c op ∈ es
  noEffect : ∀ op' r, .effect c op' r ∉ es

/-- A call that has taken effect and has not returned. -/
structure TookEffect (es : List (SequenceEvent φ)) (c : Nat) (op : SequenceOp φ)
    (result : SequenceResult) : Prop where
  effect : ∃ seq, result = .ok seq ∧ .effect c op (.ok seq.toNat) ∈ es
  noRet : ∀ r, .ret c r ∉ es

/-- What is known at each stage of a call. -/
def StageOk (es : List (SequenceEvent φ)) (latest : φ → Nat)
    (files : κ → Option (List Char)) (c : Nat) : SequenceCall φ → Prop
  | .made op | .waiting op _ | .locked op _ | .reading op _ => Pending es c op
  | .truncating folder _ seq =>
    Pending es c (.incrementSequence folder) ∧ seq.toNat = latest folder + 1
  | .writing folder _ seq written =>
    Pending es c (.incrementSequence folder) ∧ seq.toNat = latest folder + 1 ∧
      files (fileOf folder) = some ((sequenceText seq).take written)
  | .leaving op _ result | .unlocked op result => TookEffect es c op result
  | .returned => True

/-- Every folder has a lock of its own, and a call between `locked` and `leaving` holds it. -/
structure Locked (s : SequenceState φ κ) : Prop where
  made : ∀ folder lock, s.seqLocks folder = some lock → lock < s.nextLock
  distinct : ∀ folder folder' lock, s.seqLocks folder = some lock →
    s.seqLocks folder' = some lock → folder = folder'
  uses : ∀ c call folder lock, s.calls c = some call → call.uses = some (folder, lock) →
    s.seqLocks folder = some lock
  holds : ∀ c call folder lock, s.calls c = some call → call.uses = some (folder, lock) →
    call.critical = true → s.holder lock = some c

/-- The calls and the files go with a history of the counters. -/
structure Linked (fileOf : φ → κ) (es : List (SequenceEvent φ)) (latest : φ → Nat)
    (s : SequenceState φ κ) : Prop where
  stage : ∀ c call, s.calls c = some call → StageOk fileOf es latest s.files c call
  stored : ∀ folder, (∀ c call, s.calls c = some call → call.writes ≠ some folder) →
    Stored fileOf latest s.files folder
  unmade : ∀ c, s.calls c = none → ∀ e ∈ es, e.caller ≠ c

section linked
variable {fileOf : φ → κ} {es new : List (SequenceEvent φ)} {latest latest' : φ → Nat}
  {s s' : SequenceState φ κ} {c c' : Nat} {call next : SequenceCall φ} {folder : φ} {lock : Nat}
  {op : SequenceOp φ} {seq : UInt64} {a : SequenceAction φ}

theorem Pending.append (h : Pending es c' op) (hnew : ∀ e ∈ new, e.caller ≠ c') :
    Pending (es ++ new) c' op where
  call := mem_append_left _ h.call
  noEffect := by
    intro op' r hin
    rcases mem_append.mp hin with hin | hin
    · exact h.noEffect op' r hin
    · exact hnew _ hin rfl

theorem TookEffect.append {result : SequenceResult} (h : TookEffect es c' op result)
    (hnew : ∀ e ∈ new, e.caller ≠ c') : TookEffect (es ++ new) c' op result where
  effect := by
    obtain ⟨seq, hresult, heffect⟩ := h.effect
    exact ⟨seq, hresult, mem_append_left _ heffect⟩
  noRet := by
    intro r hin
    rcases mem_append.mp hin with hin | hin
    · exact h.noRet r hin
    · exact hnew _ hin rfl

/-- A stage is not disturbed by what others do outside its folder. -/
theorem StageOk.frame {files files' : κ → Option (List Char)}
    (h : StageOk fileOf es latest files c' call) (hnew : ∀ e ∈ new, e.caller ≠ c')
    (hframe : ∀ folder lock, call.uses = some (folder, lock) → call.critical = true →
      latest' folder = latest folder ∧ files' (fileOf folder) = files (fileOf folder)) :
    StageOk fileOf (es ++ new) latest' files' c' call := by
  cases call with
  | made op | waiting op lock | locked op lock | reading op lock => exact Pending.append h hnew
  | truncating folder lock seq =>
    obtain ⟨hlatest, -⟩ := hframe folder lock rfl rfl
    exact ⟨h.1.append hnew, hlatest ▸ h.2⟩
  | writing folder lock seq written =>
    obtain ⟨hlatest, hfile⟩ := hframe folder lock rfl rfl
    exact ⟨h.1.append hnew, hlatest ▸ h.2.1, hfile ▸ h.2.2⟩
  | leaving op lock result | unlocked op result => exact TookEffect.append h hnew
  | returned => trivial

/-- One call goes on, and the others stay where they are. -/
theorem calls_cases (hcalls : s'.calls = update s.calls c (some next))
    (hc' : s'.calls c' = some call) : c' = c ∧ call = next ∨ c' ≠ c ∧ s.calls c' = some call := by
  rw [hcalls, update_apply] at hc'
  split at hc'
  next hsame => exact .inl ⟨hsame, (Option.some.inj hc').symm⟩
  next hne => exact .inr ⟨hne, hc'⟩

namespace Locked

/-- Two calls that hold the lock of one folder are the same. -/
theorem exclusive {call' : SequenceCall φ} {lock' : Nat} (h : Locked s)
    (hc : s.calls c = some call) (huses : call.uses = some (folder, lock))
    (hcritical : call.critical = true) (hc' : s.calls c' = some call')
    (huses' : call'.uses = some (folder, lock')) (hcritical' : call'.critical = true) : c' = c := by
  have hlock := h.uses c call folder lock hc huses
  rw [h.uses c' call' folder lock' hc' huses'] at hlock
  cases hlock
  have hholder := h.holds c call folder lock hc huses hcritical
  rw [h.holds c' call' folder lock hc' huses' hcritical'] at hholder
  exact Option.some.inj hholder

/-- One call goes on, and no lock is made. -/
theorem advance (h : Locked s) (hcalls : s'.calls = update s.calls c (some next))
    (hlocks : s'.seqLocks = s.seqLocks) (hnext : s'.nextLock = s.nextLock)
    (hholder : ∀ lock c', c' ≠ c → s.holder lock = some c' → s'.holder lock = some c')
    (huses : ∀ folder lock, next.uses = some (folder, lock) → s.seqLocks folder = some lock ∧
      (next.critical = true → s'.holder lock = some c)) : Locked s' := by
  refine ⟨hlocks ▸ hnext ▸ h.made, hlocks ▸ h.distinct, ?_, ?_⟩
  · intro c' call folder lock hc' hu
    rw [hlocks]
    rcases calls_cases hcalls hc' with ⟨-, rfl⟩ | ⟨-, hbefore⟩
    · exact (huses folder lock hu).1
    · exact h.uses c' call folder lock hbefore hu
  · intro c' call folder lock hc' hu hcritical
    rcases calls_cases hcalls hc' with ⟨rfl, rfl⟩ | ⟨hne, hbefore⟩
    · exact (huses folder lock hu).2 hcritical
    · exact hholder lock c' hne (h.holds c' call folder lock hbefore hu hcritical)

/-- A call that holds a lock goes on with it. -/
theorem work (h : Locked s) (hc : s.calls c = some call) (hcritical : call.critical = true)
    (hcalls : s'.calls = update s.calls c (some next)) (huses : next.uses = call.uses)
    (hlocks : s'.seqLocks = s.seqLocks) (hnext : s'.nextLock = s.nextLock)
    (hholder : s'.holder = s.holder) : Locked s' := by
  refine h.advance hcalls hlocks hnext (fun _ _ _ => by rw [hholder]; exact id) ?_
  intro folder lock hu
  rw [huses] at hu
  rw [hholder]
  exact ⟨h.uses c call folder lock hc hu, fun _ => h.holds c call folder lock hc hu hcritical⟩

variable [DecidableEq φ]

theorem getSeqLock (h : Locked s) (folder : φ) : Locked (s.getSeqLock folder).2 ∧
    (s.getSeqLock folder).2.seqLocks folder = some (s.getSeqLock folder).1 := by
  unfold SequenceState.getSeqLock
  cases hlock : s.seqLocks folder with
  | some lock => exact ⟨h, hlock⟩
  | none =>
    have hcases : ∀ folder' lock, update s.seqLocks folder (some s.nextLock) folder' = some lock →
        (folder' = folder ∧ lock = s.nextLock) ∨ s.seqLocks folder' = some lock := by
      intro folder' lock hfolder
      by_cases hsame : folder' = folder
      · rw [hsame, update_self] at hfolder
        exact .inl ⟨hsame, (Option.some.inj hfolder).symm⟩
      · rw [update_of_ne hsame] at hfolder
        exact .inr hfolder
    refine ⟨⟨?_, ?_, ?_, h.holds⟩, update_self _ _ _⟩
    · intro folder' lock hfolder
      rcases hcases folder' lock hfolder with ⟨-, rfl⟩ | hbefore
      · exact Nat.lt_succ_self _
      · exact Nat.lt_succ_of_lt (h.made folder' lock hbefore)
    · intro folder₁ folder₂ lock h₁ h₂
      -- a new lock is no folder's yet
      rcases hcases folder₁ lock h₁ with ⟨rfl, rfl⟩ | hbefore₁
      · rcases hcases folder₂ _ h₂ with ⟨rfl, -⟩ | hbefore₂
        · rfl
        · exact absurd (h.made folder₂ _ hbefore₂) (Nat.lt_irrefl _)
      · rcases hcases folder₂ lock h₂ with ⟨rfl, rfl⟩ | hbefore₂
        · exact absurd (h.made folder₁ _ hbefore₁) (Nat.lt_irrefl _)
        · exact h.distinct folder₁ folder₂ lock hbefore₁ hbefore₂
    · intro c call folder' lock hc huses
      have hbefore := h.uses c call folder' lock hc huses
      have hne : folder' ≠ folder := by
        rintro rfl
        rw [hlock] at hbefore
        cases hbefore
      exact (update_of_ne hne _ _).trans hbefore

theorem step [DecidableEq κ] (hstep : SequenceStep fileOf s a s')
    (h : Locked s) : Locked s' := by
  cases hstep with
  | call | ret => exact h.advance rfl rfl rfl (fun _ _ _ => id) fun _ _ huses => by cases huses
  | @getSeqLock c op hc =>
    obtain ⟨hlocked, hlock⟩ := h.getSeqLock op.folder
    refine hlocked.advance rfl rfl rfl (fun _ _ _ => id) ?_
    rintro folder lock ⟨⟩
    exact ⟨hlock, fun hcritical => by cases hcritical⟩
  | @lock c op lock hc hfree =>
    refine h.advance rfl rfl rfl (fun lock' c' _ hheld => ?_) ?_
    · have hother : lock' ≠ lock := by
        rintro rfl
        rw [hfree] at hheld
        cases hheld
      exact (update_of_ne hother _ _).trans hheld
    · rintro folder lock' ⟨⟩
      exact ⟨h.uses c _ _ _ hc rfl, fun _ => update_self _ _ _⟩
  | pathMissing hc => exact h.work hc rfl rfl SequenceOp.uses_ifMissing rfl rfl rfl
  | read hc => exact h.work hc rfl rfl SequenceOp.uses_afterRead rfl rfl rfl
  | pathExists hc | truncate hc | write _ hc | finish hc => exact h.work hc rfl rfl rfl rfl rfl rfl
  | @unlock c op lock result hc =>
    refine h.advance rfl rfl rfl (fun lock' c' hne hheld => ?_) fun _ _ huses => by cases huses
    have hother : lock' ≠ lock := by
      rintro rfl
      rw [h.holds c _ _ _ hc rfl rfl] at hheld
      exact hne (Option.some.inj hheld).symm
    exact (update_of_ne hother _ _).trans hheld

end Locked

namespace Linked

section
variable (h : Linked fileOf es latest s)
include h

section
variable (hcalls : s'.calls = update s.calls c (some next))
include hcalls

/-- One call goes on: what has to be shown for the others. -/
theorem advance (hnew : ∀ e ∈ new, e.caller = c)
    (hothers : ∀ c' call folder lock, c' ≠ c → s.calls c' = some call →
      call.uses = some (folder, lock) → call.critical = true →
      latest' folder = latest folder ∧ s'.files (fileOf folder) = s.files (fileOf folder))
    (hstage : StageOk fileOf (es ++ new) latest' s'.files c next)
    (hstored : ∀ folder, (∀ c' call, c' ≠ c → s.calls c' = some call → call.writes ≠ some folder) →
      next.writes ≠ some folder → Stored fileOf latest' s'.files folder) :
    Linked fileOf (es ++ new) latest' s' := by
  have hself : s'.calls c = some next := by rw [hcalls, update_self]
  have hrest : ∀ c', c' ≠ c → s'.calls c' = s.calls c' := fun c' hne => by
    rw [hcalls, update_of_ne hne]
  refine ⟨?_, ?_, ?_⟩
  · intro c' call hc'
    rcases calls_cases hcalls hc' with ⟨rfl, rfl⟩ | ⟨hne, hbefore⟩
    · exact hstage
    · refine (h.stage c' call hbefore).frame (fun e he hcaller => ?_) fun folder lock =>
        hothers c' call folder lock hne hbefore
      exact hne (hcaller.symm.trans (hnew e he))
  · intro folder hnone
    refine hstored folder (fun c' call hne hc' => ?_) (hnone c next hself)
    exact hnone c' call ((hrest c' hne).trans hc')
  · intro c' hc' e he
    have hne : c' ≠ c := by
      rintro rfl
      rw [hself] at hc'
      cases hc'
    rcases mem_append.mp he with he | he
    · exact h.unmade c' (hrest c' hne ▸ hc') e he
    · exact fun hcaller => hne (hcaller.symm.trans (hnew e he))

/-- A step that changes neither a file nor a counter, of a call that is not writing. -/
theorem move (hnew : ∀ e ∈ new, e.caller = c)
    (hfiles : s'.files = s.files) (hwrites : ∀ call, s.calls c = some call → call.writes = none)
    (hstage : StageOk fileOf (es ++ new) latest s.files c next) :
    Linked fileOf (es ++ new) latest s' := by
  refine h.advance hcalls hnew (fun _ _ _ _ _ _ _ _ => ⟨rfl, by rw [hfiles]⟩) (by rwa [hfiles])
    fun folder hnone _ => ?_
  rw [hfiles]
  refine h.stored folder fun c' call hc' => ?_
  by_cases hne : c' = c
  · subst hne
    simp [hwrites call hc']
  · exact hnone c' call hne hc'

end

/-- A call that has not taken effect goes on without doing so. -/
theorem pending (hc : s.calls c = some call)
    (hwrites : call.writes = none) (hcalls : s'.calls = update s.calls c (some next))
    (hfiles : s'.files = s.files)
    (hstage : StageOk fileOf es latest s.files c call → StageOk fileOf es latest s.files c next) :
    Linked fileOf es latest s' := by
  have hnext := hstage (h.stage c call hc)
  rw [← append_nil es] at hnext ⊢
  refine h.move hcalls (by simp) hfiles (fun call' hcall => ?_) hnext
  rw [hc] at hcall
  cases hcall
  exact hwrites

/-- A step of a call that holds the lock of its folder before and after. -/
theorem work (hlocked : Locked s) (hc : s.calls c = some call)
    (hold : call.uses = some (folder, lock)) (hcritical : call.critical = true)
    (hcalls : s'.calls = update s.calls c (some next)) (hnew : ∀ e ∈ new, e.caller = c)
    (hlatest : ∀ folder', folder' ≠ folder → latest' folder' = latest folder')
    (hfiles : ∀ folder', folder' ≠ folder → s'.files (fileOf folder') = s.files (fileOf folder'))
    (hstage : StageOk fileOf (es ++ new) latest' s'.files c next)
    (hstored : next.writes ≠ some folder → Stored fileOf latest' s'.files folder) :
    Linked fileOf (es ++ new) latest' s' := by
  refine h.advance hcalls hnew ?_ hstage ?_
  · intro c' call' folder' lock' hne hc' huses' hcritical'
    have hfolder : folder' ≠ folder := by
      rintro rfl
      exact hne (hlocked.exclusive hc hold hcritical hc' huses' hcritical')
    exact ⟨hlatest folder' hfolder, hfiles folder' hfolder⟩
  · intro folder' hnone hwrites
    by_cases hfolder : folder' = folder
    · subst hfolder
      exact hstored hwrites
    · have hbefore : Stored fileOf latest s.files folder' := by
        refine h.stored folder' fun c' call' hc' hw => ?_
        by_cases hne : c' = c
        · subst hne
          rw [hc] at hc'
          cases hc'
          obtain ⟨lock', hlock'⟩ := SequenceCall.uses_of_writes hw
          rw [hold] at hlock'
          cases hlock'
          exact hfolder rfl
        · exact hnone c' call' hne hc' hw
      unfold Stored at hbefore ⊢
      rw [hlatest folder' hfolder, hfiles folder' hfolder]
      exact hbefore

/-- The file of a folder whose lock is held, but not for writing. -/
theorem stored_of_critical (hlocked : Locked s)
    (hc : s.calls c = some call) (huses : call.uses = some (folder, lock))
    (hcritical : call.critical = true) (hwrites : call.writes = none) :
    Stored fileOf latest s.files folder := by
  refine h.stored folder fun c' call' hc' hw => ?_
  obtain ⟨lock', huses'⟩ := SequenceCall.uses_of_writes hw
  have hcritical' : call'.critical = true := by
    cases call' <;> first | rfl | cases hw
  obtain rfl := hlocked.exclusive hc huses hcritical hc' huses' hcritical'
  rw [hc] at hc'
  cases hc'
  rw [hwrites] at hw
  cases hw

end

end Linked

/-- A call takes effect. -/
theorem Pending.takesEffect {start : φ → Nat} [DecidableEq φ]
    (h : Pending es c op) (hhistory : History allocate start es latest)
    (hresult : (allocate latest op).1 = .ok seq.toNat) :
    History allocate start (es ++ [.effect c op (.ok seq.toNat)]) (allocate latest op).2 ∧
      TookEffect (es ++ [.effect c op (.ok seq.toNat)]) c op (.ok seq) := by
  refine ⟨?_, ⟨seq, rfl, by simp⟩, fun r hin => ?_⟩
  · rw [← hresult]
    exact .effect hhistory h.call h.noEffect
  · have hin' : .ret c r ∈ es := by simpa using hin
    obtain ⟨before, op', after, u, hsplit, -⟩ := hhistory.ret_explained hin'
    exact h.noEffect op' r (by simp [hsplit])

theorem overwrite_take {written n : Nat} (h : written + n ≤ text.length) :
    overwrite (text.take written) written ((text.drop written).take n) = text.take (written + n) := by
  have hlength : (text.take written).length = written := by
    rw [length_take]
    omega
  have hrest : (text.take written).drop (written + ((text.drop written).take n).length) = [] :=
    drop_eq_nil_of_le (by omega)
  rw [overwrite, hrest, hlength, Nat.sub_self, take_take, Nat.min_self, take_add]
  simp

/-- An increment that reads the last number there is. -/
def Overflows (fileOf : φ → κ) (s : SequenceState φ κ) (a : SequenceAction φ) : Prop :=
  ∃ c folder lock text, a = .work c ∧ s.calls c = some (.reading (.incrementSequence folder) lock) ∧
    s.files (fileOf folder) = some text ∧ parseU64 text = .ok (ofNat (2 ^ 64 - 1))

theorem toNat_add_one (h : seq ≠ ofNat (2 ^ 64 - 1)) : (seq + 1).toNat = seq.toNat + 1 := by
  have hne : seq.toNat ≠ 2 ^ 64 - 1 := fun heq => h (UInt64.toNat_inj.mp (by simpa using heq))
  have hlt := seq.toNat_lt
  rw [UInt64.toNat_add]
  simp
  omega

theorem Linked.setFile [DecidableEq κ] (hinj : Function.Injective fileOf) {content : List Char}
    (h : Linked fileOf es latest s) (hlocked : Locked s) (hc : s.calls c = some call)
    (huses : call.uses = some (folder, lock)) (hcritical : call.critical = true)
    {written : Nat} (hpending : Pending es c (.incrementSequence folder))
    (hseq : seq.toNat = latest folder + 1) (hcontent : content = (sequenceText seq).take written) :
    Linked fileOf es latest ((s.setFile (fileOf folder) content).setCall c
      (.writing folder lock seq written)) := by
  rw [← append_nil es]
  refine h.work hlocked hc huses hcritical rfl (by simp) (fun _ _ => rfl) ?_ ?_ ?_
  · intro folder' hne
    exact update_of_ne (fun heq => hne (hinj heq)) _ _
  · refine ⟨hpending.append (by simp), hseq, ?_⟩
    rw [← hcontent]
    exact update_self _ _ _
  · exact fun hwrites => absurd rfl hwrites

section steps
variable [DecidableEq φ] {start : φ → Nat} {seen : List (SequenceEvent φ)} {seq : UInt64}

/-- The state goes with a history of which this is seen. -/
def Told (start : φ → Nat) (fileOf : φ → κ) (seen : List (SequenceEvent φ))
    (s : SequenceState φ κ) : Prop :=
  ∃ es latest, History allocate start es latest ∧ Linked fileOf es latest s ∧
    es.filter visible = seen

section
variable (h : Linked fileOf es latest s) (hhistory : History allocate start es latest)
include h hhistory

/-- A look at a counter takes effect. -/
theorem Linked.look (hpending : Pending es c (.getSequence folder))
    (hwrites : ∀ call, s.calls c = some call → call.writes = none)
    (hlatest : latest folder = seq.toNat) : Told start fileOf (es.filter visible)
      (s.setCall c (.leaving (.getSequence folder) lock (.ok seq))) := by
  have hresult : (allocate latest (.getSequence folder)).1 = .ok seq.toNat :=
    congrArg Except.ok hlatest
  obtain ⟨hhistory', htook⟩ := hpending.takesEffect hhistory hresult
  exact ⟨_, _, hhistory', h.move rfl (by simp [caller]) rfl hwrites htook, by simp [visible]⟩

variable (hlocked : Locked s)
include hlocked

theorem Linked.pathMissing (hc : s.calls c = some (.locked op lock))
    (hfile : s.files (fileOf op.folder) = none) :
    Told start fileOf (es.filter visible) (s.setCall c (op.ifMissing lock)) := by
  have hpending : Pending es c op := h.stage c _ hc
  have hzero : latest op.folder = 0 := by
    have hstored := h.stored_of_critical hlocked hc rfl rfl rfl
    unfold Stored at hstored
    rwa [hfile] at hstored
  cases op with
  | getSequence folder =>
    exact h.look hhistory hpending (fun call hcall => by rw [hc] at hcall; cases hcall; rfl) hzero
  | incrementSequence folder =>
    refine ⟨es, latest, hhistory, h.pending hc rfl rfl rfl fun _ => ⟨hpending, ?_⟩, rfl⟩
    have hlatest : latest folder = 0 := hzero
    rw [hlatest]
    rfl

theorem Linked.read (hroom : ¬ Overflows fileOf s (.work c))
    (hc : s.calls c = some (.reading op lock)) (hfile : s.files (fileOf op.folder) = some text) :
    Told start fileOf (es.filter visible) (s.setCall c (op.afterRead lock text)) := by
  have hpending : Pending es c op := h.stage c _ hc
  obtain ⟨seq, rfl, hlatest⟩ : ∃ seq, text = sequenceText seq ∧ latest op.folder = seq.toNat := by
    have hstored := h.stored_of_critical hlocked hc rfl rfl rfl
    unfold Stored at hstored
    rwa [hfile] at hstored
  cases op with
  | getSequence folder =>
    rw [SequenceOp.afterRead, parseU64_sequenceText]
    exact h.look hhistory hpending (fun call hcall => by rw [hc] at hcall; cases hcall; rfl) hlatest
  | incrementSequence folder =>
    have hne : seq ≠ ofNat (2 ^ 64 - 1) := by
      rintro rfl
      exact hroom ⟨c, folder, lock, _, rfl, hc, hfile, parseU64_sequenceText _⟩
    simp only [SequenceOp.afterRead, parseU64_sequenceText]
    refine ⟨es, latest, hhistory, h.pending hc rfl rfl rfl fun _ => ⟨hpending, ?_⟩, rfl⟩
    have hcounter : latest folder = seq.toNat := hlatest
    rw [toNat_add_one hne, hcounter]

theorem Linked.finish (hc : s.calls c = some (.writing folder lock seq (sequenceText seq).length)) :
    Told start fileOf (es.filter visible)
      (s.setCall c (.leaving (.incrementSequence folder) lock (.ok seq))) := by
  obtain ⟨hpending, hseq, hfile⟩ := h.stage c _ hc
  have hresult : (allocate latest (.incrementSequence folder)).1 = .ok seq.toNat :=
    congrArg Except.ok hseq.symm
  obtain ⟨hhistory', htook⟩ := hpending.takesEffect hhistory hresult
  refine ⟨_, _, hhistory', ?_, by simp [visible]⟩
  refine h.work hlocked hc rfl rfl rfl (by simp [caller]) ?_ (fun _ _ => rfl) htook fun _ => ?_
  · intro folder' hne
    exact update_of_ne hne _ _
  · rw [take_length] at hfile
    unfold Stored
    change match s.files (fileOf folder) with
      | none => _
      | some text => _
    rw [hfile]
    exact ⟨seq, rfl, (update_self _ _ _).trans hseq.symm⟩

end

theorem Told.work (h : Told start fileOf seen s) :
    Told start fileOf (seen ++ (SequenceAction.work c).observe.toList) s := by
  simpa [SequenceAction.observe] using h

/-- Every step comes to at most one event of the counters as they are meant. -/
theorem Linked.step [DecidableEq κ] (hinj : Function.Injective fileOf)
    (hroom : ¬ Overflows fileOf s a) (hstep : SequenceStep fileOf s a s')
    (hhistory : History allocate start es latest) (hlocked : Locked s)
    (h : Linked fileOf es latest s) :
    Told start fileOf (es.filter visible ++ a.observe.toList) s' := by
  have hsilent : Linked fileOf es latest s' → Told start fileOf (es.filter visible) s' :=
    fun h' => ⟨es, latest, hhistory, h', rfl⟩
  cases hstep with
  | @call c op hc =>
    have hnone := h.unmade c hc
    refine ⟨_, latest, .call op hhistory hnone, ?_, by simp [visible, SequenceAction.observe]⟩
    refine h.move rfl (by simp [caller]) rfl
      (fun call hcall => by rw [hc] at hcall; cases hcall) ⟨by simp, fun op' r hin => ?_⟩
    exact hnone _ (by simpa using hin) rfl
  | @getSeqLock c op hc =>
    have hrest : (s.getSeqLock op.folder).2.calls = s.calls ∧
        (s.getSeqLock op.folder).2.files = s.files := by
      unfold SequenceState.getSeqLock
      split <;> exact ⟨rfl, rfl⟩
    exact (hsilent (h.pending hc rfl (congrArg (update · c _) hrest.1) hrest.2 id)).work
  | lock hc | pathExists hc | unlock hc => exact (hsilent (h.pending hc rfl rfl rfl id)).work
  | pathMissing hc hfile => exact (h.pathMissing hhistory hlocked hc hfile).work
  | read hc hfile => exact (h.read hhistory hlocked hroom hc hfile).work
  | @truncate c folder lock seq hc =>
    obtain ⟨hpending, hseq⟩ := h.stage c _ hc
    exact (hsilent (h.setFile hinj hlocked hc rfl rfl hpending hseq rfl)).work
  | @write c folder lock seq written content n hc hfile hn =>
    obtain ⟨hpending, hseq, hcontent⟩ := h.stage c _ hc
    rw [hfile] at hcontent
    cases hcontent
    exact (hsilent (h.setFile hinj hlocked hc rfl rfl hpending hseq (overwrite_take hn))).work
  | finish hc hall =>
    rw [hall] at hc
    exact (h.finish hhistory hlocked hc).work
  | @ret c op result hc =>
    have htook : TookEffect es c op result := h.stage c _ hc
    obtain ⟨seq, rfl, heffect⟩ := htook.effect
    refine ⟨_, latest, .ret hhistory heffect htook.noRet, ?_, ?_⟩
    · exact h.move rfl (by simp [caller]) rfl
        (fun call hcall => by rw [hc] at hcall; cases hcall; rfl) trivial
    · simp [visible, SequenceAction.observe, Except.map]

end steps
end linked

variable (files : κ → Option UInt64)

/-- The counter of a folder when the calls begin. -/
def startOf (folder : φ) : Nat := ((files (fileOf folder)).map toNat).getD 0

theorem locked_initial : Locked (φ := φ) (.initial files) := by
  constructor <;> simp [SequenceState.initial]

theorem linked_initial {fileOf : φ → κ} (files : κ → Option UInt64) :
    Linked fileOf [] (startOf fileOf files) (.initial files) where
  stage := by simp [SequenceState.initial]
  stored := by
    intro folder _
    unfold Stored startOf SequenceState.initial
    cases hfile : files (fileOf folder) with
    | none => simp [hfile]
    | some seq =>
      simp only [hfile, Option.map_some, Option.getD_some]
      exact ⟨seq, rfl, rfl⟩
  unmade := by simp

/-- In every run in which different folders have different files and no increment reads the last
number there is, sequence numbers are allocated exclusively. -/
theorem sequence_allocation_exclusive [DecidableEq φ] [DecidableEq κ] {fileOf : φ → κ}
    (hinj : Function.Injective fileOf) {files : κ → Option UInt64}
    {run : List (SequenceState φ κ × SequenceAction φ)} {s : SequenceState φ κ}
    (hrun : Run (SequenceStep fileOf) (.initial files) run s)
    (hroom : ∀ x ∈ run, ¬ Overflows fileOf x.1 x.2) :
    Exclusive (startOf fileOf files) (run.filterMap fun x => x.2.observe) := by
  obtain ⟨events, latest, hhistory, -, hvisible⟩ := History.exists_of_run
    (fun es latest s => Locked s ∧ Linked fileOf es latest s) hrun
    ⟨locked_initial files, linked_initial files⟩ (fun hok hstep hhistory h => by
      obtain ⟨es, latest, hhistory', hlinked, hvisible⟩ := h.2.step hinj hok hstep hhistory h.1
      exact ⟨es, latest, hhistory', ⟨h.1.step hstep, hlinked⟩, hvisible⟩) hroom
  rw [← hvisible]
  exact exclusive_of_history hhistory

/-- The sequence file of a folder, on a file system that tells names by case. -/
def sequencePath {γ : Type} (cfg : DbConfig γ) (folder : String) : Path :=
  joinPath cfg.basePath ("seq_" ++ folder)

theorem sequencePath_of_plain {γ : Type} (cfg : DbConfig γ) {folder : String}
    (h : PlainFolder folder) : sequencePath cfg folder = cfg.basePath ++ ["seq_" ++ folder] := by
  have hchars : ("seq_" ++ folder).toList = 's' :: 'e' :: 'q' :: '_' :: folder.toList := by simp
  have hne : ∀ other : String, other.toList.head? ≠ some 's' → "seq_" ++ folder ≠ other := by
    rintro other hhead rfl
    exact hhead (by rw [hchars]; rfl)
  have hslash : Text.hasChar '/' ("seq_" ++ folder) = false := by
    have hfolder := h.2.2.2
    simp only [Text.hasChar, hchars, contains_cons] at hfolder ⊢
    simpa using hfolder
  exact FileSystemDatabase.folderPath_of_plain
    ⟨hne "" (by decide), hne "." (by decide), hne ".." (by decide), hslash⟩

/-- The folder ids that `validate_folder_id` admits are plain, and have files of their own. -/
theorem sequencePath_injective {γ : Type} (cfg : DbConfig γ) :
    Function.Injective fun folder : { folder // PlainFolder folder } =>
      sequencePath cfg folder.val := by
  rintro ⟨a, ha⟩ ⟨b, hb⟩ h
  simp only [sequencePath_of_plain cfg ha, sequencePath_of_plain cfg hb, append_right_inj,
    singleton_inj] at h
  exact Subtype.ext (by simpa using h)

/-- The folder `a` of a database. -/
def folderA : { folder // PlainFolder folder } := ⟨"a", by decide⟩

/-- On a new database a call waits for the lock of another one and is given the number behind
its number. -/
theorem sequence_allocation_exclusive_two :
    let fileOf := fun folder : { folder // PlainFolder folder } =>
      sequencePath plainDbConfig folder.val
    ∃ run s, Run (SequenceStep fileOf) (.initial fun _ => none) run s ∧
      (run.filterMap fun x => x.2.observe) =
        [.call 0 (.incrementSequence folderA), .call 1 (.incrementSequence folderA),
          .ret 1 (.ok 2), .ret 0 (.ok 1)] ∧
      Exclusive (fun _ => 0) (run.filterMap fun x => x.2.observe) := by
  intro fileOf
  have hfirst : Run (SequenceStep fileOf) (.initial fun _ => none) _ _ :=
    (((((((((Run.nil.snoc (.call (c := 0) (.incrementSequence folderA) rfl)).snoc
      (.getSeqLock (c := 0) rfl)).snoc (.lock (c := 0) rfl rfl)).snoc
      (.pathMissing (c := 0) rfl rfl)).snoc (.truncate (c := 0) rfl)).snoc
      (.call (c := 1) (.incrementSequence folderA) rfl)).snoc (.getSeqLock (c := 1) rfl)).snoc
      (.write (c := 0) 1 rfl rfl (by decide))).snoc (.finish (c := 0) rfl rfl)).snoc
      (.unlock (c := 0) rfl)
  have hrun := ((((((((hfirst.snoc (.lock (c := 1) rfl rfl)).snoc
    (.pathExists (c := 1) rfl rfl)).snoc (.read (c := 1) rfl rfl)).snoc
    (.truncate (c := 1) rfl)).snoc (.write (c := 1) 1 rfl rfl (by decide))).snoc
    (.finish (c := 1) rfl rfl)).snoc (.unlock (c := 1) rfl)).snoc (.ret (c := 1) rfl)).snoc
    (.ret (c := 0) rfl)
  refine ⟨_, _, hrun, rfl, sequence_allocation_exclusive (sequencePath_injective _) hrun ?_⟩
  rintro x hx ⟨c, folder, lock, text, ha, hc, hfile, hlast⟩
  simp only [mem_append, mem_singleton, not_mem_nil, false_or] at hx
  repeat' rcases hx with hx | rfl
  -- one step reads the file, and finds the number 1
  all_goals
    cases ha
    try cases hc
  cases hfile
  exact absurd hlast (by decide)

/-- The file of a folder where names that differ only by case lead to one file. -/
def foldedPath (folder : String) : List Char := ("seq_" ++ folder).toList.map Char.toLower

/-- An increment at the last number there is returns 0. Where `a` and `A` have one file, a look at
the counter of `A` finds that file emptied by an increment of `a`, whose lock is another one. -/
theorem sequence_allocation_not_exclusive : (∃ run s, Run (SequenceStep (φ := Unit) (κ := Unit) id)
        (.initial fun _ => some (ofNat (2 ^ 64 - 1))) run s ∧
      ¬ Exclusive (fun _ => 2 ^ 64 - 1) (run.filterMap fun x => x.2.observe)) ∧
    ∃ run s, Run (SequenceStep foldedPath) (.initial fun _ => none) run s ∧
      ¬ Exclusive (fun _ => 0) (run.filterMap fun x => x.2.observe) := by
  constructor
  · have hrun : Run (SequenceStep (φ := Unit) (κ := Unit) id)
        (.initial fun _ => some (ofNat (2 ^ 64 - 1))) _ _ :=
      (((((((((Run.nil.snoc (.call (c := 0) (.incrementSequence ()) rfl)).snoc
        (.getSeqLock (c := 0) rfl)).snoc (.lock (c := 0) rfl rfl)).snoc
        (.pathExists (c := 0) rfl rfl)).snoc (.read (c := 0) rfl rfl)).snoc
        (.truncate (c := 0) rfl)).snoc
        (.write (c := 0) 1 rfl rfl (by decide))).snoc (.finish (c := 0) rfl rfl)).snoc
        (.unlock (c := 0) rfl)).snoc (.ret (c := 0) rfl)
    refine ⟨_, _, hrun, fun h => ?_⟩
    have hseen : Exclusive (fun _ => 2 ^ 64 - 1) [.call 0 (.incrementSequence ()), .ret 0 (.ok 0)] := h
    obtain ⟨events, -, hnumbers, hincrement, -⟩ := hseen.linear
    obtain ⟨before, after, hsplit, -⟩ := hincrement 0 () 0 (by simp) (by simp)
    have hzero : 0 ∈ allocated () events := by simp [allocated, hsplit]
    rw [hnumbers (), mem_range'_1] at hzero
    exact absurd hzero.1 (by decide)
  · have hrun : Run (SequenceStep foldedPath) (.initial fun _ => none) _ _ :=
      (((((((((((Run.nil.snoc (.call (c := 0) (.incrementSequence "a") rfl)).snoc
        (.getSeqLock (c := 0) rfl)).snoc (.lock (c := 0) rfl rfl)).snoc
        (.pathMissing (c := 0) rfl rfl)).snoc (.truncate (c := 0) rfl)).snoc
        (.call (c := 1) (.getSequence "A") rfl)).snoc
        (.getSeqLock (c := 1) rfl)).snoc (.lock (c := 1) rfl rfl)).snoc
        (.pathExists (c := 1) rfl rfl)).snoc (.read (c := 1) rfl rfl)).snoc
        (.unlock (c := 1) rfl)).snoc (.ret (c := 1) rfl)
    refine ⟨_, _, hrun, fun h => ?_⟩
    have hseen : Exclusive (fun _ => 0) [.call 0 (.incrementSequence "a"), .call 1 (.getSequence "A"),
      .ret 1 (.error (.database ("Invalid sequence: " ++ "cannot parse integer from empty string")))] :=
      h
    exact hseen.noError 1 _ (mem_cons_of_mem _ (mem_cons_of_mem _ mem_cons_self))

end Syncthing
