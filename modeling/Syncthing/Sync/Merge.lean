import Syncthing.Lib.Interval

/-! `syncthing-sync/src/merge.rs`. The line diff of the `similar` crate is a parameter: a function
from two texts to a list of diff operations. A slice out of range, where the code panics, is `none`.
-/
namespace Syncthing

/-- Splits after every newline, keeping it (`str::split_inclusive`). -/
def splitInclusive : List Char → List (List Char)
  | [] => []
  | c :: cs =>
    if c = '\n' then [c] :: splitInclusive cs
    else match splitInclusive cs with
      | [] => [[c]]
      | l :: ls => (c :: l) :: ls

def splitLines (s : String) : List String := (splitInclusive s.toList).map String.ofList

/-- `v[start..end]`. -/
def slice {α : Type*} (v : List α) (start stop : Nat) : Option (List α) :=
  if start ≤ stop ∧ stop ≤ v.length then some ((v.drop start).take (stop - start)) else none

/-- An operation of a line diff, with its positions in both texts. -/
inductive DiffOp where
  | equal (oldIndex newIndex len : Nat)
  | delete (oldIndex oldLen newIndex : Nat)
  | insert (oldIndex newIndex newLen : Nat)
  | replace (oldIndex oldLen newIndex newLen : Nat)
  deriving DecidableEq

namespace DiffOp

def oldRange : DiffOp → Nat × Nat
  | equal i _ n | delete i n _ | replace i n _ _ => (i, i + n)
  | insert i _ _ => (i, i)

def newRange : DiffOp → Nat × Nat
  | equal _ j n | insert _ j n | replace _ _ j n => (j, j + n)
  | delete _ _ j => (j, j)

def isEqual : DiffOp → Bool
  | equal .. => true
  | _ => false

theorem oldRange_le (op : DiffOp) : op.oldRange.1 ≤ op.oldRange.2 := by
  cases op <;> simp [oldRange]

theorem newRange_le (op : DiffOp) : op.newRange.1 ≤ op.newRange.2 := by
  cases op <;> simp [newRange]

end DiffOp

/-- The operations continue the diff from line `i` of `old` and line `j` of `new`:
each starts where the one before stopped, the last ends at the ends of both texts,
and operations tagged equal relate equal lines. -/
def EditScriptFrom (old new : List String) : Nat → Nat → List DiffOp → Prop
  | i, j, [] => i = old.length ∧ j = new.length
  | i, j, op :: ops =>
    op.oldRange.1 = i ∧ op.newRange.1 = j ∧
      (op.isEqual → slice old i op.oldRange.2 = slice new j op.newRange.2) ∧
      EditScriptFrom old new op.oldRange.2 op.newRange.2 ops

/-- An ordered edit script that tiles both texts. -/
def EditScript (old new : List String) (ops : List DiffOp) : Prop :=
  EditScriptFrom old new 0 0 ops

instance decidableEditScriptFrom (old new : List String) :
    (i j : Nat) → (ops : List DiffOp) → Decidable (EditScriptFrom old new i j ops)
  | i, j, [] => inferInstanceAs (Decidable (i = old.length ∧ j = new.length))
  | i, j, op :: ops =>
    have := decidableEditScriptFrom old new op.oldRange.2 op.newRange.2 ops
    inferInstanceAs (Decidable (op.oldRange.1 = i ∧ op.newRange.1 = j ∧
      (op.isEqual → slice old i op.oldRange.2 = slice new j op.newRange.2) ∧
      EditScriptFrom old new op.oldRange.2 op.newRange.2 ops))

instance (old new : List String) (ops : List DiffOp) : Decidable (EditScript old new ops) :=
  inferInstanceAs (Decidable (EditScriptFrom old new 0 0 ops))

/-- An edited region of the base content on one side of the merge. -/
structure Edit where
  start : Nat
  stop : Nat
  lines : List String
  deriving DecidableEq

/-- Insert edits consume no base lines. -/
def Edit.IsInsert (e : Edit) : Prop := e.start = e.stop

instance (e : Edit) : Decidable e.IsInsert := inferInstanceAs (Decidable (e.start = e.stop))

/-- Builds the edit list for one side from a base-vs-side diff. -/
def Edit.fromDiff (ops : List DiffOp) (side : String) : Option (List Edit) :=
  (ops.filter fun op => !(op.oldRange = op.newRange && op.isEqual)).mapM fun op => do
    let lines ← slice (splitLines side) op.newRange.1 op.newRange.2
    return { start := op.oldRange.1, stop := op.oldRange.2, lines }

/-- Overlap of the half-open base ranges of two edits. -/
def Edit.Overlaps (e f : Edit) : Prop := e.start < f.stop ∧ f.start < e.stop

instance (e f : Edit) : Decidable (e.Overlaps f) :=
  inferInstanceAs (Decidable (e.start < f.stop ∧ f.start < e.stop))

variable (localEdits remoteEdits : List Edit)

def overlappingPairs : List (Nat × Nat) :=
  localEdits.flatMap fun le =>
    (remoteEdits.filter fun re => le.Overlaps re).map fun re =>
      (min le.start re.start, max le.stop re.stop)

/-- Overlapping edit regions, merged into maximal contiguous conflict regions. -/
def findConflictRegions : List (Nat × Nat) :=
  Interval.coalesce <|
    (overlappingPairs localEdits remoteEdits).insertionSort fun a b => a.1 ≤ b.1

/-- The output for one side of a conflict region: the first edit of the side that starts
in the region, or else the base content. -/
def buildSide (baseLines : List String) (edits : List Edit) (start stop : Nat) :
    Option String :=
  match edits.find? fun e => start ≤ e.start ∧ e.start < stop with
  | some edit => do
    let before ← slice baseLines start edit.start
    let after ← slice baseLines edit.stop stop
    return String.join (before ++ edit.lines ++ after)
  | none => (slice baseLines start stop).map String.join

structure MergeResult where
  content : String
  hasConflicts : Bool
  conflictCount : Nat
  deriving DecidableEq

/-- What the main loop reads and never writes. -/
structure MergeInput where
  baseLines : List String
  localEdits : List Edit
  remoteEdits : List Edit
  deriving DecidableEq

/-- The state of the main loop. The cursors `li`, `ri` and `ci` are the parts of the
lists from the cursor on. -/
structure MergeState where
  merged : String
  hasConflicts : Bool
  conflictCount : Nat
  pos : Nat
  locals : List Edit
  remotes : List Edit
  regions : List (Nat × Nat)
  deriving DecidableEq

namespace MergeInput

variable (m : MergeInput)

def conflicts : List (Nat × Nat) := findConflictRegions m.localEdits m.remoteEdits

def init : MergeState where
  merged := ""
  hasConflicts := false
  conflictCount := 0
  pos := 0
  locals := m.localEdits
  remotes := m.remoteEdits
  regions := m.conflicts

variable (st : MergeState)

/-- The loop condition. -/
def running : Bool := st.pos < m.baseLines.length || !st.locals.isEmpty || !st.remotes.isEmpty

/-- Writes the conflict block of a region and skips the edits it covers. -/
def emitConflict (r : Nat × Nat) : Option MergeState := do
  let localSide ← buildSide m.baseLines m.localEdits r.1 r.2
  let remoteSide ← buildSide m.baseLines m.remoteEdits r.1 r.2
  return { merged := st.merged ++ "<<<<<<< local\n" ++ localSide ++ "=======\n" ++
             remoteSide ++ ">>>>>>> remote\n"
           hasConflicts := true
           conflictCount := st.conflictCount + 1
           pos := r.2
           locals := st.locals.dropWhile fun e => e.stop ≤ r.2
           remotes := st.remotes.dropWhile fun e => e.stop ≤ r.2
           regions := st.regions.tail }

/-- The lines of an edit at the current position, which moves to the end of the edit
unless the edit is an insertion. -/
def pushEdit (e : Edit) : MergeState :=
  { st with
    merged := st.merged ++ String.join e.lines
    pos := if e.start ≠ e.stop then e.stop else st.pos }

/-- The starts of the region and the edits under the cursors. -/
def nextStarts : List Nat :=
  [st.regions.head?.map Prod.fst, st.locals.head?.map Edit.start,
    st.remotes.head?.map Edit.start].filterMap id

def nextEvent : Nat := max ((nextStarts st).min?.getD m.baseLines.length) st.pos

/-- One iteration of the main loop. -/
def mergeStep : Option MergeState :=
  match st.regions.head?.filter fun r => r.1 = st.pos with
  | some r => m.emitConflict st r
  | none =>
    match st.locals.head?.filter fun e => e.start = st.pos with
    | some e => some { pushEdit st e with locals := st.locals.tail }
    | none =>
      match st.remotes.head?.filter fun e => e.start = st.pos with
      | some e => some { pushEdit st e with remotes := st.remotes.tail }
      | none => do
        let lines ← slice m.baseLines st.pos (m.nextEvent st)
        return { st with merged := st.merged ++ String.join lines, pos := m.nextEvent st }

/-- The main loop, cut off after `fuel` iterations. -/
def mergeLoop (m : MergeInput) : Nat → MergeState → Option MergeState
  | 0, st => if m.running st then none else some st
  | fuel + 1, st => if m.running st then (m.mergeStep st).bind (m.mergeLoop fuel) else some st

end MergeInput

variable (textDiff : String → String → List DiffOp)

/-- The base lines and both edit lists, once both sides are known to have changed. -/
def mergeInput (base localText remoteText : String) : Option MergeInput := do
  let localEdits ← Edit.fromDiff (textDiff base localText) localText
  let remoteEdits ← Edit.fromDiff (textDiff base remoteText) remoteText
  return { baseLines := splitLines base, localEdits, remoteEdits }

/-- A three-way merge whose main loop is cut off after `fuel` iterations. -/
def threeWayMerge (fuel : Nat) (base localText remoteText : String) : Option MergeResult :=
  if localText = remoteText then some ⟨localText, false, 0⟩
  else if localText = base then some ⟨remoteText, false, 0⟩
  else if remoteText = base then some ⟨localText, false, 0⟩
  else do
    let m ← mergeInput textDiff base localText remoteText
    let st ← m.mergeLoop fuel m.init
    return ⟨st.merged, st.hasConflicts, st.conflictCount⟩

end Syncthing
