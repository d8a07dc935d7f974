import Syncthing.Lib.Splice
import Syncthing.Sync.MergeLoop

/-! The edits of both sides, merged in base order, and the conflict blocks between them. The main
loop writes an edit unless it is in a conflict region, an insertion right behind one, or a remote
insertion at the first line of a local edit. -/
namespace Syncthing

open MergeInput MergeState
open List hiding append_assoc isEmpty_iff
open Splice
open String (append_assoc join)

variable {m : MergeInput} {st st' : MergeState} {es fs : List Edit} {e f : Edit}
  {r : Nat × Nat} {rs : List (Nat × Nat)} {n pos b : Nat} {d : Draft}

inductive Side where
  | localSide
  | remoteSide
  deriving DecidableEq

abbrev SideEdit := Splice Side String

def Edit.on (e : Edit) (side : Side) : SideEdit := ⟨side, e.start, e.stop, e.lines⟩

/-- The edits of both sides in base order, local ones first. -/
def interleave (locals remotes : List Edit) : List SideEdit :=
  (locals.map (·.on .localSide)).merge (remotes.map (·.on .remoteSide)) before

namespace MergeInput

variable (m)

def edits : Side → List Edit
  | .localSide => m.localEdits
  | .remoteSide => m.remoteEdits

def inRegion (e : SideEdit) : Bool := m.conflicts.any fun r => r.1 ≤ e.start && e.start < r.2

def atRegionEnd (e : SideEdit) : Bool := e.start = e.stop && m.conflicts.any (·.2 = e.start)

/-- A remote insertion at the first line of a local edit that is in no region. -/
def passedOver (e : SideEdit) : Bool :=
  e.source = .remoteSide && e.start = e.stop && m.localEdits.any fun f =>
    f.start ≠ f.stop && f.start = e.start && !m.inRegion (f.on .localSide)

def written (e : SideEdit) : Bool := !m.inRegion e && !m.atRegionEnd e && !m.passedOver e

/-- What is left to write of the edits ahead of the cursors. -/
def left (st : MergeState) : List SideEdit := (interleave st.locals st.remotes).filter m.written

def sideText (side : Side) (r : Nat × Nat) : String :=
  (buildSide m.baseLines (m.edits side) r.1 r.2).getD ""

end MergeInput

/-- A conflict block and the text between it and the block before. -/
structure Block where
  before : String
  localSide : String
  remoteSide : String
  deriving DecidableEq

/-- An output, as the conflict blocks and the text behind the last one. -/
structure Draft where
  blocks : List Block
  tail : String
  deriving DecidableEq

def Block.render (b : Block) : String :=
  b.before ++ "<<<<<<< local\n" ++ b.localSide ++ "=======\n" ++ b.remoteSide ++ ">>>>>>> remote\n"

namespace Draft

def empty : Draft := ⟨[], ""⟩

def render (d : Draft) : String := join (d.blocks.map Block.render) ++ d.tail

def push (d : Draft) (lines : List String) : Draft := { d with tail := d.tail ++ join lines }

def pushBlock (d : Draft) (localSide remoteSide : String) : Draft :=
  ⟨d.blocks ++ [⟨d.tail, localSide, remoteSide⟩], ""⟩

/-- One output after the other. -/
def append (d d' : Draft) : Draft :=
  match d'.blocks with
  | [] => ⟨d.blocks, d.tail ++ d'.tail⟩
  | b :: bs => ⟨d.blocks ++ { b with before := d.tail ++ b.before } :: bs, d'.tail⟩

theorem render_push (d : Draft) (lines : List String) :
    (d.push lines).render = d.render ++ join lines := by
  simp [render, push, append_assoc]

theorem render_pushBlock (d : Draft) (l r : String) : (d.pushBlock l r).render =
      d.render ++ "<<<<<<< local\n" ++ l ++ "=======\n" ++ r ++ ">>>>>>> remote\n" := by
  simp [render, pushBlock, Block.render, append_assoc]

theorem empty_append (d : Draft) : empty.append d = d := by
  cases d with
  | mk blocks tail => cases blocks <;> simp [append, empty]

theorem push_append (d d' : Draft) (lines : List String) :
    (d.push lines).append d' = d.append ((empty.push lines).append d') := by
  cases d' with
  | mk blocks tail => cases blocks <;> simp [append, empty, push, append_assoc]

theorem pushBlock_append (d d' : Draft) (l r : String) :
    (d.pushBlock l r).append d' = d.append ⟨⟨"", l, r⟩ :: d'.blocks, d'.tail⟩ := by
  cases d' with
  | mk blocks tail => cases blocks <;> simp [append, pushBlock]

end Draft
open Draft (append empty push pushBlock push_append)

namespace MergeInput

/-- What one iteration adds to the output. -/
def draftStep (m : MergeInput) (st : MergeState) (d : Draft) : Draft :=
  match st.regions.head?.filter fun r => r.1 = st.pos with
  | some r => d.pushBlock (m.sideText .localSide r) (m.sideText .remoteSide r)
  | none =>
    match st.locals.head?.filter fun e => e.start = st.pos with
    | some e => d.push e.lines
    | none =>
      match st.remotes.head?.filter fun e => e.start = st.pos with
      | some e => d.push e.lines
      | none => d.push ((slice m.baseLines st.pos (m.nextEvent st)).getD [])

/-- The main loop, with its output as blocks. -/
def draftLoop (m : MergeInput) : Nat → MergeState → Draft → Option Draft
  | 0, st, d => if m.running st then none else some d
  | fuel + 1, st, d =>
    if m.running st then (m.mergeStep st).bind fun st' => m.draftLoop fuel st' (m.draftStep st d)
    else some d

/-- The output from `pos` on, with the regions and the edits that are left. -/
def draftFrom (m : MergeInput) : List (Nat × Nat) → Nat → List SideEdit → Draft
  | [], pos, es => ⟨[], join (applyFrom m.baseLines m.baseLines.length pos es)⟩
  | r :: rs, pos, es =>
    let rest := m.draftFrom rs r.2 (es.filter (r.1 ≤ ·.start))
    ⟨⟨join (applyFrom m.baseLines r.1 pos (es.filter (·.start < r.1))),
      m.sideText .localSide r, m.sideText .remoteSide r⟩ :: rest.blocks, rest.tail⟩

def draft (m : MergeInput) : Draft := m.draftFrom m.conflicts 0 (m.left m.init)

/-- The output so far is the text of the draft. -/
structure Rendered (st : MergeState) (d : Draft) : Prop where
  merged : st.merged = d.render
  count : st.conflictCount = d.blocks.length
  conflicts : st.hasConflicts = !d.blocks.isEmpty

/-- Everything one iteration can do, with what it adds to the output. -/
theorem draftStep_cases (d : Draft) (h : m.mergeStep st = some st') :
    (∃ r rs, st.regions = r :: rs ∧ r.1 = st.pos ∧ m.emitConflict st r = some st' ∧
      m.draftStep st d = d.pushBlock (m.sideText .localSide r) (m.sideText .remoteSide r)) ∨
    (∀ r ∈ st.regions.head?, r.1 ≠ st.pos) ∧ ((∃ e es, st.locals = e :: es ∧ e.start = st.pos ∧
          st' = { pushEdit st e with locals := es } ∧ m.draftStep st d = d.push e.lines) ∨
        (∀ e ∈ st.locals.head?, e.start ≠ st.pos) ∧
          ((∃ e es, st.remotes = e :: es ∧ e.start = st.pos ∧
              st' = { pushEdit st e with remotes := es } ∧ m.draftStep st d = d.push e.lines) ∨
            (∀ e ∈ st.remotes.head?, e.start ≠ st.pos) ∧
              ∃ lines, slice m.baseLines st.pos (m.nextEvent st) = some lines ∧ st' = { st with
                  merged := st.merged ++ join lines, pos := m.nextEvent st } ∧
                m.draftStep st d = d.push lines)) := by
  -- what stands under a cursor is looked at as in the loop itself
  have hsome : ∀ {α : Type} {l as : List α} {a : α} (f : α → Nat), l = a :: as → f a = st.pos →
      l.head?.filter (fun a => f a = st.pos) = some a := by
    rintro α l as a f rfl hpos
    simp [Option.filter, hpos]
  have hnone : ∀ {α : Type} {l : List α} (f : α → Nat), (∀ a ∈ l.head?, f a ≠ st.pos) →
      l.head?.filter (fun a => f a = st.pos) = none := by
    intro α l f hne
    simpa [Option.filter_eq_none_iff] using hne
  rcases mergeStep_cases h with ⟨r, rs, hrs, hpos, hemit⟩ | ⟨hr, hstep⟩
  · exact .inl ⟨r, rs, hrs, hpos, hemit, by simp only [draftStep, hsome _ hrs hpos]⟩
  refine .inr ⟨hr, ?_⟩
  rcases hstep with ⟨e, es, hes, hpos, rfl⟩ | ⟨hl, hstep⟩
  · exact .inl ⟨e, es, hes, hpos, rfl, by simp only [draftStep, hnone _ hr, hsome _ hes hpos]⟩
  refine .inr ⟨hl, ?_⟩
  rcases hstep with ⟨e, es, hes, hpos, rfl⟩ | ⟨hre, -⟩
  · refine .inl ⟨e, es, hes, hpos, rfl, ?_⟩
    simp only [draftStep, hnone _ hr, hnone _ hl, hsome _ hes hpos]
  simp only [mergeStep, hnone _ hr, hnone _ hl, hnone _ hre] at h
  obtain ⟨lines, hlines, h⟩ := Option.bind_eq_some_iff.mp h
  refine .inr ⟨hre, lines, hlines, (Option.some.inj h).symm, ?_⟩
  simp only [draftStep, hnone _ hr, hnone _ hl, hnone _ hre, hlines, Option.getD_some]

theorem emitConflict_sides (h : m.emitConflict st r = some st') :
    st'.merged = st.merged ++ "<<<<<<< local\n" ++ m.sideText .localSide r ++ "=======\n" ++
        m.sideText .remoteSide r ++ ">>>>>>> remote\n" ∧
      st'.conflictCount = st.conflictCount + 1 ∧ st'.hasConflicts = true := by
  obtain ⟨l, hl, h⟩ := Option.bind_eq_some_iff.mp h
  obtain ⟨s, hs, h⟩ := Option.bind_eq_some_iff.mp h
  obtain rfl := Option.some.inj h
  simp [sideText, edits, hl, hs]

theorem Rendered.push {d : Draft} {lines : List String} (hd : Rendered st d)
    (hmerged : st'.merged = st.merged ++ join lines)
    (hcount : st'.conflictCount = st.conflictCount) (hflag : st'.hasConflicts = st.hasConflicts) :
    Rendered st' (d.push lines) where
  merged := by rw [hmerged, Draft.render_push, hd.merged]
  count := hcount.trans hd.count
  conflicts := hflag.trans hd.conflicts

theorem Rendered.step (hd : Rendered st d) (h : m.mergeStep st = some st') :
    Rendered st' (m.draftStep st d) := by
  rcases draftStep_cases d h with ⟨r, rs, -, -, h, hstep⟩ | ⟨-, h⟩
  · obtain ⟨h1, h2, h3⟩ := emitConflict_sides h
    rw [hstep]
    refine ⟨?_, ?_, ?_⟩
    · rw [h1, hd.merged, Draft.render_pushBlock]
    · rw [h2, hd.count]
      simp [pushBlock]
    · rw [h3]
      simp [pushBlock]
  · rcases h with ⟨e, es, -, -, rfl, hstep⟩ | ⟨-, ⟨e, es, -, -, rfl, hstep⟩ |
      ⟨-, lines, -, rfl, hstep⟩⟩
    · exact hstep ▸ hd.push rfl rfl rfl
    · exact hstep ▸ hd.push rfl rfl rfl
    · exact hstep ▸ hd.push rfl rfl rfl

/-! ### The edits that are left -/

theorem fits_map_on (side : Side) (ho : OrderedEdits n es) :
    Splice.Fits 0 n (es.map (·.on side)) where
  pos_le _ _ := Nat.zero_le _
  start_le := by simpa [Edit.on] using ho.start_le
  stop_le := by simpa [Edit.on] using ho.stop_le
  ordered := List.pairwise_map.mpr ho.ordered

theorem filter_interleave (p : SideEdit → Bool) (hes : OrderedEdits n es)
    (hfs : OrderedEdits n fs) :
    (interleave es fs).filter p = ((es.map (·.on .localSide)).filter p).merge
      ((fs.map (·.on .remoteSide)).filter p) before :=
  filter_merge before_trans (fits_map_on _ hes).sorted (fits_map_on _ hfs).sorted

theorem inRegion_iff {e : SideEdit} :
    m.inRegion e = true ↔ ∃ r ∈ m.conflicts, r.1 ≤ e.start ∧ e.start < r.2 := by
  simp [inRegion]

theorem atRegionEnd_iff {e : SideEdit} :
    m.atRegionEnd e = true ↔ e.start = e.stop ∧ ∃ r ∈ m.conflicts, r.2 = e.start := by
  simp [atRegionEnd]

theorem passedOver_iff {e : SideEdit} : m.passedOver e = true ↔
    e.source = .remoteSide ∧ e.start = e.stop ∧ ∃ f ∈ m.localEdits, f.start ≠ f.stop ∧
      f.start = e.start ∧ m.inRegion (f.on .localSide) = false := by
  simp [passedOver, and_assoc]

theorem written_iff {e : SideEdit} : m.written e = true ↔
    m.inRegion e = false ∧ m.atRegionEnd e = false ∧ m.passedOver e = false := by
  simp [written, and_assoc]

/-- Where the main loop stands, when remote insertions may have been passed over. -/
structure TextInv (m : MergeInput) (st : MergeState) : Prop extends Cursors m st where
  remotes_ahead : ∀ e ∈ st.remotes, m.passedOver (e.on .remoteSide) = false → st.pos ≤ e.start
  locals_behind : ∀ e ∈ m.localEdits, e ∈ st.locals ∨ e.stop ≤ st.pos
  inserts_ahead : ∀ e ∈ st.locals ++ st.remotes, e.IsInsert → ∀ r ∈ m.conflicts, r.2 = e.start →
    r ∈ st.regions

theorem textInv_init : TextInv m m.init where
  pos_le := Nat.zero_le _
  locals := suffix_rfl
  remotes := suffix_rfl
  regions := suffix_rfl
  locals_ahead _ _ := Nat.zero_le _
  regions_ahead _ _ := Nat.zero_le _
  regions_behind _ hr := .inl hr
  remotes_ahead _ _ _ := Nat.zero_le _
  locals_behind _ he := .inl he
  inserts_ahead _ _ _ _ hr _ := hr

section
variable (hm : m.Valid)
include hm

/-- Nothing that starts at the position is in a region, unless one starts there. -/
theorem Cursors.not_inRegion (hi : Cursors m st)
    (hno : ∀ r ∈ st.regions.head?, r.1 ≠ st.pos) {e : SideEdit} (hpos : e.start = st.pos) :
    m.inRegion e = false := by
  rw [Bool.eq_false_iff, ne_eq, inRegion_iff]
  rintro ⟨r, hr, h1, h2⟩
  rcases hi.regions_behind r hr with hmem | hle
  · have := hi.lt_region hm.regions hno hmem
    omega
  · omega

theorem TextInv.not_atRegionEnd (hi : TextInv m st)
    (hmem : e ∈ st.locals ++ st.remotes) (hpos : e.start = st.pos) (side : Side) :
    m.atRegionEnd (e.on side) = false := by
  rw [Bool.eq_false_iff, ne_eq, atRegionEnd_iff]
  rintro ⟨hins, r, hr, heq⟩
  have := hi.regions_ahead r (hi.inserts_ahead e hmem hins r hr heq)
  have := hm.regions.nonempty r hr
  simp only [Edit.on] at heq
  omega

/-- A remote edit that starts inside a local edit at the position is an insertion at the first line
of that edit, and is passed over. -/
theorem Cursors.passedOver_of_lt (hi : Cursors m st) (hno : ∀ r ∈ st.regions.head?, r.1 ≠ st.pos)
    (he : e ∈ m.localEdits) (hpos : e.start = st.pos) (hf : f ∈ m.remoteEdits)
    (hahead : st.pos ≤ f.start) (hlt : f.start < e.stop) :
    m.passedOver (f.on .remoteSide) = true := by
  have hover := hi.not_overlaps hm.regions hno he hpos hf
  have hstart := hm.remotes.start_le f hf
  unfold Edit.Overlaps at hover
  refine passedOver_iff.mpr ⟨rfl, ?_, e, he, ?_, ?_, hi.not_inRegion hm hno hpos⟩
  · change f.start = f.stop
    omega
  · omega
  · change e.start = f.start
    omega

/-- A local edit at the position is written before the remote edits that are left. -/
theorem TextInv.left_local (hi : TextInv m st)
    (hno : ∀ r ∈ st.regions.head?, r.1 ≠ st.pos) (hes : st.locals = e :: es)
    (hpos : e.start = st.pos) : m.left st = e.on .localSide :: m.left { st with locals := es } := by
  have hlo := hm.locals.suffix hi.locals
  have hro := hm.remotes.suffix hi.remotes
  have he : e ∈ m.localEdits := hi.locals.subset (by simp [hes])
  have hregion : m.inRegion (e.on .localSide) = false := hi.not_inRegion hm hno hpos
  have hwritten : m.written (e.on .localSide) = true := by
    refine written_iff.mpr ⟨hregion, hi.not_atRegionEnd hm (by simp [hes]) hpos _, ?_⟩
    rw [Bool.eq_false_iff, ne_eq, passedOver_iff]
    rintro ⟨h, -⟩
    cases h
  rw [hes] at hlo
  unfold left
  rw [hes, filter_interleave _ hlo hro,
    filter_interleave _ (hlo.suffix (suffix_cons _ _)) hro, map_cons,
    filter_cons_of_pos hwritten]
  refine merge_cons_of_le fun y hy => ?_
  obtain ⟨hy, hyw⟩ := List.mem_filter.mp hy
  obtain ⟨f, hf, rfl⟩ := List.mem_map.mp hy
  obtain ⟨-, -, hpass⟩ := written_iff.mp hyw
  have hahead := hi.remotes_ahead f hf hpass
  have hstart' := hm.remotes.start_le f (hi.remotes.subset hf)
  rw [before_iff]
  by_contra hlt
  simp only [Edit.on] at hlt
  have := hi.passedOver_of_lt hm hno he hpos (hi.remotes.subset hf) hahead (by omega)
  simp [this] at hpass

theorem TextInv.not_passedOver (hi : TextInv m st)
    (hl : ∀ e ∈ st.locals.head?, e.start ≠ st.pos) (hpos : f.start = st.pos) :
    m.passedOver (f.on .remoteSide) = false := by
  rw [Bool.eq_false_iff, ne_eq, passedOver_iff]
  rintro ⟨-, -, e, he, hne, heq, -⟩
  have hstart := hm.locals.start_le e he
  simp only [Edit.on] at heq
  rcases hi.locals_behind e he with hmem | hle
  · have := start_lt_of_head_ne (hm.locals.suffix hi.locals) hi.locals_ahead hl hmem
    omega
  · omega

theorem TextInv.left_remote (hi : TextInv m st)
    (hno : ∀ r ∈ st.regions.head?, r.1 ≠ st.pos) (hl : ∀ e ∈ st.locals.head?, e.start ≠ st.pos)
    (hfs : st.remotes = f :: fs) (hpos : f.start = st.pos) :
    m.left st = f.on .remoteSide :: m.left { st with remotes := fs } := by
  have hlo := hm.locals.suffix hi.locals
  have hro := hm.remotes.suffix hi.remotes
  have hwritten : m.written (f.on .remoteSide) = true :=
    written_iff.mpr ⟨hi.not_inRegion hm hno hpos, hi.not_atRegionEnd hm (by simp [hfs]) hpos _,
      hi.not_passedOver hm hl hpos⟩
  rw [hfs] at hro
  unfold left
  rw [hfs, filter_interleave _ hlo hro,
    filter_interleave _ hlo (hro.suffix (suffix_cons _ _)), map_cons,
    filter_cons_of_pos hwritten]
  refine merge_cons_of_not_le fun x hx => ?_
  obtain ⟨e, he, rfl⟩ := List.mem_map.mp (List.mem_filter.mp hx).1
  have := start_lt_of_head_ne hlo hi.locals_ahead hl he
  rw [before_iff]
  simp only [Edit.on]
  omega

end

theorem filter_dropWhile {α : Type*} {p q : α → Bool} {l : List α}
    (h : ∀ a ∈ l, q a = true → p a = false) : (l.dropWhile q).filter p = l.filter p := by
  have hnil : (l.takeWhile q).filter p = [] := by
    rw [filter_eq_nil_iff]
    intro a ha
    simp [h a ((takeWhile_sublist _).subset ha) (mem_takeWhile_imp ha)]
  conv_rhs => rw [← takeWhile_append_dropWhile (p := q) (l := l), filter_append, hnil]
  rfl

/-- A region skips no edit that would be written. -/
theorem not_written_of_stop_le (hm : m.Valid) (hr : r ∈ m.conflicts) (hpos : r.1 = st.pos)
    (side : Side) {edits : List Edit} (hedits : edits = m.edits side) (he : e ∈ edits)
    (hahead : m.passedOver (e.on side) = false → st.pos ≤ e.start) (hstop : e.stop ≤ r.2) :
    m.written (e.on side) = false := by
  have hstart : e.start ≤ e.stop := by
    subst hedits
    cases side with
    | localSide => exact hm.locals.start_le e he
    | remoteSide => exact hm.remotes.start_le e he
  rw [Bool.eq_false_iff, ne_eq, written_iff]
  rintro ⟨hin, hend, hpass⟩
  have hle := hahead hpass
  by_cases hlt : e.start < r.2
  · rw [Bool.eq_false_iff, ne_eq, inRegion_iff] at hin
    exact hin ⟨r, hr, by rw [hpos]; exact hle, hlt⟩
  · rw [Bool.eq_false_iff, ne_eq, atRegionEnd_iff] at hend
    exact hend ⟨show e.start = e.stop by omega, r, hr, show r.2 = e.start by omega⟩

theorem TextInv.left_region (hm : m.Valid) (hi : TextInv m st) (hr : r ∈ m.conflicts)
    (hpos : r.1 = st.pos) (hl : st'.locals = st.locals.dropWhile fun e => e.stop ≤ r.2)
    (hre : st'.remotes = st.remotes.dropWhile fun e => e.stop ≤ r.2) : m.left st' = m.left st := by
  have hlo := hm.locals.suffix hi.locals
  have hro := hm.remotes.suffix hi.remotes
  unfold left
  rw [hl, hre, filter_interleave _ hlo hro, filter_interleave _
    (hlo.suffix (dropWhile_suffix _)) (hro.suffix (dropWhile_suffix _)),
    filter_map, filter_map, filter_map, filter_map,
    filter_dropWhile, filter_dropWhile]
  · intro e he hstop
    exact not_written_of_stop_le hm hr hpos .remoteSide rfl (hi.remotes.subset he)
      (hi.remotes_ahead e he) (by simpa using hstop)
  · intro e he hstop
    exact not_written_of_stop_le hm hr hpos .localSide rfl (hi.locals.subset he)
      (fun _ => hi.locals_ahead e he) (by simpa using hstop)

/-- The copy of base lines stops no later than an edit that is ahead. -/
theorem nextEvent_le_start (ho : OrderedEdits n es) (he : e ∈ es) (hahead : st.pos ≤ e.start)
    (hstarts : ∀ f ∈ es.head?, f.start ∈ nextStarts st) : m.nextEvent st ≤ e.start := by
  obtain ⟨f, hf, hle⟩ := exists_head_le ho he
  have := nextEvent_le (m := m) f.start (hstarts f hf)
  omega

section
variable (hm : m.Valid)
include hm

theorem TextInv.nextEvent_le_local (hi : TextInv m st) (he : e ∈ st.locals) :
    m.nextEvent st ≤ e.start :=
  nextEvent_le_start (hm.locals.suffix hi.locals) he (hi.locals_ahead e he)
    fun f hf => mem_nextStarts.mpr (.inr (.inl ⟨f, hf, rfl⟩))

theorem TextInv.nextEvent_le_remote (hi : TextInv m st) (hf : f ∈ st.remotes)
    (hpass : m.passedOver (f.on .remoteSide) = false) : m.nextEvent st ≤ f.start :=
  nextEvent_le_start (hm.remotes.suffix hi.remotes) hf (hi.remotes_ahead f hf hpass)
    fun f hf => mem_nextStarts.mpr (.inr (.inr ⟨f, hf, rfl⟩))

theorem TextInv.locals_ahead_step (hi : TextInv m st)
    (h : m.mergeStep st = some st') : ∀ e ∈ st'.locals, st'.pos ≤ e.start := by
  rcases mergeStep_cases h with ⟨r, rs, hrs, hpos, h⟩ | ⟨hno, h⟩
  · obtain ⟨hpos', -, hl, -⟩ := emitConflict_eq h
    intro e he
    rw [hpos']
    exact region_ahead hm.locals hi.locals (hi.locals_ahead e) hm.regions
      (hi.regions.subset (by simp [hrs])) hpos (hl ▸ he)
  · rcases h with ⟨e, es, hes, hpos, rfl⟩ | ⟨hl, ⟨f, fs, hfs, hpos, rfl⟩ | ⟨-, lines, rfl⟩⟩
    · have hskips : SkipsNone st { pushEdit st e with locals := es } st.locals es :=
        pushEdit_skipsNone hm.locals hi.locals hi.locals_ahead hes hpos rfl rfl
      exact hskips.ahead
    · have hf : f ∈ m.remoteEdits := hi.remotes.subset (by simp [hfs])
      have hskips : SkipsNone st { pushEdit st f with remotes := fs } st.locals st.locals := by
        refine kept_of_pushEdit hm.locals hi.locals hi.locals_ahead hpos rfl
          (fun e he => hi.not_overlaps hm.regions.symm hno hf hpos he) fun _ e he _ heq => ?_
        have := start_lt_of_head_ne (hm.locals.suffix hi.locals) hi.locals_ahead hl he
        omega
      exact hskips.ahead
    · exact fun e he => hi.nextEvent_le_local hm he

theorem TextInv.remotes_ahead_step (hi : TextInv m st)
    (h : m.mergeStep st = some st') (he : e ∈ st'.remotes)
    (hpass : m.passedOver (e.on .remoteSide) = false) : st'.pos ≤ e.start := by
  have hro := hm.remotes.suffix hi.remotes
  rcases mergeStep_cases h with ⟨r, rs, hrs, hpos, h⟩ | ⟨hno, h⟩
  · obtain ⟨hpos', -, -, hre⟩ := emitConflict_eq h
    rw [hpos']
    exact region_ahead hm.remotes hi.remotes (fun hmem => hi.remotes_ahead e hmem hpass)
      hm.regions.symm (hi.regions.subset (by simp [hrs])) hpos (hre ▸ he)
  · rcases h with ⟨f, fs, hfs, hpos, rfl⟩ | ⟨-, ⟨f, fs, hfs, hpos, rfl⟩ | ⟨-, lines, rfl⟩⟩
    · have hf : f ∈ m.localEdits := hi.locals.subset (by simp [hfs])
      have hahead := hi.remotes_ahead e he hpass
      simp only [pushEdit]
      split
      · by_contra hlt
        have := hi.passedOver_of_lt hm hno hf hpos (hi.remotes.subset he) hahead (by omega)
        simp [this] at hpass
      · exact hahead
    · have hord := hro.ordered
      rw [hfs, pairwise_cons] at hord
      have := hord.1 e he
      have := hi.remotes_ahead e (by rw [hfs]; exact mem_cons_of_mem _ he) hpass
      simp only [pushEdit]
      split <;> omega
    · exact hi.nextEvent_le_remote hm he hpass

theorem TextInv.locals_behind_step (hi : TextInv m st)
    (h : m.mergeStep st = some st') (he : e ∈ m.localEdits) :
    e ∈ st'.locals ∨ e.stop ≤ st'.pos := by
  have hpos := (hi.pos_bounds hm h).1
  rcases hi.locals_behind e he with hmem | hle
  · rcases (sideStep_of_mergeStep h).1 with ⟨r, -, -, hpos', hes⟩ | ⟨f, -, hes, hf, hpos', -⟩ |
      ⟨-, hes⟩
    · rw [← takeWhile_append_dropWhile (p := fun e : Edit => decide (e.stop ≤ r.2))
        (l := st.locals), ← hes] at hmem
      refine (List.mem_append.mp hmem).symm.imp_right fun hmem => ?_
      rw [hpos']
      simpa using mem_takeWhile_imp hmem
    · rcases List.mem_cons.mp (hes ▸ hmem) with rfl | hmem
      · refine .inr ?_
        rw [hpos']
        split <;> omega
      · exact .inl hmem
    · exact .inl (hes ▸ hmem)
  · exact .inr (hle.trans hpos)

end

theorem sideStep_inserts {edits edits' : List Edit} (h : SideStep st st' edits edits')
    (hord : edits.Pairwise fun e f => e.stop ≤ f.start) (he : e ∈ edits') (hins : e.IsInsert)
    (hr : r ∈ st.regions) (heq : r.2 = e.start) : r ∈ st'.regions := by
  rcases h with ⟨r', hr', -, -, hes⟩ | ⟨f, hr', -⟩ | ⟨hr', -⟩
  · rcases List.mem_cons.mp (hr' ▸ hr) with rfl | hr
    · have := mem_of_mem_dropWhile hord (hes ▸ he)
      unfold Edit.IsInsert at hins
      omega
    · exact hr
  · rwa [hr']
  · rwa [hr']

theorem TextInv.step (hm : m.Valid) (hi : TextInv m st) (h : m.mergeStep st = some st') :
    TextInv m st' where
  toCursors := hi.toCursors.step hm h (hi.locals_ahead_step hm h)
  remotes_ahead e he hpass := hi.remotes_ahead_step hm h he hpass
  locals_behind e he := hi.locals_behind_step hm h he
  inserts_ahead e he hins r hr heq := by
    obtain ⟨hl, hre⟩ := sideStep_of_mergeStep h
    rcases List.mem_append.mp he with he | he
    · have hmem := hi.inserts_ahead e (mem_append_left _ (hl.suffix.subset he)) hins r hr heq
      exact sideStep_inserts hl (hm.locals.suffix hi.locals).ordered he hins hmem heq
    · have hmem := hi.inserts_ahead e (mem_append_right _ (hre.suffix.subset he)) hins r hr heq
      exact sideStep_inserts hre (hm.remotes.suffix hi.remotes).ordered he hins hmem heq

/-! ### The output -/

section Output

variable {s : SideEdit} {ss : List SideEdit}

theorem draftFrom_push (hr : ∀ r ∈ rs.head?, s.start < r.1) : m.draftFrom rs s.start (s :: ss) =
      (Draft.empty.push s.lines).append (m.draftFrom rs s.stop ss) := by
  cases rs with
  | nil => simp [draftFrom, applyFrom, append, push, empty]
  | cons r rs =>
    have hlt := hr r rfl
    rw [draftFrom, draftFrom, filter_cons_of_pos (by simpa using hlt),
      filter_cons_of_neg (by simpa using hlt)]
    simp [applyFrom, append, push, empty]

theorem draftFrom_copy (h1 : pos ≤ b) (h2 : b ≤ m.baseLines.length)
    (hr : ∀ r ∈ rs.head?, b ≤ r.1) (hs : ∀ s ∈ ss, b ≤ s.start) :
    m.draftFrom rs pos ss = (Draft.empty.push ((m.baseLines.drop pos).take (b - pos))).append
      (m.draftFrom rs b ss) := by
  cases rs with
  | nil =>
    rw [draftFrom, draftFrom, applyFrom_advance h1 h2 hs]
    simp [append, push, empty]
  | cons r rs =>
    rw [draftFrom, draftFrom, applyFrom_advance h1 (hr r rfl)
      fun s hmem => hs s (List.mem_filter.mp hmem).1]
    simp [append, push, empty]

theorem draftFrom_region (hs : ∀ s ∈ ss, r.1 ≤ s.start) : m.draftFrom (r :: rs) r.1 ss =
      ⟨⟨"", m.sideText .localSide r, m.sideText .remoteSide r⟩ :: (m.draftFrom rs r.2 ss).blocks,
        (m.draftFrom rs r.2 ss).tail⟩ := by
  have hbefore : ss.filter (·.start < r.1) = [] :=
    List.filter_eq_nil_iff.mpr fun s hmem => by simpa using hs s hmem
  have hbehind : ss.filter (r.1 ≤ ·.start) = ss :=
    List.filter_eq_self.mpr fun s hmem => by simpa using hs s hmem
  rw [draftFrom, hbefore, hbehind]
  simp [applyFrom]

end Output

theorem mem_left {s : SideEdit} (hs : s ∈ m.left st) : (∃ e ∈ st.locals, s = e.on .localSide) ∨
      ∃ f ∈ st.remotes, s = f.on .remoteSide ∧ m.passedOver (f.on .remoteSide) = false := by
  obtain ⟨hs, hw⟩ := List.mem_filter.mp hs
  rcases List.mem_merge.mp hs with hs | hs
  · obtain ⟨e, he, rfl⟩ := List.mem_map.mp hs
    exact .inl ⟨e, he, rfl⟩
  · obtain ⟨f, hf, rfl⟩ := List.mem_map.mp hs
    exact .inr ⟨f, hf, rfl, (written_iff.mp hw).2.2⟩

/-- What is written and what is left to write make up the same output in every iteration. -/
theorem TextInv.draft_step (hm : m.Valid) (hi : TextInv m st) (h : m.mergeStep st = some st')
    (d : Draft) : (m.draftStep st d).append (m.draftFrom st'.regions st'.pos (m.left st')) =
      d.append (m.draftFrom st.regions st.pos (m.left st)) := by
  rcases draftStep_cases d h with ⟨r, rs, hrs, hpos, h, hstep⟩ | ⟨hno, h⟩
  · obtain ⟨hpos', hrs', hl, hre⟩ := emitConflict_eq h
    rw [hstep, Draft.pushBlock_append, hi.left_region hm (hi.regions.subset (by simp [hrs])) hpos
      hl hre, hrs', hpos', hrs, tail_cons, ← hpos, draftFrom_region]
    intro s hs
    rw [hpos]
    rcases mem_left hs with ⟨e, he, rfl⟩ | ⟨f, hf, rfl, hpass⟩
    · exact hi.locals_ahead e he
    · exact hi.remotes_ahead f hf hpass
  have hbefore : ∀ {e : Edit}, e.start = st.pos → ∀ r ∈ st.regions.head?, e.start < r.1 :=
    fun hpos r hr => hpos ▸ hi.lt_region hm.regions hno (mem_of_mem_head? hr)
  have hmoved : ∀ {e : Edit}, e.start = st.pos → (pushEdit st e).pos = e.stop := by
    intro e hpos
    simp only [pushEdit]
    split <;> omega
  rcases h with ⟨e, es, hes, hpos, rfl, hstep⟩ | ⟨hl, ⟨f, fs, hfs, hpos, rfl, hstep⟩ |
    ⟨-, lines, hlines, rfl, hstep⟩⟩
  · rw [hstep, push_append, hi.left_local hm hno hes hpos, ← hpos]
    exact congrArg d.append ((congrArg (fun pos => append _ (m.draftFrom _ pos _))
      (hmoved hpos)).trans (draftFrom_push (s := e.on .localSide) (hbefore hpos)).symm)
  · rw [hstep, push_append, hi.left_remote hm hno hl hfs hpos, ← hpos]
    exact congrArg d.append ((congrArg (fun pos => append _ (m.draftFrom _ pos _))
      (hmoved hpos)).trans (draftFrom_push (s := f.on .remoteSide) (hbefore hpos)).symm)
  · have hle : st.pos ≤ m.nextEvent st := le_max_right _ _
    have hend := hi.nextEvent_le_length hm
    rw [slice_isSome hle hend] at hlines
    obtain rfl := Option.some.inj hlines
    rw [hstep, push_append]
    refine congrArg d.append (draftFrom_copy hle hend (fun r hr => ?_) fun s hs => ?_).symm
    · exact hi.nextEvent_le_region hr
    · rcases mem_left hs with ⟨e, he, rfl⟩ | ⟨f, hf, rfl, hpass⟩
      · exact hi.nextEvent_le_local hm he
      · exact hi.nextEvent_le_remote hm hf hpass

/-- When the loop ends, all regions are behind it. -/
theorem Cursors.regions_eq_nil (hm : m.Valid) (hi : Cursors m st) (hstop : m.running st = false) :
    st.regions = [] ∧ st.locals = [] ∧ st.remotes = [] ∧ st.pos = m.baseLines.length := by
  simp only [running, Bool.or_eq_false_iff, decide_eq_false_iff_not, not_lt, Bool.not_eq_false',
    List.isEmpty_iff] at hstop
  obtain ⟨⟨hpos, hl⟩, hre⟩ := hstop
  refine ⟨?_, hl, hre, le_antisymm hi.pos_le hpos⟩
  rw [eq_nil_iff_forall_not_mem]
  intro r hr
  have := hi.regions_ahead r hr
  have := hm.regions.nonempty r (hi.regions.subset hr)
  have := hm.regions.bounded r (hi.regions.subset hr)
  omega

/-- Where the loop ends, nothing is left to write. -/
theorem TextInv.append_draftFrom (hm : m.Valid) (hi : TextInv m st) (hstop : m.running st = false) :
    d.append (m.draftFrom st.regions st.pos (m.left st)) = d := by
  obtain ⟨hr, hl, hre, hpos⟩ := hi.regions_eq_nil hm hstop
  have hleft : m.left st = [] := by simp [left, interleave, hl, hre]
  rw [hleft, hr, hpos, draftFrom]
  simp [applyFrom, append]

/-- The output of a merge that returns: the loop that writes blocks returns with it. -/
theorem draftLoop_eq (hm : m.Valid) {k : Nat} (h : m.mergeLoop k m.init = some st) :
    m.draftLoop k m.init .empty = some m.draft ∧ Rendered st m.draft := by
  have hloop := mergeLoop_induction (P := fun k s => ∀ d, TextInv m s → Rendered s d →
    m.draftLoop k s d = some (d.append (m.draftFrom s.regions s.pos (m.left s))) ∧
      Rendered st (d.append (m.draftFrom s.regions s.pos (m.left s)))) h ?_ ?_
  · have hinit := hloop .empty textInv_init ⟨rfl, rfl, rfl⟩
    rwa [Draft.empty_append] at hinit
  · intro k hstop d hi hd
    rw [hi.append_draftFrom hm hstop]
    cases k <;> simp [draftLoop, hstop, hd]
  · intro k s s' hrun h1 ih d hi hd
    rw [draftLoop, if_pos hrun, h1, Option.bind_some, ← hi.draft_step hm h1]
    exact ih _ (hi.step hm h1) (hd.step h1)

end MergeInput

end Syncthing
