import Mathlib.Data.List.TakeWhile
import Syncthing.Sync.MergeEdits

/-! The main loop of the three-way merge: progress, termination, skipped edits. -/
namespace Syncthing

open Option
open List

variable {m : MergeInput} {st st' : MergeState} {es es' : List Edit} {e f : Edit}
  {r : Nat × Nat} {n : Nat} {textDiff : String → String → List DiffOp}
  {base localText remoteText : String}

namespace MergeInput

variable (m)

/-- One iteration that the loop condition lets happen. -/
def Iterates (st st' : MergeState) : Prop := m.running st = true ∧ m.mergeStep st = some st'

/-- The states of the loop, from the one it starts in. -/
def Reaches : MergeState → Prop := Relation.ReflTransGen m.Iterates m.init

/-- A remote insertion sits on the first line of a local edit that replaces or deletes
lines and overlaps no remote edit. -/
def InsertAtLocalEdit : Prop := ∃ e ∈ m.localEdits, ∃ f ∈ m.remoteEdits,
    ¬ e.IsInsert ∧ f.IsInsert ∧ f.start = e.start ∧ ∀ g ∈ m.remoteEdits, ¬ e.Overlaps g

/-- An insertion of one of the sides sits right behind the last line of a conflict region. -/
def InsertAtRegionEnd : Prop :=
  ∃ r ∈ m.conflicts, ∃ e ∈ m.localEdits ++ m.remoteEdits, e.IsInsert ∧ e.start = r.2

variable {m}

instance : Decidable m.InsertAtLocalEdit :=
  inferInstanceAs (Decidable (∃ e ∈ m.localEdits, ∃ f ∈ m.remoteEdits,
    ¬ e.IsInsert ∧ f.IsInsert ∧ f.start = e.start ∧ ∀ g ∈ m.remoteEdits, ¬ e.Overlaps g))

instance : Decidable m.InsertAtRegionEnd :=
  inferInstanceAs (Decidable (∃ r ∈ m.conflicts, ∃ e ∈ m.localEdits ++ m.remoteEdits,
    e.IsInsert ∧ e.start = r.2))

/-- Both edit lists are ordered within the base. -/
structure Valid (m : MergeInput) : Prop where
  locals : OrderedEdits m.baseLines.length m.localEdits
  remotes : OrderedEdits m.baseLines.length m.remoteEdits

theorem Valid.regions (hm : m.Valid) :
    ConflictRegions m.baseLines.length m.localEdits m.remoteEdits m.conflicts :=
  findConflictRegions_spec hm.locals hm.remotes

end MergeInput

namespace MergeState

/-- The position moves on or an edit is consumed. -/
def Advances (st st' : MergeState) : Prop :=
  st.pos < st'.pos ∨ st'.locals.length < st.locals.length ∨ st'.remotes.length < st.remotes.length

/-- The edit is written at its own position, or the region written covers its start. -/
def Accounted (st st' : MergeState) (e : Edit) : Prop :=
  (e.start = st.pos ∧ st'.merged = st.merged ++ String.join e.lines) ∨
    ∃ r, st.regions = r :: st'.regions ∧ r.1 ≤ e.start ∧ e.start < r.2

/-- On one side, no edit that is left lies behind the new position and every edit consumed
is accounted for. -/
structure SkipsNone (st st' : MergeState) (es es' : List Edit) : Prop where
  ahead : ∀ e ∈ es', st'.pos ≤ e.start
  consumed : ∃ used, es = used ++ es' ∧ ∀ e ∈ used, Accounted st st' e

def NoEditSkipped (st st' : MergeState) : Prop :=
  SkipsNone st st' st.locals st'.locals ∧ SkipsNone st st' st.remotes st'.remotes

/-- What an iteration does to the edits of one side. -/
inductive SideStep (st st' : MergeState) (es es' : List Edit) : Prop
  | region (r : Nat × Nat) (hr : st.regions = r :: st'.regions) (hpos : r.1 = st.pos)
      (hpos' : st'.pos = r.2) (hes : es' = es.dropWhile fun e => e.stop ≤ r.2)
  | pushed (e : Edit) (hr : st'.regions = st.regions) (hes : es = e :: es')
      (hpos : e.start = st.pos) (hpos' : st'.pos = if e.start ≠ e.stop then e.stop else st.pos)
      (hmerged : st'.merged = st.merged ++ String.join e.lines)
  | kept (hr : st'.regions = st.regions) (hes : es' = es)

theorem SideStep.suffix (h : SideStep st st' es es') : es' <:+ es := by
  rcases h with ⟨r, -, -, -, hes⟩ | ⟨f, -, hes, -⟩ | ⟨-, hes⟩
  · exact hes ▸ dropWhile_suffix _
  · exact hes ▸ suffix_cons _ _
  · exact hes ▸ suffix_rfl

end MergeState

open MergeState

namespace MergeInput

/-- Everything one iteration can do. -/
theorem mergeStep_cases (h : m.mergeStep st = some st') :
    (∃ r rs, st.regions = r :: rs ∧ r.1 = st.pos ∧ m.emitConflict st r = some st') ∨
    (∀ r ∈ st.regions.head?, r.1 ≠ st.pos) ∧ ((∃ e es, st.locals = e :: es ∧ e.start = st.pos ∧
          st' = { pushEdit st e with locals := es }) ∨
        (∀ e ∈ st.locals.head?, e.start ≠ st.pos) ∧
          ((∃ e es, st.remotes = e :: es ∧ e.start = st.pos ∧
              st' = { pushEdit st e with remotes := es }) ∨
            (∀ e ∈ st.remotes.head?, e.start ≠ st.pos) ∧ ∃ lines, st' = { st with
                merged := st.merged ++ String.join lines, pos := m.nextEvent st })) := by
  unfold mergeStep at h
  split at h
  next r hr =>
    obtain ⟨hr, hpos⟩ := Option.filter_eq_some_iff.mp hr
    obtain ⟨rs, hrs⟩ := head?_eq_some_iff.mp hr
    exact .inl ⟨r, rs, hrs, by simpa using hpos, h⟩
  next hr =>
    refine .inr ⟨by simpa [Option.filter_eq_none_iff] using hr, ?_⟩
    split at h
    next e he =>
      obtain ⟨he, hpos⟩ := Option.filter_eq_some_iff.mp he
      obtain ⟨es, hes⟩ := head?_eq_some_iff.mp he
      refine .inl ⟨e, es, hes, by simpa using hpos, ?_⟩
      simpa [hes] using h.symm
    next he =>
      refine .inr ⟨by simpa [Option.filter_eq_none_iff] using he, ?_⟩
      split at h
      next f hf =>
        obtain ⟨hf, hpos⟩ := Option.filter_eq_some_iff.mp hf
        obtain ⟨fs, hfs⟩ := head?_eq_some_iff.mp hf
        refine .inl ⟨f, fs, hfs, by simpa using hpos, ?_⟩
        simpa [hfs] using h.symm
      next hf =>
        refine .inr ⟨by simpa [Option.filter_eq_none_iff] using hf, ?_⟩
        obtain ⟨lines, -, h⟩ := Option.bind_eq_some_iff.mp h
        exact ⟨lines, (Option.some.inj h).symm⟩

theorem emitConflict_eq (h : m.emitConflict st r = some st') :
    st'.pos = r.2 ∧ st'.regions = st.regions.tail ∧
      st'.locals = st.locals.dropWhile (fun e => e.stop ≤ r.2) ∧
      st'.remotes = st.remotes.dropWhile (fun e => e.stop ≤ r.2) := by
  obtain ⟨_, -, h⟩ := Option.bind_eq_some_iff.mp h
  obtain ⟨_, -, h⟩ := Option.bind_eq_some_iff.mp h
  obtain rfl := some.inj h
  exact ⟨rfl, rfl, rfl, rfl⟩

theorem sideStep_of_mergeStep (h : m.mergeStep st = some st') :
    SideStep st st' st.locals st'.locals ∧ SideStep st st' st.remotes st'.remotes := by
  rcases mergeStep_cases h with ⟨r, rs, hrs, hpos, h⟩ | ⟨-, h⟩
  · obtain ⟨hp, hr, hl, hre⟩ := emitConflict_eq h
    have hr : st.regions = r :: st'.regions := by rw [hr, hrs, tail_cons]
    exact ⟨.region r hr hpos hp hl, .region r hr hpos hp hre⟩
  · rcases h with ⟨e, es, hes, hpos, rfl⟩ | ⟨-, ⟨e, es, hes, hpos, rfl⟩ | ⟨-, lines, rfl⟩⟩
    · exact ⟨.pushed e rfl hes hpos rfl rfl, .kept rfl rfl⟩
    · exact ⟨.kept rfl rfl, .pushed e rfl hes hpos rfl rfl⟩
    · exact ⟨.kept rfl rfl, .kept rfl rfl⟩

/-- Where the cursors stand. No local edit or region ahead of a cursor lies behind the position,
and a region that was written ends at or before it. -/
structure Cursors (m : MergeInput) (st : MergeState) : Prop where
  pos_le : st.pos ≤ m.baseLines.length
  locals : st.locals <:+ m.localEdits
  remotes : st.remotes <:+ m.remoteEdits
  regions : st.regions <:+ m.conflicts
  locals_ahead : ∀ e ∈ st.locals, st.pos ≤ e.start
  regions_ahead : ∀ r ∈ st.regions, st.pos ≤ r.1
  regions_behind : ∀ r ∈ m.conflicts, r ∈ st.regions ∨ r.2 ≤ st.pos

/-- No remote edit ahead of its cursor lies behind the position either. -/
structure LoopInv (m : MergeInput) (st : MergeState) : Prop where
  pos_le : st.pos ≤ m.baseLines.length
  locals : st.locals <:+ m.localEdits
  remotes : st.remotes <:+ m.remoteEdits
  regions : st.regions <:+ m.conflicts
  locals_ahead : ∀ e ∈ st.locals, st.pos ≤ e.start
  remotes_ahead : ∀ e ∈ st.remotes, st.pos ≤ e.start
  regions_ahead : ∀ r ∈ st.regions, st.pos ≤ r.1
  regions_behind : ∀ r ∈ m.conflicts, r ∈ st.regions ∨ r.2 ≤ st.pos

theorem LoopInv.cursors (hi : LoopInv m st) : Cursors m st where
  __ := hi

theorem loopInv_init : LoopInv m m.init where
  pos_le := Nat.zero_le _
  locals := suffix_rfl
  remotes := suffix_rfl
  regions := suffix_rfl
  locals_ahead _ _ := Nat.zero_le _
  remotes_ahead _ _ := Nat.zero_le _
  regions_ahead _ _ := Nat.zero_le _
  regions_behind _ hr := .inl hr

/-- The first region ahead starts no later than the others. -/
theorem Cursors.head_region_le (hi : Cursors m st) (hc : ConflictRegions n es es' m.conflicts)
    (hr : r ∈ st.regions) : ∃ r0 ∈ st.regions.head?, r0.1 ≤ r.1 := by
  cases hrs : st.regions with
  | nil => simp [hrs] at hr
  | cons r0 rs =>
    refine ⟨r0, rfl, ?_⟩
    have hsep := hc.separated.sublist hi.regions.sublist
    rw [hrs, pairwise_cons] at hsep
    rcases List.mem_cons.mp (hrs ▸ hr) with rfl | hr'
    · exact le_rfl
    · have := hsep.1 r hr'
      have := hc.nonempty r0 (hi.regions.subset (by simp [hrs]))
      omega

section
variable (hi : Cursors m st) (hc : ConflictRegions n es es' m.conflicts)
  (hno : ∀ r ∈ st.regions.head?, r.1 ≠ st.pos)
include hi hc hno

/-- Past the first branch of the loop body, every region ahead starts behind the position. -/
theorem Cursors.lt_region (hr : r ∈ st.regions) : st.pos < r.1 := by
  obtain ⟨r0, hr0, hle⟩ := hi.head_region_le hc hr
  have := hi.regions_ahead r0 (mem_of_mem_head? hr0)
  have := hno r0 hr0
  omega

/-- Where the loop applies an edit, no edit of the other side overlaps it: a region holding
both would start here and come first, or would have been written before. -/
theorem Cursors.not_overlaps (he : e ∈ es) (hpos : e.start = st.pos) (hf : f ∈ es') :
    ¬ e.Overlaps f := by
  intro ho
  obtain ⟨r, hr, ⟨hre, hre'⟩, hrf, hrf'⟩ := hc.covers e he f hf ho
  have := ho.1
  rcases hi.regions_behind r hr with hmem | hle
  · have := hi.lt_region hc hno hmem
    omega
  · omega

end

theorem mem_of_mem_dropWhile (hord : es.Pairwise fun e f => e.stop ≤ f.start)
    (he : e ∈ es.dropWhile fun e => e.stop ≤ n) : n < e.stop ∨ n < e.start := by
  induction es with
  | nil => simp at he
  | cons f es ih =>
    rw [pairwise_cons] at hord
    rw [dropWhile_cons] at he
    split at he
    · exact ih hord.2 he
    next hf =>
      rcases List.mem_cons.mp he with rfl | he
      · exact .inl (by simpa using hf)
      · have := hord.1 e he
        simp only [decide_eq_true_eq] at hf
        exact .inr (by omega)

theorem mem_nextStarts {x : Nat} : x ∈ nextStarts st ↔
    (∃ r ∈ st.regions.head?, r.1 = x) ∨ (∃ e ∈ st.locals.head?, e.start = x) ∨
      ∃ e ∈ st.remotes.head?, e.start = x := by
  simp only [nextStarts, mem_filterMap, mem_cons, not_mem_nil, or_false, id_eq,
    Option.mem_def]
  constructor
  · rintro ⟨a, rfl | rfl | rfl, h⟩
    · exact .inl (Option.map_eq_some_iff.mp h)
    · exact .inr (.inl (map_eq_some_iff.mp h))
    · exact .inr (.inr (map_eq_some_iff.mp h))
  · rintro (h | h | h)
    · exact ⟨_, .inl rfl, Option.map_eq_some_iff.mpr h⟩
    · exact ⟨_, .inr (.inl rfl), Option.map_eq_some_iff.mpr h⟩
    · exact ⟨_, .inr (.inr rfl), Option.map_eq_some_iff.mpr h⟩

theorem nextStarts_eq_nil :
    nextStarts st = [] ↔ st.regions = [] ∧ st.locals = [] ∧ st.remotes = [] := by
  simp [nextStarts, filterMap_eq_nil_iff]

/-- The copy of base lines stops at the first start ahead, or at the end of the base. -/
theorem nextEvent_spec (h : ∀ x ∈ nextStarts st, st.pos ≤ x) :
    (∀ x ∈ nextStarts st, m.nextEvent st ≤ x) ∧ (m.nextEvent st ∈ nextStarts st ∨
        nextStarts st = [] ∧ m.nextEvent st = max m.baseLines.length st.pos) := by
  unfold nextEvent
  cases hmin : (nextStarts st).min? with
  | none =>
    have hnil := min?_eq_none_iff.mp hmin
    exact ⟨by simp [hnil], .inr ⟨hnil, rfl⟩⟩
  | some a =>
    obtain ⟨ha, hle⟩ := min?_eq_some_iff.mp hmin
    rw [Option.getD_some, max_eq_left (h a ha)]
    exact ⟨hle, .inl ha⟩

theorem LoopInv.nextStarts_ahead (hi : LoopInv m st) {x : Nat} (hx : x ∈ nextStarts st) :
    st.pos ≤ x := by
  rcases mem_nextStarts.mp hx with ⟨r, hr, rfl⟩ | ⟨e, he, rfl⟩ | ⟨e, he, rfl⟩
  · exact hi.regions_ahead r (mem_of_mem_head? hr)
  · exact hi.locals_ahead e (mem_of_mem_head? he)
  · exact hi.remotes_ahead e (mem_of_mem_head? he)

/-- The first edit of an ordered list starts no later than the others. -/
theorem exists_head_le (ho : OrderedEdits n es) (he : e ∈ es) :
    ∃ f ∈ es.head?, f.start ≤ e.start := by
  cases es with
  | nil => simp at he
  | cons f es =>
    refine ⟨f, rfl, ?_⟩
    rcases List.mem_cons.mp he with rfl | he
    · exact le_rfl
    · have := (List.pairwise_cons.mp ho.ordered).1 e he
      have := ho.start_le f mem_cons_self
      omega

theorem nextEvent_le (x : Nat) (hx : x ∈ nextStarts st) : m.nextEvent st ≤ max x st.pos := by
  unfold nextEvent
  cases hmin : (nextStarts st).min? with
  | none => simp [min?_eq_none_iff.mp hmin] at hx
  | some a =>
    have := (min?_eq_some_iff.mp hmin).2 x hx
    rw [Option.getD_some]
    omega

theorem Cursors.nextEvent_le_region (hi : Cursors m st) (hr : r ∈ st.regions.head?) :
    m.nextEvent st ≤ r.1 := by
  rw [← max_eq_left (hi.regions_ahead r (mem_of_mem_head? hr))]
  exact nextEvent_le r.1 (mem_nextStarts.mpr (.inl ⟨r, hr, rfl⟩))

theorem nextEvent_cases (m : MergeInput) (st : MergeState) :
    m.nextEvent st = st.pos ∨ m.nextEvent st ∈ nextStarts st ∨
      m.nextEvent st = m.baseLines.length := by
  unfold nextEvent
  cases hmin : (nextStarts st).min? with
  | none =>
    rw [Option.getD_none]
    omega
  | some a =>
    rw [Option.getD_some]
    rcases le_total a st.pos with h | h
    · exact .inl (max_eq_right h)
    · exact .inr (.inl (by rw [max_eq_left h]; exact (min?_eq_some_iff.mp hmin).1))

theorem Cursors.nextEvent_le_length (hm : m.Valid) (hi : Cursors m st) :
    m.nextEvent st ≤ m.baseLines.length := by
  rcases nextEvent_cases m st with hx | hx | hx
  · exact hx ▸ hi.pos_le
  · rcases mem_nextStarts.mp hx with ⟨r, hr, hrx⟩ | ⟨e, he, hex⟩ | ⟨e, he, hex⟩
    · have hr := hi.regions.subset (mem_of_mem_head? hr)
      have := hm.regions.nonempty r hr
      have := hm.regions.bounded r hr
      omega
    · have he := hi.locals.subset (mem_of_mem_head? he)
      have := hm.locals.start_le e he
      have := hm.locals.stop_le e he
      omega
    · have he := hi.remotes.subset (mem_of_mem_head? he)
      have := hm.remotes.start_le e he
      have := hm.remotes.stop_le e he
      omega
  · exact hx.le

/-- No iteration slices out of range. -/
theorem Cursors.exists_mergeStep (hm : m.Valid) (hi : Cursors m st) :
    ∃ st', m.mergeStep st = some st' := by
  unfold mergeStep
  split
  next r hr =>
    have hr := hi.regions.subset (mem_of_mem_head? (Option.filter_eq_some_iff.mp hr).1)
    obtain ⟨s, hs⟩ := hm.regions.exists_buildSide hm.locals hr
    obtain ⟨t, ht⟩ := hm.regions.symm.exists_buildSide hm.remotes hr
    simp [emitConflict, hs, ht]
  · split
    · exact ⟨_, rfl⟩
    · split
      · exact ⟨_, rfl⟩
      · have hle : st.pos ≤ m.nextEvent st := le_max_right _ _
        rw [slice_isSome hle (hi.nextEvent_le_length hm)]
        exact ⟨_, rfl⟩

theorem Cursors.pos_bounds (hm : m.Valid) (hi : Cursors m st) (h : m.mergeStep st = some st') :
    st.pos ≤ st'.pos ∧ st'.pos ≤ m.baseLines.length := by
  rcases mergeStep_cases h with ⟨r, rs, hrs, hpos, h⟩ | ⟨-, h⟩
  · have hr : r ∈ m.conflicts := hi.regions.subset (by simp [hrs])
    have := hm.regions.nonempty r hr
    have := hm.regions.bounded r hr
    have := (emitConflict_eq h).1
    omega
  · have := hi.pos_le
    rcases h with ⟨e, es, hes, hpos, rfl⟩ | ⟨-, ⟨e, es, hes, hpos, rfl⟩ | ⟨-, lines, rfl⟩⟩
    · have he : e ∈ m.localEdits := hi.locals.subset (by simp [hes])
      have := hm.locals.start_le e he
      have := hm.locals.stop_le e he
      simp only [pushEdit]
      split <;> omega
    · have he : e ∈ m.remoteEdits := hi.remotes.subset (by simp [hes])
      have := hm.remotes.start_le e he
      have := hm.remotes.stop_le e he
      simp only [pushEdit]
      split <;> omega
    · exact ⟨le_max_right _ _, hi.nextEvent_le_length hm⟩

/-- The copy would stop where it starts only at a start that the other branches handle. -/
theorem LoopInv.lt_nextEvent (hi : LoopInv m st) (hrun : m.running st = true)
    (hr : ∀ r ∈ st.regions.head?, r.1 ≠ st.pos) (hl : ∀ e ∈ st.locals.head?, e.start ≠ st.pos)
    (hre : ∀ e ∈ st.remotes.head?, e.start ≠ st.pos) : st.pos < m.nextEvent st := by
  have hpos : st.pos ≤ m.nextEvent st := le_max_right _ _
  refine lt_of_le_of_ne hpos fun heq => ?_
  rcases (nextEvent_spec (m := m) fun x => hi.nextStarts_ahead).2 with hx | ⟨hnil, hx⟩
  · rcases mem_nextStarts.mp hx with ⟨r, hr', hrx⟩ | ⟨e, he, hex⟩ | ⟨e, he, hex⟩
    · exact hr r hr' (by omega)
    · exact hl e he (by omega)
    · exact hre e he (by omega)
  · obtain ⟨-, hl, hr⟩ := nextStarts_eq_nil.mp hnil
    simp only [running, hl, hr, isEmpty_nil, Bool.not_true, Bool.or_false,
      decide_eq_true_eq] at hrun
    omega

theorem LoopInv.advances (hm : m.Valid) (hi : LoopInv m st) (h : m.Iterates st st') :
    Advances st st' := by
  obtain ⟨hrun, h⟩ := h
  rcases mergeStep_cases h with ⟨r, rs, hrs, hpos, h⟩ | ⟨hr, h⟩
  · have := hm.regions.nonempty r (hi.regions.subset (by simp [hrs]))
    have := (emitConflict_eq h).1
    exact .inl (by omega)
  · rcases h with ⟨e, es, hes, hpos, rfl⟩ | ⟨hl, ⟨e, es, hes, hpos, rfl⟩ | ⟨hre, lines, rfl⟩⟩
    · exact .inr (.inl (by simp [hes]))
    · exact .inr (.inr (by simp [hes]))
    · exact .inl (hi.lt_nextEvent hrun hr hl hre)

theorem start_lt_of_head_ne (ho : OrderedEdits n es) (hahead : ∀ e ∈ es, st.pos ≤ e.start)
    (hno : ∀ e ∈ es.head?, e.start ≠ st.pos) (he : e ∈ es) : st.pos < e.start := by
  obtain ⟨f, hf, hfe⟩ := exists_head_le ho he
  have := hahead f (mem_of_mem_head? hf)
  have := hno f hf
  omega

section Side

variable {edits others : List Edit} (ho : OrderedEdits n edits) (hsuf : es <:+ edits)
include ho hsuf

/-- The edits left after a region start behind it. -/
theorem region_ahead (hahead : e ∈ es → st.pos ≤ e.start)
    (hc : ConflictRegions n edits others m.conflicts) (hr : r ∈ m.conflicts) (hpos : r.1 = st.pos)
    (he : e ∈ es.dropWhile fun e => e.stop ≤ r.2) : r.2 ≤ e.start := by
  have hmem : e ∈ es := (dropWhile_sublist _).subset he
  have hle := hahead hmem
  by_contra hlt
  have := hc.stop_le ho (hsuf.subset hmem) hr (by omega) (by omega)
  have := ho.start_le e (hsuf.subset hmem)
  have := mem_of_mem_dropWhile (ho.ordered.sublist hsuf.sublist) he
  omega

variable (hahead : ∀ e ∈ es, st.pos ≤ e.start)
include hahead

/-- A region accounts for all the edits it skips but the insertions right behind it. -/
theorem region_skipsNone (hc : ConflictRegions n edits others m.conflicts)
    (hrs : st.regions = r :: st'.regions) (hr : r ∈ m.conflicts) (hpos : r.1 = st.pos)
    (hpos' : st'.pos = r.2) (hes : es' = es.dropWhile fun e => e.stop ≤ r.2)
    (hend : ∀ e ∈ edits, e.IsInsert → e.start ≠ r.2) : SkipsNone st st' es es' where
  ahead e he := by
    rw [hpos']
    exact region_ahead ho hsuf (hahead e) hc hr hpos (hes ▸ he)
  consumed := by
    refine ⟨es.takeWhile fun e => e.stop ≤ r.2, ?_, fun e he => .inr ⟨r, hrs, ?_, ?_⟩⟩
    · rw [hes, takeWhile_append_dropWhile]
    · rw [hpos]
      exact hahead e ((takeWhile_sublist _).subset he)
    · have hmem : e ∈ edits := hsuf.subset ((takeWhile_sublist _).subset he)
      have hstop : e.stop ≤ r.2 := by simpa using mem_takeWhile_imp he
      have hle := ho.start_le e hmem
      by_contra hlt
      exact hend e hmem (show e.start = e.stop by omega) (by omega)

/-- Writing an edit keeps the edits of its own side ahead. -/
theorem pushEdit_skipsNone (hes : es = e :: es') (hpos : e.start = st.pos)
    (hpos' : st'.pos = (pushEdit st e).pos) (hm' : st'.merged = (pushEdit st e).merged) :
    SkipsNone st st' es es' where
  ahead f hf := by
    have hord := ho.ordered.sublist hsuf.sublist
    rw [hes, pairwise_cons] at hord
    have := hord.1 f hf
    have := hahead f (hes ▸ mem_cons_of_mem _ hf)
    rw [hpos', pushEdit]
    split <;> omega
  consumed := by
    refine ⟨[e], hes, fun f hf => ?_⟩
    rw [List.mem_singleton.mp hf]
    exact .inl ⟨hpos, hm'⟩

/-- Writing an edit of the other side passes only an insertion on its first line. -/
theorem kept_of_pushEdit (hpos : f.start = st.pos) (hpos' : st'.pos = (pushEdit st f).pos)
    (hover : ∀ e ∈ edits, ¬ f.Overlaps e)
    (hins : ¬ f.IsInsert → ∀ e ∈ es, e.IsInsert → e.start ≠ f.start) : SkipsNone st st' es es where
  ahead e he := by
    have hle := hahead e he
    have hstop := ho.start_le e (hsuf.subset he)
    rw [hpos']
    simp only [pushEdit]
    split
    next hne =>
      by_contra hlt
      have hstop' : e.stop ≤ f.start := by
        by_contra h
        exact hover e (hsuf.subset he) ⟨by omega, by omega⟩
      exact hins hne e he (show e.start = e.stop by omega) (by omega)
    · exact hle
  consumed := ⟨[], rfl, by simp⟩

end Side

/-- With no insertion on the first line of a local edit and none right behind a region, no
iteration skips an edit. -/
theorem LoopInv.noEditSkipped (hm : m.Valid) (hi : LoopInv m st) (h : m.mergeStep st = some st')
    (h1 : ¬ m.InsertAtLocalEdit) (h2 : ¬ m.InsertAtRegionEnd) : NoEditSkipped st st' := by
  have hlo := hm.locals.suffix hi.locals
  rcases mergeStep_cases h with ⟨r, rs, hrs, hpos, h⟩ | ⟨hno, h⟩
  · obtain ⟨hpos', hrs', hl, hre⟩ := emitConflict_eq h
    have hr : r ∈ m.conflicts := hi.regions.subset (by simp [hrs])
    have hrs : st.regions = r :: st'.regions := by rw [hrs', hrs, tail_cons]
    constructor
    · refine region_skipsNone hm.locals hi.locals hi.locals_ahead hm.regions hrs hr hpos hpos' hl ?_
      exact fun e he hins heq => h2 ⟨r, hr, e, mem_append_left _ he, hins, heq⟩
    · refine region_skipsNone hm.remotes hi.remotes hi.remotes_ahead hm.regions.symm hrs hr hpos
        hpos' hre ?_
      exact fun e he hins heq => h2 ⟨r, hr, e, mem_append_right _ he, hins, heq⟩
  · rcases h with ⟨e, es, hes, hpos, rfl⟩ | ⟨hl, ⟨f, fs, hfs, hpos, rfl⟩ | ⟨-, lines, rfl⟩⟩
    · have he : e ∈ m.localEdits := hi.locals.subset (by simp [hes])
      have hover := fun f hf => hi.cursors.not_overlaps (f := f) hm.regions hno he hpos hf
      constructor
      · exact pushEdit_skipsNone hm.locals hi.locals hi.locals_ahead hes hpos rfl rfl
      · refine kept_of_pushEdit hm.remotes hi.remotes hi.remotes_ahead hpos rfl
          hover fun hne f hf hins heq => ?_
        exact h1 ⟨e, he, f, hi.remotes.subset hf, hne, hins, heq, hover⟩
    · have hf : f ∈ m.remoteEdits := hi.remotes.subset (by simp [hfs])
      have hover := fun e he => hi.cursors.not_overlaps (f := e) hm.regions.symm hno hf hpos he
      constructor
      · refine kept_of_pushEdit hm.locals hi.locals hi.locals_ahead hpos rfl hover
          fun _ e he _ heq => ?_
        have := start_lt_of_head_ne hlo hi.locals_ahead hl he
        omega
      · exact pushEdit_skipsNone hm.remotes hi.remotes hi.remotes_ahead hfs hpos
          rfl rfl
    · have hle := (nextEvent_spec (m := m) fun x => hi.nextStarts_ahead).1
      constructor
      · refine ⟨fun e he => ?_, [], rfl, by simp⟩
        obtain ⟨f, hf, hfe⟩ := exists_head_le hlo he
        exact (hle _ (mem_nextStarts.mpr (.inr (.inl ⟨f, hf, rfl⟩)))).trans hfe
      · refine ⟨fun e he => ?_, [], rfl, by simp⟩
        obtain ⟨f, hf, hfe⟩ := exists_head_le (hm.remotes.suffix hi.remotes) he
        exact (hle _ (mem_nextStarts.mpr (.inr (.inr ⟨f, hf, rfl⟩)))).trans hfe

theorem SkipsNone.suffix {es es' : List Edit} (h : SkipsNone st st' es es') : es' <:+ es := by
  obtain ⟨used, hused, -⟩ := h.consumed
  exact ⟨used, hused.symm⟩

theorem Cursors.pos_le_region (hm : m.Valid) (hi : Cursors m st) (h : m.mergeStep st = some st')
    (hr : r ∈ st'.regions) : st'.pos ≤ r.1 := by
  rcases mergeStep_cases h with ⟨r0, rs, hrs, hpos, h⟩ | ⟨hno, h⟩
  · obtain ⟨hpos', hrs', -⟩ := emitConflict_eq h
    have hsep := hm.regions.separated.sublist hi.regions.sublist
    rw [hrs, pairwise_cons] at hsep
    rw [hpos']
    exact (hsep.1 r (by rwa [hrs', hrs] at hr)).le
  · have hlt := fun hr => hi.lt_region (r := r) hm.regions hno hr
    rcases h with ⟨e, es, hes, hpos, rfl⟩ | ⟨hl, ⟨e, es, hes, hpos, rfl⟩ | ⟨-, lines, rfl⟩⟩
    · have he : e ∈ m.localEdits := hi.locals.subset (by simp [hes])
      have := hlt hr
      have := hm.regions.stop_le_of_start_lt hm.locals he (hi.regions.subset hr) (by omega)
      simp only [pushEdit]
      split <;> omega
    · have he : e ∈ m.remoteEdits := hi.remotes.subset (by simp [hes])
      have := hlt hr
      have := hm.regions.symm.stop_le_of_start_lt hm.remotes he (hi.regions.subset hr) (by omega)
      simp only [pushEdit]
      split <;> omega
    · obtain ⟨r0, hr0, hle⟩ := hi.head_region_le hm.regions hr
      exact (hi.nextEvent_le_region hr0).trans hle

theorem regions_of_mergeStep (h : m.mergeStep st = some st') :
    st'.regions = st.regions ∨ st.regions = (st.pos, st'.pos) :: st'.regions := by
  rcases (sideStep_of_mergeStep h).1 with ⟨r, hr, hpos, hpos', -⟩ | ⟨_, hr, -⟩ | ⟨hr, -⟩
  · exact .inr (by rw [hr, ← hpos, hpos'])
  · exact .inl hr
  · exact .inl hr

theorem Cursors.step (hm : m.Valid) (hi : Cursors m st) (h : m.mergeStep st = some st')
    (hahead : ∀ e ∈ st'.locals, st'.pos ≤ e.start) : Cursors m st' where
  pos_le := (hi.pos_bounds hm h).2
  locals := (sideStep_of_mergeStep h).1.suffix.trans hi.locals
  remotes := (sideStep_of_mergeStep h).2.suffix.trans hi.remotes
  regions := by
    rcases regions_of_mergeStep h with hr | hr
    · exact hr ▸ hi.regions
    · exact (suffix_cons _ _).trans (hr ▸ hi.regions)
  locals_ahead := hahead
  regions_ahead r hr := hi.pos_le_region hm h hr
  regions_behind r hr := by
    have hpos := (hi.pos_bounds hm h).1
    rcases hi.regions_behind r hr with hmem | hle
    · rcases regions_of_mergeStep h with hrs | hrs
      · exact .inl (hrs ▸ hmem)
      · rcases List.mem_cons.mp (hrs ▸ hmem) with rfl | hmem
        · exact .inr le_rfl
        · exact .inl hmem
    · exact .inr (hle.trans hpos)

theorem LoopInv.step (hm : m.Valid) (hi : LoopInv m st) (h : m.mergeStep st = some st')
    (hs : NoEditSkipped st st') : LoopInv m st' :=
  { hi.cursors.step hm h hs.1.ahead with remotes_ahead := hs.2.ahead }

/-- What is left of the base and of both edit lists. -/
def remaining (m : MergeInput) (st : MergeState) : Nat :=
  (m.baseLines.length - st.pos) + st.locals.length + st.remotes.length

theorem LoopInv.remaining_lt (hm : m.Valid) (hi : LoopInv m st) (h : m.Iterates st st')
    (hs : NoEditSkipped st st') : m.remaining st' < m.remaining st := by
  have hadv := hi.advances hm h
  have hpos := (hi.cursors.pos_bounds hm h.2).1
  have hpos' := (hi.step hm h.2 hs).pos_le
  have hl := (SkipsNone.suffix hs.1).length_le
  have hr := (SkipsNone.suffix hs.2).length_le
  unfold Advances at hadv
  unfold remaining
  omega

theorem Reaches.loopInv_of_not_insert (hm : m.Valid) (h1 : ¬ m.InsertAtLocalEdit)
    (h2 : ¬ m.InsertAtRegionEnd) (h : m.Reaches st) : LoopInv m st := by
  induction h with
  | refl => exact loopInv_init
  | tail _ h ih => exact ih.step hm h.2 (ih.noEditSkipped hm h.2 h1 h2)

/-- A loop that skips no edit stops, from any state that satisfies the invariant. -/
theorem LoopInv.exists_mergeLoop (hm : m.Valid) (h1 : ¬ m.InsertAtLocalEdit)
    (h2 : ¬ m.InsertAtRegionEnd) (k : Nat) (hi : LoopInv m st) (hk : m.remaining st ≤ k) :
    ∃ st', m.mergeLoop k st = some st' := by
  induction k generalizing st with
  | zero =>
    by_cases hrun : m.running st = true
    · obtain ⟨st', h⟩ := hi.cursors.exists_mergeStep hm
      have := hi.remaining_lt hm ⟨hrun, h⟩ (hi.noEditSkipped hm h h1 h2)
      omega
    · exact ⟨st, by rw [mergeLoop, if_neg hrun]⟩
  | succ k ih =>
    by_cases hrun : m.running st = true
    · obtain ⟨st', h⟩ := hi.cursors.exists_mergeStep hm
      have hs := hi.noEditSkipped hm h h1 h2
      have hlt := hi.remaining_lt hm ⟨hrun, h⟩ hs
      rw [mergeLoop, if_pos hrun, h, Option.bind_some]
      exact ih (hi.step hm h hs) (by omega)
    · exact ⟨st, by rw [mergeLoop, if_neg hrun]⟩

/-- A loop that returns ends in a state in which its condition fails, and takes an iteration from
every other one. -/
theorem mergeLoop_induction {P : Nat → MergeState → Prop} {k : Nat}
    (h : m.mergeLoop k st = some st') (stop : ∀ k, m.running st' = false → P k st')
    (step : ∀ {k st st1}, m.running st = true → m.mergeStep st = some st1 → P k st1 → P (k + 1) st) :
    P k st := by
  induction k generalizing st with
  | zero =>
    rw [mergeLoop] at h
    split at h
    · simp at h
    next hrun =>
      obtain rfl := Option.some.inj h
      exact stop 0 (Bool.eq_false_of_not_eq_true hrun)
  | succ k ih =>
    rw [mergeLoop] at h
    split at h
    next hrun =>
      obtain ⟨st1, h1, h⟩ := Option.bind_eq_some_iff.mp h
      exact step hrun h1 (ih h)
    next hrun =>
      obtain rfl := Option.some.inj h
      exact stop _ (Bool.eq_false_of_not_eq_true hrun)

theorem reflTransGen_of_mergeLoop {k : Nat} (h : m.mergeLoop k st = some st') :
    Relation.ReflTransGen m.Iterates st st' ∧ m.running st' = false :=
  mergeLoop_induction (P := fun _ st => Relation.ReflTransGen m.Iterates st st' ∧ _) h
    (fun _ hstop => ⟨.refl, hstop⟩) fun hrun h1 ih => ⟨.head ⟨hrun, h1⟩ ih.1, ih.2⟩

section Converse

variable (hm : m.Valid)
  (hs : ∀ {st st'}, m.Reaches st → m.Iterates st st' → NoEditSkipped st st')

include hm hs

section
variable (h : m.Reaches st)
include h

theorem Reaches.loopInv : LoopInv m st := by
  induction h with
  | refl => exact loopInv_init
  | tail hreach h ih => exact ih.step hm h.2 (hs hreach h)

/-- A remote insertion on the first line of an unconflicted local edit stays under the cursor
until that edit is written, so a loop that skips nothing never writes the edit. -/
theorem Reaches.insert_waits (he : e ∈ m.localEdits)
    (hf : f ∈ m.remoteEdits) (hne : ¬ e.IsInsert) (hpos : f.start = e.start)
    (hover : ∀ g ∈ m.remoteEdits, ¬ e.Overlaps g) : e ∈ st.locals ∧ f ∈ st.remotes := by
  have hle : e.start < e.stop := lt_of_le_of_ne (hm.locals.start_le e he) hne
  -- no region covers the line both edits start at
  have hfree : ∀ r ∈ m.conflicts, r.1 ≤ e.start → ¬ e.start < r.2 := by
    intro r hr h1 h2
    obtain ⟨-, g, hg, hov⟩ := hm.regions.encloses hm.locals he hr h1 h2 le_rfl hle
    exact hover g hg hov
  induction h with
  | refl => exact ⟨he, hf⟩
  | @tail st st' hreach h ih =>
    have hi := Reaches.loopInv hm hs hreach
    have hskip := hs hreach h
    obtain ⟨hel, hfr⟩ := ih
    rcases mergeStep_cases h.2 with ⟨r, rs, hrs, hrpos, hstep⟩ | ⟨-, hstep⟩
    · obtain ⟨-, hrs', -⟩ := emitConflict_eq hstep
      have hr : r ∈ m.conflicts := hi.regions.subset (by simp [hrs])
      -- an edit the region consumed would start inside it
      have hin : ∀ g : Edit, MergeState.Accounted st st' g → g.start = e.start → False := by
        rintro g (⟨hg, -⟩ | ⟨r', hr', h1, h2⟩) heq
        · have := hm.regions.nonempty r hr
          exact hfree r hr (by omega) (by omega)
        · exact hfree r' (hi.regions.subset (by simp [hr'])) (by omega) (by omega)
      obtain ⟨used, hused, hacc⟩ := hskip.1.consumed
      obtain ⟨used', hused', hacc'⟩ := hskip.2.consumed
      constructor
      · exact (List.mem_append.mp (hused ▸ hel)).resolve_left fun h => hin e (hacc e h) rfl
      · exact (List.mem_append.mp (hused' ▸ hfr)).resolve_left fun h => hin f (hacc' f h) hpos
    · rcases hstep with ⟨g, es, hes, hgpos, rfl⟩ | ⟨hno, ⟨g, es, hes, hgpos, rfl⟩ | ⟨-, _, rfl⟩⟩
      · refine ⟨(List.mem_cons.mp (hes ▸ hel)).resolve_left ?_, hfr⟩
        rintro rfl
        have := hskip.2.ahead f hfr
        simp only [pushEdit, if_pos hle.ne] at this
        omega
      · refine ⟨hel, (List.mem_cons.mp (hes ▸ hfr)).resolve_left ?_⟩
        rintro rfl
        have := start_lt_of_head_ne (hm.locals.suffix hi.locals) hi.locals_ahead hno hel
        omega
      · exact ⟨hel, hfr⟩

/-- An insertion right behind a region stays under its cursor until the region is written, so
a loop that skips nothing never writes the region. -/
theorem Reaches.region_waits {edits : MergeState → List Edit}
    (hside : ∀ {st st'}, m.mergeStep st = some st' → SideStep st st' (edits st) (edits st'))
    (hsuf : ∀ {st}, LoopInv m st → OrderedEdits m.baseLines.length (edits st))
    (hskips : ∀ {st st'}, NoEditSkipped st st' → SkipsNone st st' (edits st) (edits st'))
    (hr : r ∈ m.conflicts) (he : e ∈ edits m.init) (hins : e.IsInsert) (hpos : e.start = r.2) :
    r ∈ st.regions ∧ e ∈ edits st := by
  have hne := hm.regions.nonempty r hr
  induction h with
  | refl => exact ⟨hr, he⟩
  | @tail st st' hreach h ih =>
    have hi := Reaches.loopInv hm hs hreach
    have hskip := hskips (hs hreach h)
    obtain ⟨hrs, hes⟩ := ih
    have hahead := hi.regions_ahead r hrs
    rcases hside h.2 with ⟨r', hr', hrpos, hrpos', hes'⟩ | ⟨g, hr', hes', hgpos, -⟩ | ⟨hr', hes'⟩
    · obtain ⟨used, hused, hacc⟩ := hskip.consumed
      have hmem : e ∈ edits st' := by
        refine (List.mem_append.mp (hused ▸ hes)).resolve_left fun hmem => ?_
        rcases hacc e hmem with ⟨heq, -⟩ | ⟨r1, hr1, h1, h2⟩
        · omega
        · have hr1' := hi.regions.subset (show r1 ∈ st.regions by simp [hr1])
          rcases hm.regions.eq_or_separated hr hr1' with rfl | hlt | hlt
          · omega
          · omega
          · omega
      refine ⟨(List.mem_cons.mp (hr' ▸ hrs)).resolve_left ?_, hmem⟩
      rintro rfl
      have := mem_of_mem_dropWhile (hsuf hi).ordered (hes' ▸ hmem)
      unfold Edit.IsInsert at hins
      omega
    · refine ⟨hr' ▸ hrs, (List.mem_cons.mp (hes' ▸ hes)).resolve_left ?_⟩
      rintro rfl
      omega
    · exact ⟨hr' ▸ hrs, hes' ▸ hes⟩

theorem not_insertAtLocalEdit (hstop : m.running st = false) : ¬ m.InsertAtLocalEdit := by
  rintro ⟨e, he, f, hf, hne, -, hpos, hover⟩
  have hmem := (Reaches.insert_waits hm hs h he hf hne hpos hover).1
  cases hl : st.locals <;> simp_all [running]

theorem not_insertAtRegionEnd (hstop : m.running st = false) : ¬ m.InsertAtRegionEnd := by
  rintro ⟨r, hr, e, he, hins, hpos⟩
  have hmem : r ∈ st.regions := by
    rcases List.mem_append.mp he with he | he
    · exact (Reaches.region_waits hm hs h (fun h => (sideStep_of_mergeStep h).1)
        (fun hi => hm.locals.suffix hi.locals) (fun h => h.1) hr he hins hpos).1
    · exact (Reaches.region_waits hm hs h (fun h => (sideStep_of_mergeStep h).2)
        (fun hi => hm.remotes.suffix hi.remotes) (fun h => h.2) hr he hins hpos).1
  have := (Reaches.loopInv hm hs h).regions_ahead r hmem
  have := hm.regions.nonempty r hr
  have := hm.regions.bounded r hr
  simp [running] at hstop
  omega

end

end Converse

end MergeInput

open MergeInput

/-- Neither side equals the base or the other, so that the merge enters its main loop. -/
def BothChanged (base localText remoteText : String) : Prop :=
  localText ≠ remoteText ∧ localText ≠ base ∧ remoteText ≠ base

/-- The merge returns, and every iteration of its main loop makes progress and skips no edit. -/
structure MergeTerminates (textDiff : String → String → List DiffOp)
    (base localText remoteText : String) : Prop where
  returns : ∃ fuel, (threeWayMerge textDiff fuel base localText remoteText).isSome
  iterates : BothChanged base localText remoteText →
    ∀ m, mergeInput textDiff base localText remoteText = some m →
      ∀ st st', m.Reaches st → m.Iterates st st' → Advances st st' ∧ NoEditSkipped st st'

theorem exists_mergeInput
    (hl : EditScript (splitLines base) (splitLines localText) (textDiff base localText))
    (hr : EditScript (splitLines base) (splitLines remoteText) (textDiff base remoteText)) :
    ∃ m, mergeInput textDiff base localText remoteText = some m ∧ m.Valid := by
  obtain ⟨es, hes, ho, -⟩ := hl.fromDiff
  obtain ⟨fs, hfs, ho', -⟩ := hr.fromDiff
  refine ⟨⟨splitLines base, es, fs⟩, ?_, ho, ho'⟩
  rw [mergeInput, hes, hfs]
  rfl

theorem threeWayMerge_of_bothChanged {fuel : Nat} (h : BothChanged base localText remoteText)
    (hm : mergeInput textDiff base localText remoteText = some m) :
    threeWayMerge textDiff fuel base localText remoteText =
      (m.mergeLoop fuel m.init).map fun st => ⟨st.merged, st.hasConflicts, st.conflictCount⟩ := by
  rw [threeWayMerge, if_neg h.1, if_neg h.2.1, if_neg h.2.2, hm]
  cases hloop : m.mergeLoop fuel m.init <;> simp [hloop]

theorem threeWayMerge_of_not_bothChanged (h : ¬ BothChanged base localText remoteText) :
    (threeWayMerge textDiff 0 base localText remoteText).isSome := by
  unfold threeWayMerge
  split
  · rfl
  · split
    · rfl
    · split
      · rfl
      · exact absurd ⟨‹_›, ‹_›, ‹_›⟩ h

/-- The merge returns, making progress and skipping no edit, exactly when no remote insertion
sits on the first line of a local edit that is in no conflict and no insertion sits right
behind a conflict region. -/
theorem threeWayMerge_terminates_iff
    (hl : EditScript (splitLines base) (splitLines localText) (textDiff base localText))
    (hr : EditScript (splitLines base) (splitLines remoteText) (textDiff base remoteText)) :
    MergeTerminates textDiff base localText remoteText ↔ (BothChanged base localText remoteText →
        ∀ m, mergeInput textDiff base localText remoteText = some m →
          ¬ m.InsertAtLocalEdit ∧ ¬ m.InsertAtRegionEnd) := by
  obtain ⟨m, hm, hv⟩ := exists_mergeInput hl hr
  constructor
  · rintro ⟨⟨fuel, hret⟩, hit⟩ hboth m' hm'
    obtain rfl : m = m' := Option.some.inj (hm.symm.trans hm')
    rw [threeWayMerge_of_bothChanged hboth hm, Option.isSome_map, Option.isSome_iff_exists] at hret
    obtain ⟨st, hst⟩ := hret
    obtain ⟨hreach, hstop⟩ := reflTransGen_of_mergeLoop hst
    have hs : ∀ {st st'}, m.Reaches st → m.Iterates st st' → NoEditSkipped st st' :=
      fun h h' => (hit hboth m hm _ _ h h').2
    exact ⟨not_insertAtLocalEdit hv hs hreach hstop, not_insertAtRegionEnd hv hs hreach hstop⟩
  · intro hcond
    by_cases hboth : BothChanged base localText remoteText
    · obtain ⟨h1, h2⟩ := hcond hboth m hm
      constructor
      · obtain ⟨st, hst⟩ := loopInv_init.exists_mergeLoop hv h1 h2 _ le_rfl
        exact ⟨m.remaining m.init, by rw [threeWayMerge_of_bothChanged hboth hm, hst]; rfl⟩
      · rintro - m' hm' st st' hreach h
        obtain rfl : m = m' := Option.some.inj (hm.symm.trans hm')
        have hi := Reaches.loopInv_of_not_insert hv h1 h2 hreach
        exact ⟨hi.advances hv h, hi.noEditSkipped hv h.2 h1 h2⟩
    · exact ⟨⟨0, threeWayMerge_of_not_bothChanged hboth⟩, fun h => absurd h hboth⟩

/-- A local change of the second of three lines and a remote line added at the end. -/
def changeAndAppendDiff (_base side : String) : List DiffOp :=
  if side = "a\nB\nc\n" then [.equal 0 0 1, .replace 1 1 1 1, .equal 2 2 1]
  else [.equal 0 0 3, .insert 3 3 1]

theorem threeWayMerge_change_and_append :
    MergeTerminates changeAndAppendDiff "a\nb\nc\n" "a\nB\nc\n" "a\nb\nc\nd\n" := by
  refine (threeWayMerge_terminates_iff (by decide) (by decide)).mpr fun _ m hm => ?_
  have hm' : mergeInput changeAndAppendDiff "a\nb\nc\n" "a\nB\nc\n" "a\nb\nc\nd\n" =
      some ⟨["a\n", "b\n", "c\n"], [⟨1, 2, ["B\n"]⟩], [⟨3, 3, ["d\n"]⟩]⟩ := by decide
  obtain rfl := Option.some.inj (hm'.symm.trans hm)
  decide

/-- `n` iterations of the main loop. -/
def MergeInput.iterate (m : MergeInput) : Nat → MergeState → Option MergeState
  | 0, st => some st
  | n + 1, st => if m.running st then (m.mergeStep st).bind (m.iterate n) else none

theorem MergeInput.mergeLoop_eq_none_of_iterate (h : m.iterate n st = some st')
    (hloop : ∀ k, m.mergeLoop k st' = none) (k : Nat) : m.mergeLoop k st = none := by
  induction n generalizing st k with
  | zero =>
    obtain rfl := some.inj h
    exact hloop k
  | succ n ih =>
    rw [iterate] at h
    split at h
    next hrun =>
      obtain ⟨st1, h1, h⟩ := bind_eq_some_iff.mp h
      cases k with
      | zero => rw [mergeLoop, if_pos hrun]
      | succ k => rw [mergeLoop, if_pos hrun, h1, bind_some, ih h]
    · simp at h

/-- A loop that comes to a state it does not leave never returns. -/
theorem MergeInput.mergeLoop_eq_none_of_stuck (h : m.iterate n st = some st')
    (hstuck : m.iterate 1 st' = some st') (k : Nat) : m.mergeLoop k st = none := by
  refine mergeLoop_eq_none_of_iterate h (fun k => ?_) k
  induction k with
  | zero =>
    simp only [iterate] at hstuck
    split at hstuck
    next hrun => rw [mergeLoop, if_pos hrun]
    · simp at hstuck
  | succ k ih =>
    simp only [iterate] at hstuck
    split at hstuck
    next hrun =>
      obtain ⟨st1, h1, h⟩ := bind_eq_some_iff.mp hstuck
      obtain rfl := some.inj h
      rw [mergeLoop, if_pos hrun, h1, bind_some, ih]
    · simp at hstuck

/-- The line diffs of a base of four lines with a side that changes the third line and a side
that drops the first line and adds one before the third. -/
def dropAndInsertDiff (_base side : String) : List DiffOp :=
  if side = "a\nb\nC\nd\n" then [.equal 0 0 2, .replace 2 1 2 1, .equal 3 3 1]
  else [.delete 0 1 0, .equal 1 0 1, .insert 2 1 1, .equal 2 2 2]

/-- The remote insertion before the third line is behind the position once the local change
of that line is written, and the loop never comes back to it. -/
theorem threeWayMerge_never_returns :
    EditScript (splitLines "a\nb\nc\nd\n") (splitLines "a\nb\nC\nd\n")
      (dropAndInsertDiff "a\nb\nc\nd\n" "a\nb\nC\nd\n") ∧
    EditScript (splitLines "a\nb\nc\nd\n") (splitLines "b\nNEW\nc\nd\n")
      (dropAndInsertDiff "a\nb\nc\nd\n" "b\nNEW\nc\nd\n") ∧
    ¬ MergeTerminates dropAndInsertDiff "a\nb\nc\nd\n" "a\nb\nC\nd\n" "b\nNEW\nc\nd\n" ∧
    ∀ fuel, threeWayMerge dropAndInsertDiff fuel "a\nb\nc\nd\n" "a\nb\nC\nd\n"
      "b\nNEW\nc\nd\n" = none := by
  have hloop : ∀ fuel, threeWayMerge dropAndInsertDiff fuel "a\nb\nc\nd\n" "a\nb\nC\nd\n"
      "b\nNEW\nc\nd\n" = none := by
    intro fuel
    have hboth : BothChanged "a\nb\nc\nd\n" "a\nb\nC\nd\n" "b\nNEW\nc\nd\n" := by
      unfold BothChanged
      decide
    let m : MergeInput := ⟨["a\n", "b\n", "c\n", "d\n"], [⟨2, 3, ["C\n"]⟩],
      [⟨0, 1, []⟩, ⟨1, 2, ["b\n"]⟩, ⟨2, 2, ["NEW\n"]⟩]⟩
    let stuck : MergeState := ⟨"b\nC\n", false, 0, 3, [], [⟨2, 2, ["NEW\n"]⟩], []⟩
    have hstuck : m.iterate 3 m.init = some stuck := by decide
    rw [threeWayMerge_of_bothChanged (m := m) hboth (by decide),
      mergeLoop_eq_none_of_stuck hstuck (by decide)]
    rfl
  refine ⟨by decide, by decide, fun h => ?_, hloop⟩
  obtain ⟨fuel, hret⟩ := h.returns
  simp [hloop fuel] at hret

end Syncthing
