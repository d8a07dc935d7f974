import Syncthing.Sync.IndependentEdits
import Mathlib.Algebra.GroupWithZero.Nat

/-! What a conflicted output keeps of both sides. Resolving each block to one side should give the
text with all edits of that side and the edits of the other that are in no region. -/
namespace Syncthing

open MergeInput MergeState Splice List Bool String

variable {m : MergeInput} {st : MergeState} {e f : Edit} {r : Nat × Nat} {rs : List (Nat × Nat)}
  {n pos b fuel : Nat} {side : Side} {d : Draft} {res : MergeResult}
  {textDiff : String → String → List DiffOp} {base localText remoteText : String} {s : SideEdit}
  {es : List SideEdit}

/-- A marker behind the text is on a line of its own. -/
def Terminated (text : String) : Prop := text = "" ∨ text.toList.getLast? = some '\n'

instance (text : String) : Decidable (Terminated text) := inferInstanceAs (Decidable (_ ∨ _))

def Block.text (b : Block) : Side → String
  | .localSide => b.localSide
  | .remoteSide => b.remoteSide

/-- The output with each block replaced by one of its sides. -/
def Draft.resolve (d : Draft) (side : Side) : String :=
  join (d.blocks.map fun b => b.before ++ b.text side) ++ d.tail

namespace MergeInput

variable (m)

/-- The edits of both sides, in base order. -/
def allEdits : List SideEdit := interleave m.localEdits m.remoteEdits

variable (side)

def regionEdits (r : Nat × Nat) : List SideEdit :=
  ((m.edits side).filter fun e => r.1 ≤ e.start ∧ e.start < r.2).map (·.on side)

/-- The text of one side for the base lines of a region. -/
def regionText (r : Nat × Nat) : String :=
  join (applyFrom m.baseLines r.2 r.1 (m.regionEdits side r))

/-- All edits of one side and those of the other that are in no region. -/
def resolvedEdits : List SideEdit := m.allEdits.filter fun e => e.source = side || !m.inRegion e

def resolvedText : String :=
  join (applyFrom m.baseLines m.baseLines.length 0 (m.resolvedEdits side))

variable {side}

/-- The regions, each with the end of the one before. -/
def gaps : List (Nat × (Nat × Nat)) := (0 :: m.conflicts.map Prod.snd).zip m.conflicts

/-- The text between two regions, with the edits that are written there. -/
def gapText (gap : Nat × (Nat × Nat)) : String :=
  join (applyFrom m.baseLines gap.2.1 gap.1
    (m.allEdits.filter fun e => m.written e && gap.1 ≤ e.start && e.start < gap.2.1))

end MergeInput

/-- The sides of each block are the texts of the sides for its region, with the markers on lines of
their own, and no edit of a side is lost when the blocks are resolved to it. -/
structure LosesNothing (m : MergeInput) (d : Draft) : Prop where
  sides : ∀ side, d.blocks.map (·.text side) = m.conflicts.map (m.regionText side)
  own_lines : ∀ b ∈ d.blocks, Terminated b.before ∧ ∀ side, Terminated (b.text side)
  resolved : ∀ side, d.resolve side = m.resolvedText side

/-- When a merge input has a conflicted output that loses nothing. -/
structure ConflictsKept (m : MergeInput) : Prop where
  /-- The edits of a side behind its first one in a region change no text. -/
  first_only : ∀ side, ∀ r ∈ m.conflicts, ∀ e es, m.regionEdits side r = e :: es →
    join (applyFrom m.baseLines r.2 e.stop es) =
      join ((m.baseLines.drop e.stop).take (r.2 - e.stop))
  /-- The insertions that the loop drops insert nothing. -/
  inserts : ∀ e ∈ m.allEdits, m.atRegionEnd e = true ∨ m.passedOver e = true → e.lines = []
  terminated : (∀ side, ∀ r ∈ m.conflicts, Terminated (m.regionText side r)) ∧
    ∀ gap ∈ m.gaps, Terminated (m.gapText gap)

/-! ### The sides of a block -/

theorem map_side_draftFrom {ss : List SideEdit} :
    (m.draftFrom rs pos ss).blocks.map (·.text side) = rs.map (m.sideText side) := by
  induction rs generalizing pos ss with
  | nil => rfl
  | cons r rs ih =>
    rw [draftFrom, map_cons, map_cons, ih]
    cases side <;> rfl

theorem orderedEdits_edits (hm : m.Valid) (side : Side) :
    OrderedEdits m.baseLines.length (m.edits side) := by
  cases side with
  | localSide => exact hm.locals
  | remoteSide => exact hm.remotes

theorem stop_le_of_start_in (hm : m.Valid) (he : e ∈ m.edits side) (hr : r ∈ m.conflicts)
    (h1 : r.1 ≤ e.start) (h2 : e.start < r.2) : e.stop ≤ r.2 := by
  cases side with
  | localSide => exact hm.regions.stop_le hm.locals he hr h1 h2
  | remoteSide => exact hm.regions.symm.stop_le hm.remotes he hr h1 h2

theorem stop_le_of_start_before (hm : m.Valid) (he : e ∈ m.edits side) (hr : r ∈ m.conflicts)
    (h1 : e.start < r.1) : e.stop ≤ r.1 := by
  cases side with
  | localSide => exact hm.regions.stop_le_of_start_lt hm.locals he hr h1
  | remoteSide => exact hm.regions.symm.stop_le_of_start_lt hm.remotes he hr h1

/-- `build_side` gives the text of the side just when the edits behind the first one do not
matter. -/
theorem sideText_eq_iff (hm : m.Valid) (hr : r ∈ m.conflicts) :
    m.sideText side r = m.regionText side r ↔ ∀ e es, m.regionEdits side r = e :: es →
      join (applyFrom m.baseLines r.2 e.stop es) =
        join ((m.baseLines.drop e.stop).take (r.2 - e.stop)) := by
  have hne := hm.regions.nonempty r hr
  have hle := hm.regions.bounded r hr
  have hfind : (m.edits side).find? (fun e => r.1 ≤ e.start ∧ e.start < r.2) =
      ((m.edits side).filter fun e => r.1 ≤ e.start ∧ e.start < r.2).head? :=
    head?_filter.symm
  unfold sideText regionText regionEdits buildSide
  rw [hfind]
  cases hes : (m.edits side).filter fun e => r.1 ≤ e.start ∧ e.start < r.2 with
  | nil =>
    rw [head?_nil, slice_isSome hne.le hle]
    simp [applyFrom]
  | cons e es =>
    obtain ⟨he, hin⟩ := mem_filter.mp (hes ▸ mem_cons_self : e ∈ (m.edits side).filter _)
    have hin : r.1 ≤ e.start ∧ e.start < r.2 := by simpa using hin
    have hstop := stop_le_of_start_in hm he hr hin.1 hin.2
    have hstart := (orderedEdits_edits hm side).start_le e he
    rw [head?_cons, map_cons, applyFrom]
    dsimp only
    rw [slice_isSome hin.1 (hstart.trans (hstop.trans hle)), slice_isSome hstop hle]
    simp only [Option.bind_some, Option.pure_def, Option.getD_some, Option.bind_eq_bind,
      String.join_append]
    constructor
    · rintro h _ _ ⟨⟩
      exact ((String.append_right_inj _).mp h).symm
    · intro h
      exact (String.append_right_inj _).mpr (h _ _ rfl).symm

/-! ### Resolving the blocks -/

/-- The regions that a draft still has to write, from `pos` on. -/
structure RegionsFrom (n pos : Nat) (rs : List (Nat × Nat)) : Prop where
  separated : rs.Pairwise fun r r' => r.2 < r'.1
  nonempty : ∀ r ∈ rs, r.1 < r.2
  bounded : ∀ r ∈ rs, r.2 ≤ n
  ahead : ∀ r ∈ rs, pos ≤ r.1

theorem RegionsFrom.tail (h : RegionsFrom n pos (r :: rs)) : RegionsFrom n r.2 rs where
  separated := h.separated.of_cons
  nonempty r' hr := h.nonempty r' (mem_cons_of_mem _ hr)
  bounded r' hr := h.bounded r' (mem_cons_of_mem _ hr)
  ahead _ hr := (rel_of_pairwise_cons h.separated hr).le

theorem regionsFrom_conflicts (hm : m.Valid) : RegionsFrom m.baseLines.length 0 m.conflicts where
  separated := hm.regions.separated
  nonempty := hm.regions.nonempty
  bounded := hm.regions.bounded
  ahead _ _ := Nat.zero_le _

def startsIn (rs : List (Nat × Nat)) (e : SideEdit) : Bool :=
  rs.any fun r => r.1 ≤ e.start && e.start < r.2

theorem startsIn_cons {e : SideEdit} : startsIn (r :: rs) e = true ↔
    r.1 ≤ e.start ∧ e.start < r.2 ∨ startsIn rs e = true := by
  simp [startsIn]

theorem RegionsFrom.le_of_startsIn (h : RegionsFrom n pos rs) {e : SideEdit}
    (he : startsIn rs e = true) : pos ≤ e.start := by
  simp only [startsIn, List.any_eq_true, Bool.and_eq_true, decide_eq_true_eq] at he
  obtain ⟨r, hr, h1, -⟩ := he
  exact (h.ahead r hr).trans h1

theorem resolve_cons (before l t tail : String) (bs : List Block) :
    Draft.resolve ⟨⟨before, l, t⟩ :: bs, tail⟩ side =
      before ++ Block.text ⟨before, l, t⟩ side ++ Draft.resolve ⟨bs, tail⟩ side := by
  simp [Draft.resolve, String.append_assoc]

/-- The edits outside of the regions and those of one side in them make up the resolved text. -/
theorem resolve_draftFrom (hrs : RegionsFrom m.baseLines.length pos rs)
    (hside : ∀ r ∈ rs, m.sideText side r = m.regionText side r)
    (hfit : Fits pos m.baseLines.length es)
    (hin : ∀ r ∈ rs, es.filter (fun e => r.1 ≤ e.start && e.start < r.2) = m.regionEdits side r)
    (hbefore : ∀ r ∈ rs, ∀ e ∈ es, e.start < r.1 → e.stop ≤ r.1)
    (hinside : ∀ r ∈ rs, ∀ e ∈ es, r.1 ≤ e.start → e.start < r.2 → e.stop ≤ r.2) :
    (m.draftFrom rs pos (es.filter (!startsIn rs ·))).resolve side =
      join (applyFrom m.baseLines m.baseLines.length pos es) := by
  induction rs generalizing pos es with
  | nil => simp [draftFrom, Draft.resolve, startsIn]
  | cons r rs ih =>
    have hne := hrs.nonempty r mem_cons_self
    have hahead := hrs.ahead r mem_cons_self
    have hbound := hrs.bounded r mem_cons_self
    -- the edits before, in and behind the region
    have hsplit := hfit.filter_append r.1
    have hsplit' : es.filter (fun e => r.1 ≤ e.start && e.start < r.2) ++
        es.filter (r.2 ≤ ·.start) = es.filter (r.1 ≤ ·.start) := by
      rw [← (hfit.sublist (List.filter_sublist (p := (r.1 ≤ ·.start)))).filter_append r.2,
        filter_filter, filter_filter]
      congr 1
      · exact filter_congr fun e _ => and_comm _ _
      · refine filter_congr fun e _ => ?_
        rw [Bool.eq_iff_iff]
        simp only [decide_eq_true_eq, Bool.and_eq_true]
        omega
    have hgap : (es.filter (!startsIn (r :: rs) ·)).filter (·.start < r.1) =
        es.filter (·.start < r.1) := by
      rw [filter_filter]
      refine filter_congr fun e _ => ?_
      by_cases hlt : e.start < r.1
      · have : startsIn (r :: rs) e = false := by
          rw [eq_false_iff, ne_eq, startsIn_cons]
          rintro (h | h)
          · omega
          · have := hrs.tail.le_of_startsIn h
            omega
        simp [hlt, this]
      · simp [hlt]
    have hrest : (es.filter (!startsIn (r :: rs) ·)).filter (r.1 ≤ ·.start) =
        (es.filter (r.2 ≤ ·.start)).filter (!startsIn rs ·) := by
      rw [filter_filter, filter_filter]
      refine filter_congr fun e _ => ?_
      rw [Bool.eq_iff_iff]
      simp only [Bool.and_eq_true, decide_eq_true_eq, Bool.not_eq_true', Bool.eq_false_iff, ne_eq,
        startsIn_cons]
      constructor
      · rintro ⟨h1, h2⟩
        exact ⟨fun h => h2 (.inr h), by omega⟩
      · rintro ⟨h1, h2⟩
        exact ⟨by omega, by rintro (h | h) <;> [omega; exact h1 h]⟩
    have hfit' : Fits r.2 m.baseLines.length (es.filter (r.2 ≤ ·.start)) := by
      have hsub := hfit.sublist (filter_sublist (p := (r.2 ≤ ·.start)) (l := es))
      exact ⟨fun e he => by simpa using (mem_filter.mp he).2, hsub.start_le, hsub.stop_le,
        hsub.ordered⟩
    have htail := ih hrs.tail
      (fun r' hr' => hside r' (List.mem_cons_of_mem _ hr')) hfit' (fun r' hr' => by
        rw [← hin r' (List.mem_cons_of_mem _ hr'), filter_filter]
        refine filter_congr fun e _ => ?_
        have := hrs.tail.ahead r' hr'
        rw [Bool.eq_iff_iff]
        simp only [Bool.and_eq_true, decide_eq_true_eq]
        omega)
      (fun r' hr' e he => hbefore r' (mem_cons_of_mem _ hr') e (mem_filter.mp he).1)
      (fun r' hr' e he => hinside r' (mem_cons_of_mem _ hr') e (mem_filter.mp he).1)
    have htext : Block.text ⟨"", m.sideText .localSide r, m.sideText .remoteSide r⟩ side =
        m.regionText side r := by
      rw [← hside r mem_cons_self]
      cases side <;> rfl
    rw [draftFrom, resolve_cons, hgap, hrest, htail]
    conv_rhs => rw [← hsplit, ← hsplit', applyFrom_append hahead (hne.le.trans hbound)
      (fun e he => hbefore r mem_cons_self e (mem_filter.mp he).1
        (by simpa using (mem_filter.mp he).2))
      (fun e he => by
        rw [hsplit'] at he
        simpa using (mem_filter.mp he).2),
      applyFrom_append hne.le hbound
        (fun e he => by
          obtain ⟨he, hin⟩ := mem_filter.mp he
          simp only [and_eq_true, decide_eq_true_eq] at hin
          exact hinside r mem_cons_self e he hin.1 hin.2)
        (fun e he => by simpa using (mem_filter.mp he).2),
      hin r List.mem_cons_self, String.join_append, String.join_append]
    rw [← String.append_assoc]
    congr 2

/-! ### Which edits are kept -/

theorem mem_allEdits : s ∈ m.allEdits ↔ ∃ e ∈ m.edits s.source, s = e.on s.source := by
  simp only [allEdits, interleave, List.mem_merge, List.mem_map]
  constructor
  · rintro (⟨e, he, rfl⟩ | ⟨e, he, rfl⟩)
    · exact ⟨e, he, rfl⟩
    · exact ⟨e, he, rfl⟩
  · rintro ⟨e, he, hs⟩
    cases hsource : s.source with
    | localSide =>
      rw [hsource] at he hs
      exact .inl ⟨e, he, hs.symm⟩
    | remoteSide =>
      rw [hsource] at he hs
      exact .inr ⟨e, he, hs.symm⟩

theorem filter_allEdits (hm : m.Valid) (p : SideEdit → Bool) :
    m.allEdits.filter p = ((m.localEdits.map (·.on .localSide)).filter p).merge
      ((m.remoteEdits.map (·.on .remoteSide)).filter p) before :=
  filter_interleave p hm.locals hm.remotes

/-- Overlapping edits are both in a region. -/
theorem inRegion_of_overlaps (hm : m.Valid) (he : e ∈ m.localEdits) (hf : f ∈ m.remoteEdits)
    (hover : e.Overlaps f) (side : Side) :
    m.inRegion (e.on side) = true ∧ m.inRegion (f.on side) = true := by
  obtain ⟨r, hr, ⟨h1, h2⟩, h3, h4⟩ := hm.regions.covers e he f hf hover
  unfold Edit.Overlaps at hover
  refine ⟨inRegion_iff.mpr ⟨r, hr, h1, ?_⟩, inRegion_iff.mpr ⟨r, hr, h3, ?_⟩⟩
  · change e.start < r.2
    omega
  · change f.start < r.2
    omega

theorem fits_resolvedEdits (hm : m.Valid) (side : Side) :
    Fits 0 m.baseLines.length (m.resolvedEdits side) := by
  rw [resolvedEdits, filter_allEdits hm]
  refine ((fits_map_on _ hm.locals).sublist filter_sublist).merge
    ((fits_map_on _ hm.remotes).sublist filter_sublist) fun s hs t ht hover => ?_
  obtain ⟨hs, hsp⟩ := mem_filter.mp hs
  obtain ⟨ht, htp⟩ := mem_filter.mp ht
  obtain ⟨e, he, rfl⟩ := mem_map.mp hs
  obtain ⟨f, hf, rfl⟩ := mem_map.mp ht
  have h1 := (inRegion_of_overlaps hm he hf hover .localSide).1
  have h2 := (inRegion_of_overlaps hm he hf hover .remoteSide).2
  rw [h1] at hsp
  rw [h2] at htp
  cases side <;> simp [Edit.on] at hsp htp

/-- The edits that are left of `resolvedEdits` when the loop drops its insertions. -/
def keptEdits (m : MergeInput) (side : Side) : List SideEdit :=
  (m.resolvedEdits side).filter fun e => m.inRegion e || m.written e

theorem keptEdits_outside (m : MergeInput) (side : Side) :
    (keptEdits m side).filter (!startsIn m.conflicts ·) = m.left m.init := by
  change ((m.allEdits.filter _).filter _).filter _ = m.allEdits.filter m.written
  rw [filter_filter, filter_filter]
  refine filter_congr fun e _ => ?_
  change (!m.inRegion e && (m.inRegion e || m.written e) &&
    (decide (e.source = side) || !m.inRegion e)) = m.written e
  cases hin : m.inRegion e with
  | true => simp [written, hin]
  | false => simp

theorem keptEdits_region (hm : m.Valid) (hr : r ∈ m.conflicts) :
    (keptEdits m side).filter (fun e => r.1 ≤ e.start && e.start < r.2) = m.regionEdits side r := by
  have hfilter : (keptEdits m side).filter (fun e => r.1 ≤ e.start && e.start < r.2) =
      m.allEdits.filter fun e => decide (e.source = side) && (r.1 ≤ e.start && e.start < r.2) := by
    unfold keptEdits resolvedEdits
    rw [filter_filter, filter_filter]
    refine filter_congr fun e _ => ?_
    by_cases hin : r.1 ≤ e.start ∧ e.start < r.2
    · have : m.inRegion e = true := inRegion_iff.mpr ⟨r, hr, hin⟩
      simp [this, hin.1, hin.2]
    · have : (decide (r.1 ≤ e.start) && decide (e.start < r.2)) = false := by simpa using hin
      simp [this]
  rw [hfilter, filter_allEdits hm, List.filter_map, List.filter_map]
  cases side with
  | localSide | remoteSide => simp [regionEdits, Function.comp_def, Edit.on, edits]

theorem not_inRegion_of_atRegionEnd (hm : m.Valid) (h : m.atRegionEnd s = true) :
    m.inRegion s = false := by
  obtain ⟨-, r, hr, heq⟩ := atRegionEnd_iff.mp h
  rw [eq_false_iff, ne_eq, inRegion_iff]
  rintro ⟨r', hr', h1, h2⟩
  have := hm.regions.nonempty r hr
  rcases hm.regions.eq_or_separated hr hr' with rfl | hlt | hlt
  · omega
  · omega
  · omega

theorem not_inRegion_of_passedOver (h : m.passedOver s = true) : m.inRegion s = false := by
  obtain ⟨-, -, f, -, -, heq, hin⟩ := passedOver_iff.mp h
  rw [eq_false_iff, ne_eq, inRegion_iff] at hin ⊢
  rintro ⟨r, hr, h1, h2⟩
  exact hin ⟨r, hr, show r.1 ≤ f.start by omega, show f.start < r.2 by omega⟩

/-- The edits that are neither in a region nor written are insertions at the end of a region or in
front of a local edit. -/
theorem dropped_iff (hm : m.Valid) :
    (m.inRegion s || m.written s) = false ↔ m.atRegionEnd s = true ∨ m.passedOver s = true := by
  constructor
  · intro h
    simp only [written, or_eq_false_iff] at h
    obtain ⟨h1, h2⟩ := h
    rw [h1] at h2
    cases hend : m.atRegionEnd s with
    | true => exact .inl rfl
    | false =>
      rw [hend] at h2
      exact .inr (by simpa using h2)
  · rintro (h | h)
    · simp [written, h, not_inRegion_of_atRegionEnd hm h]
    · simp [written, h, not_inRegion_of_passedOver h]

theorem isInsert_of_dropped (hm : m.Valid)
    (h : (m.inRegion s || m.written s) = false) : s.IsInsert := by
  rcases (dropped_iff hm).mp h with h | h
  · exact (atRegionEnd_iff.mp h).1
  · exact (passedOver_iff.mp h).2.1

/-- Blocks with the right sides resolve to the text with all kept edits. -/
theorem resolve_draft (hm : m.Valid)
    (hside : ∀ r ∈ m.conflicts, m.sideText side r = m.regionText side r) : m.draft.resolve side =
      join (applyFrom m.baseLines m.baseLines.length 0 (keptEdits m side)) := by
  have hfit := (fits_resolvedEdits hm side).sublist
    (filter_sublist (p := fun e => m.inRegion e || m.written e))
  have hmem : ∀ s ∈ keptEdits m side, ∃ e ∈ m.edits s.source, s = e.on s.source := fun s hs =>
    mem_allEdits.mp (mem_filter.mp (mem_filter.mp hs).1).1
  rw [draft, ← keptEdits_outside m side]
  refine resolve_draftFrom (regionsFrom_conflicts hm) hside hfit
    (fun r hr => keptEdits_region hm hr) (fun r hr s hs hlt => ?_) fun r hr s hs h1 h2 => ?_
  · obtain ⟨e, he, heq⟩ := hmem s hs
    rw [heq] at hlt ⊢
    exact stop_le_of_start_before hm he hr hlt
  · obtain ⟨e, he, heq⟩ := hmem s hs
    rw [heq] at h1 h2 ⊢
    exact stop_le_of_start_in hm he hr h1 h2

theorem resolvedText_eq_iff (hm : m.Valid) (hlines : ∀ e ∈ m.allEdits, "" ∉ e.lines) (side : Side) :
    join (applyFrom m.baseLines m.baseLines.length 0 (keptEdits m side)) = m.resolvedText side ↔
      ∀ e ∈ m.allEdits, m.atRegionEnd e = true ∨ m.passedOver e = true → e.lines = [] := by
  have hfit := fits_resolvedEdits hm side
  constructor
  · intro h e he hdropped
    -- the dropped insertions make the whole difference in length
    have hperm : (applyFrom m.baseLines m.baseLines.length 0 (m.resolvedEdits side)).Perm _ :=
      applyFrom_perm_filter hfit fun s _ hs => isInsert_of_dropped hm hs
    have hsum := (hperm.map String.length).sum_nat
    have hlen := congrArg String.length h
    rw [resolvedText, String.length_join, String.length_join] at hlen
    rw [map_append, sum_append, ← hlen] at hsum
    have hzero : ((((m.resolvedEdits side).filter fun s => !(m.inRegion s || m.written s)).flatMap
        lines).map String.length).sum = 0 :=
      Nat.left_eq_add.mp hsum
    have hmem : e ∈ (m.resolvedEdits side).filter fun s => !(m.inRegion s || m.written s) := by
      have hout := (dropped_iff hm).mpr hdropped
      refine mem_filter.mpr ⟨mem_filter.mpr ⟨he, ?_⟩, by rw [hout]; rfl⟩
      simp only [or_eq_false_iff] at hout
      simp [hout.1]
    rw [eq_nil_iff_forall_not_mem]
    intro line hline
    have hlen0 : line.length = 0 := by
      refine List.sum_eq_zero_iff_forall_eq_nat.mp hzero _ (List.mem_map_of_mem ?_)
      exact List.mem_flatMap.mpr ⟨e, hmem, hline⟩
    refine hlines e he ?_
    rwa [← String.length_eq_zero_iff.mp hlen0]
  · intro h
    refine congrArg String.join (applyFrom_filter_of_keeps hfit fun s hs hdropped => ?_)
    have hins : s.start = s.stop := isInsert_of_dropped hm hdropped
    rw [Keeps, h s (mem_filter.mp hs).1 ((dropped_iff hm).mp hdropped), hins]
    simp

/-! ### The text between the blocks -/

theorem le_of_mem_zip (hrs : RegionsFrom n pos rs) {gap : Nat × (Nat × Nat)}
    (h : gap ∈ (pos :: rs.map Prod.snd).zip rs) : pos ≤ gap.1 := by
  rcases mem_cons.mp (of_mem_zip h).1 with heq | hmem
  · exact heq.ge
  · obtain ⟨r, hr, heq⟩ := mem_map.mp hmem
    have := hrs.ahead r hr
    have := hrs.nonempty r hr
    omega

theorem map_before_draftFrom (hrs : RegionsFrom n pos rs)
    (hpos : ∀ e ∈ es, pos ≤ e.start) (hout : ∀ e ∈ es, startsIn rs e = false) :
    (m.draftFrom rs pos es).blocks.map Block.before =
      ((pos :: rs.map Prod.snd).zip rs).map fun gap => join
        (applyFrom m.baseLines gap.2.1 gap.1
          (es.filter fun e => gap.1 ≤ e.start && e.start < gap.2.1)) := by
  induction rs generalizing pos es with
  | nil => rfl
  | cons r rs ih =>
    have hne := hrs.nonempty r mem_cons_self
    have hbehind : ∀ e ∈ es.filter (r.1 ≤ ·.start), r.2 ≤ e.start ∧ startsIn rs e = false := by
      intro e he
      obtain ⟨he, hle⟩ := mem_filter.mp he
      have hnot := hout e he
      rw [eq_false_iff, ne_eq, startsIn_cons] at hnot
      simp only [decide_eq_true_eq] at hle
      exact ⟨by omega, eq_false_iff.mpr fun h => hnot (.inr h)⟩
    rw [draftFrom, map_cons, ih hrs.tail (fun e he => (hbehind e he).1)
      fun e he => (hbehind e he).2, map_cons, zip_cons_cons, map_cons]
    congr 1
    · refine congrArg (fun es => join (applyFrom _ _ _ es))
        (filter_congr fun e he => ?_)
      simp [hpos e he]
    · refine map_congr_left fun gap hgap => ?_
      have hle := le_of_mem_zip hrs.tail hgap
      rw [filter_filter]
      congr 2
      refine filter_congr fun e _ => ?_
      rw [Bool.eq_iff_iff]
      simp only [Bool.and_eq_true, decide_eq_true_eq]
      omega

theorem map_before_draft (hm : m.Valid) :
    m.draft.blocks.map Block.before = m.gaps.map m.gapText := by
  rw [draft, map_before_draftFrom (regionsFrom_conflicts hm) (fun _ _ => Nat.zero_le _)]
  · refine map_congr_left fun gap _ => ?_
    change String.join (applyFrom _ _ _ ((m.allEdits.filter m.written).filter _)) = _
    rw [filter_filter]
    refine congrArg (fun es => String.join (applyFrom _ _ _ es)) (filter_congr fun e _ => ?_)
    cases m.written e <;> simp
  · intro e he
    exact (written_iff.mp (mem_filter.mp he).2).1

theorem losesNothing_iff (hm : m.Valid) (hlines : ∀ e ∈ m.allEdits, "" ∉ e.lines) :
    LosesNothing m m.draft ↔ ConflictsKept m := by
  have hsides : ∀ side, m.draft.blocks.map (·.text side) = m.conflicts.map (m.sideText side) :=
    fun _ => map_side_draftFrom
  have hbefore := map_before_draft hm
  constructor
  · intro h
    have hside : ∀ side, ∀ r ∈ m.conflicts, m.sideText side r = m.regionText side r :=
      fun side => map_inj_left.mp ((hsides side).symm.trans (h.sides side))
    refine ⟨fun side r hr => (sideText_eq_iff hm hr).mp (hside side r hr), ?_, ?_, ?_⟩
    · refine (resolvedText_eq_iff hm hlines .localSide).mp ?_
      rw [← resolve_draft hm (hside .localSide), h.resolved]
    · intro side r hr
      have hmem : m.regionText side r ∈ m.draft.blocks.map (·.text side) := by
        rw [h.sides]
        exact mem_map_of_mem hr
      obtain ⟨b, hb, hbr⟩ := mem_map.mp hmem
      exact hbr ▸ (h.own_lines b hb).2 side
    · intro gap hgap
      have hmem : m.gapText gap ∈ m.draft.blocks.map Block.before := by
        rw [hbefore]
        exact mem_map_of_mem hgap
      obtain ⟨b, hb, hbr⟩ := mem_map.mp hmem
      exact hbr ▸ (h.own_lines b hb).1
  · intro h
    have hside : ∀ side, ∀ r ∈ m.conflicts, m.sideText side r = m.regionText side r :=
      fun side r hr => (sideText_eq_iff hm hr).mpr (h.first_only side r hr)
    have hsides' : ∀ side, m.draft.blocks.map (·.text side) = m.conflicts.map (m.regionText side) :=
      fun side => (hsides side).trans (map_congr_left (hside side))
    refine ⟨hsides', fun b hb => ⟨?_, fun side => ?_⟩, fun side => ?_⟩
    · have hmem := mem_map_of_mem (f := Block.before) hb
      rw [hbefore] at hmem
      obtain ⟨gap, hgap, heq⟩ := mem_map.mp hmem
      exact heq ▸ h.terminated.2 gap hgap
    · have hmem := mem_map_of_mem (f := (·.text side)) hb
      rw [hsides'] at hmem
      obtain ⟨r, hr, heq⟩ := mem_map.mp hmem
      exact heq ▸ h.terminated.1 side r hr
    · rw [resolve_draft hm (hside side)]
      exact (resolvedText_eq_iff hm hlines side).mpr h.inserts

theorem ne_nil_of_mem_splitInclusive {cs l : List Char} (h : l ∈ splitInclusive cs) : l ≠ [] := by
  induction cs generalizing l with
  | nil => cases h
  | cons c cs ih =>
    rw [splitInclusive] at h
    split at h
    · rcases mem_cons.mp h with rfl | h
      · simp
      · exact ih h
    · split at h
      · rw [mem_singleton.mp h]
        simp
      next l' ls hls =>
        rcases mem_cons.mp h with rfl | h
        · simp
        · exact ih (hls ▸ mem_cons_of_mem _ h)

theorem not_mem_lines_editList {ops : List DiffOp} {side : String} (he : e ∈ editList ops side) :
    "" ∉ e.lines := by
  obtain ⟨op, -, -, rfl⟩ := mem_editList.mp he
  intro hmem
  have hline : "" ∈ splitLines side := mem_of_mem_drop (mem_of_mem_take hmem)
  obtain ⟨l, hl, heq⟩ := mem_map.mp hline
  exact ne_nil_of_mem_splitInclusive hl (ofList_eq_empty_iff.mp heq)

theorem bothChanged_of_hasConflicts
    (hret : threeWayMerge textDiff fuel base localText remoteText = some res)
    (hconf : res.hasConflicts = true) : BothChanged base localText remoteText := by
  by_contra h
  unfold threeWayMerge at hret
  split at hret
  · cases hret
    cases hconf
  · split at hret
    · cases hret
      cases hconf
    · split at hret
      · cases hret
        cases hconf
      · exact h ⟨‹_›, ‹_›, ‹_›⟩

/-- A conflicted output loses nothing exactly when in each region only the first edit of a side
matters, the insertions that are dropped are empty, and all texts in front of markers end with a
newline. -/
theorem conflicted_merge_loses_nothing_iff
    (hl : EditScript (splitLines base) (splitLines localText) (textDiff base localText))
    (hr : EditScript (splitLines base) (splitLines remoteText) (textDiff base remoteText))
    (hret : threeWayMerge textDiff fuel base localText remoteText = some res)
    (hconf : res.hasConflicts = true) :
    ∃ m d, mergeInput textDiff base localText remoteText = some m ∧
      m.draftLoop fuel m.init .empty = some d ∧ d.render = res.content ∧
      d.blocks.length = res.conflictCount ∧ (LosesNothing m d ↔ ConflictsKept m) := by
  have hm := mergeInput_eq hl hr
  have hv : MergeInput.Valid ⟨splitLines base, editList (textDiff base localText) localText,
      editList (textDiff base remoteText) remoteText⟩ :=
    ⟨orderedEdits_editList hl, orderedEdits_editList hr⟩
  rw [threeWayMerge_of_bothChanged (bothChanged_of_hasConflicts hret hconf) hm,
    Option.map_eq_some_iff] at hret
  obtain ⟨st, hloop, rfl⟩ := hret
  obtain ⟨hdraft, hrend⟩ := draftLoop_eq hv hloop
  refine ⟨_, _, hm, hdraft, hrend.merged.symm, hrend.count.symm, losesNothing_iff hv ?_⟩
  intro s hs
  obtain ⟨e, he, heq⟩ := mem_allEdits.mp hs
  rw [heq]
  cases hsource : s.source with
  | localSide | remoteSide =>
    rw [hsource] at he
    exact not_mem_lines_editList he

/-- Both sides change the second of three lines. -/
def sameLineDiff (_base _side : String) : List DiffOp :=
  [.equal 0 0 1, .replace 1 1 1 1, .equal 2 2 1]

def sameLineInput : MergeInput := ⟨["a\n", "b\n", "c\n"], [⟨1, 2, ["B\n"]⟩], [⟨1, 2, ["X\n"]⟩]⟩

theorem conflictsKept_sameLineInput : ConflictsKept sameLineInput := by
  have hc : sameLineInput.conflicts = [(1, 2)] := by decide
  have hedits : ∀ s ∈ sameLineInput.allEdits, s.start = 1 ∧ s.stop = 2 := by
    intro s hs
    obtain ⟨e, he, heq⟩ := mem_allEdits.mp hs
    have hrange : ∀ side, ∀ e ∈ sameLineInput.edits side, e.start = 1 ∧ e.stop = 2 := by
      intro side
      cases side <;> decide
    rw [heq]
    exact hrange s.source e he
  refine ⟨fun side r hr e es h => ?_, fun s hs h => ?_, fun side r hr => ?_, fun gap hgap => ?_⟩
  · rw [hc, mem_singleton] at hr
    subst hr
    have hlen : (sameLineInput.regionEdits side (1, 2)).length = 1 := by cases side <;> decide
    rw [h, List.length_cons, Nat.add_eq_right, List.length_eq_zero_iff] at hlen
    rw [hlen, applyFrom]
  · have hrange := hedits s hs
    rcases h with h | h
    · have := (atRegionEnd_iff.mp h).1
      omega
    · have := (passedOver_iff.mp h).2.1
      omega
  · rw [hc, mem_singleton] at hr
    subst hr
    cases side <;> decide
  · have hgaps : sameLineInput.gaps = [(0, (1, 2))] := by
      rw [gaps, hc]
      rfl
    rw [hgaps, mem_singleton] at hgap
    subst hgap
    have hnil : (sameLineInput.allEdits.filter fun e =>
        sameLineInput.written e && (0 : Nat) ≤ e.start && e.start < 1) = [] := by
      refine filter_eq_nil_iff.mpr fun s hs => ?_
      simp [(hedits s hs).1]
    unfold gapText
    rw [hnil]
    decide

theorem conflicted_merge_loses_nothing_same_line :
    ∃ m d, mergeInput sameLineDiff "a\nb\nc\n" "a\nB\nc\n" "a\nX\nc\n" = some m ∧
      m.draftLoop 3 m.init .empty = some d ∧
      d = ⟨[⟨"a\n", "B\n", "X\n"⟩], "c\n"⟩ ∧ LosesNothing m d := by
  have hl : EditScript (splitLines "a\nb\nc\n") (splitLines "a\nB\nc\n")
    (sameLineDiff "a\nb\nc\n" "a\nB\nc\n") := by decide
  have hr : EditScript (splitLines "a\nb\nc\n") (splitLines "a\nX\nc\n")
    (sameLineDiff "a\nb\nc\n" "a\nX\nc\n") := by decide
  have hret : threeWayMerge sameLineDiff 3 "a\nb\nc\n" "a\nB\nc\n" "a\nX\nc\n" =
    some ⟨"a\n<<<<<<< local\nB\n=======\nX\n>>>>>>> remote\nc\n", true, 1⟩ := by decide
  obtain ⟨m, d, hm, hd, -, -, hiff⟩ := conflicted_merge_loses_nothing_iff hl hr hret rfl
  have hm' : mergeInput sameLineDiff "a\nb\nc\n" "a\nB\nc\n" "a\nX\nc\n" =
    some sameLineInput := by decide
  obtain rfl := Option.some.inj (hm'.symm.trans hm)
  have hd' : sameLineInput.draftLoop 3 sameLineInput.init .empty =
    some ⟨[⟨"a\n", "B\n", "X\n"⟩], "c\n"⟩ := by decide
  obtain rfl := Option.some.inj (hd'.symm.trans hd)
  exact ⟨_, _, hm, hd, rfl, hiff.mpr conflictsKept_sameLineInput⟩

/-- Two changed lines against a rewrite of all four, and texts without a final newline. -/
def rewriteDiff (base side : String) : List DiffOp :=
  if base = "a" then [.replace 0 1 0 1]
  else if side = "A\nb\nC\nd\n" then
    [.replace 0 1 0 1, .equal 1 1 1, .replace 2 1 2 1, .equal 3 3 1]
  else [.replace 0 4 0 4]

/-- The second local change is missing from the block, and without a final newline the markers
stand behind the texts. -/
theorem conflicted_merge_loses_edit :
    (EditScript (splitLines "a\nb\nc\nd\n") (splitLines "A\nb\nC\nd\n")
        (rewriteDiff "a\nb\nc\nd\n" "A\nb\nC\nd\n") ∧
      EditScript (splitLines "a\nb\nc\nd\n") (splitLines "w\nx\ny\nz\n")
        (rewriteDiff "a\nb\nc\nd\n" "w\nx\ny\nz\n") ∧
      threeWayMerge rewriteDiff 1 "a\nb\nc\nd\n" "A\nb\nC\nd\n" "w\nx\ny\nz\n" =
        some ⟨"<<<<<<< local\nA\nb\nc\nd\n=======\nw\nx\ny\nz\n>>>>>>> remote\n", true, 1⟩ ∧
      ∃ m d, mergeInput rewriteDiff "a\nb\nc\nd\n" "A\nb\nC\nd\n" "w\nx\ny\nz\n" = some m ∧
        m.draftLoop 1 m.init .empty = some d ∧ ¬ LosesNothing m d) ∧
    (EditScript (splitLines "a") (splitLines "b") (rewriteDiff "a" "b") ∧
      EditScript (splitLines "a") (splitLines "c") (rewriteDiff "a" "c") ∧
      threeWayMerge rewriteDiff 1 "a" "b" "c" =
        some ⟨"<<<<<<< local\nb=======\nc>>>>>>> remote\n", true, 1⟩ ∧
      ∃ m d, mergeInput rewriteDiff "a" "b" "c" = some m ∧
        m.draftLoop 1 m.init .empty = some d ∧ ¬ LosesNothing m d) := by
  refine ⟨⟨by decide, by decide, by decide,
    ⟨["a\n", "b\n", "c\n", "d\n"], [⟨0, 1, ["A\n"]⟩, ⟨2, 3, ["C\n"]⟩],
      [⟨0, 4, ["w\n", "x\n", "y\n", "z\n"]⟩]⟩,
    ⟨[⟨"", "A\nb\nc\nd\n", "w\nx\ny\nz\n"⟩], ""⟩, by decide, by decide, fun h => ?_⟩,
    by decide, by decide, by decide, ⟨["a"], [⟨0, 1, ["b"]⟩], [⟨0, 1, ["c"]⟩]⟩,
    ⟨[⟨"", "b", "c"⟩], ""⟩, by decide, by decide, fun h => ?_⟩
  · exact absurd (h.sides .localSide) (by decide)
  · exact absurd ((h.own_lines _ mem_cons_self).2 .localSide) (by decide)

end Syncthing
