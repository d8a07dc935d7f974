import Syncthing.Sync.MergeText

/-! Two sides whose changes are apart in the base. `from_diff` also keeps an operation tagged equal
as an edit when the changes before it have shifted it, so that the merge may find a conflict where
there is none. -/
namespace Syncthing

open MergeInput MergeState Splice List String DiffOp

variable {m : MergeInput} {st st' : MergeState} {es fs : List Edit} {e f : Edit}
  {n i j : Nat} {old new : List String} {ops ops' : List DiffOp} {side : String}
  {textDiff : String → String → List DiffOp} {base localText remoteText text : String}

namespace DiffOp

/-- The edit of an operation, which `from_diff` makes unless it skips the operation. -/
def edit (op : DiffOp) (side : String) : Edit where
  start := op.oldRange.1
  stop := op.oldRange.2
  lines := ((splitLines side).drop op.newRange.1).take (op.newRange.2 - op.newRange.1)

def isEdit (op : DiffOp) : Bool := !(op.oldRange = op.newRange && op.isEqual)

/-- Both operations have a base line, where an insertion stands for the line behind it; two
insertions do not meet. -/
def Meets (a b : DiffOp) : Prop := a.oldRange.1 < b.oldRange.2 ∧ b.oldRange.1 < a.oldRange.2 ∨
    a.oldRange.1 = b.oldRange.1 ∧ ¬ (a.oldRange.1 = a.oldRange.2 ↔ b.oldRange.1 = b.oldRange.2)

instance (a b : DiffOp) : Decidable (a.Meets b) := by
  unfold Meets
  infer_instance

end DiffOp

/-- The base regions that the operations change are disjoint and not adjacent. -/
def Independent (ops ops' : List DiffOp) : Prop :=
  ∀ a ∈ ops, ∀ b ∈ ops', a.isEqual = false → b.isEqual = false →
    a.oldRange.2 < b.oldRange.1 ∨ b.oldRange.2 < a.oldRange.1

instance : Decidable (Independent ops ops') := by
  unfold Independent
  infer_instance

variable (ops) (side)

/-- All edits of a diff. -/
def editList : List Edit := (ops.filter isEdit).map (·.edit side)

/-- The changes of a diff. -/
def changes : List Edit := (ops.filter (!·.isEqual)).map (·.edit side)

variable (textDiff) {ops} {side}

/-- The base with the changes of both diffs applied. -/
def bothApplied (base localText remoteText : String) : String :=
  join (applyFrom (splitLines base) (splitLines base).length 0
    (interleave (changes (textDiff base localText) localText)
      (changes (textDiff base remoteText) remoteText)))

/-- The merge returns the text and reports no conflict. -/
def MergesTo (base localText remoteText text : String) : Prop :=
  ∃ fuel, threeWayMerge textDiff fuel base localText remoteText = some ⟨text, false, 0⟩

/-! ### Diffs and their edits -/

variable {textDiff}

theorem flatten_splitInclusive (cs : List Char) : (splitInclusive cs).flatten = cs := by
  induction cs with
  | nil => rfl
  | cons c cs ih =>
    rw [splitInclusive]
    split
    · rw [flatten_cons, ih]
      rfl
    · cases h : splitInclusive cs with
      | nil | cons =>
        rw [h] at ih
        simp [← ih]

theorem join_splitLines (s : String) : join (splitLines s) = s := by
  rw [← toList_inj, toList_join, splitLines, flatMap_map]
  simp only [toList_ofList, flatMap_id']
  exact flatten_splitInclusive s.toList

theorem fromDiff_eq_mapM (ops : List DiffOp) (side : String) :
    Edit.fromDiff ops side = (ops.filter isEdit).mapM fun op => do
      let lines ← slice (splitLines side) op.newRange.1 op.newRange.2
      return { start := op.oldRange.1, stop := op.oldRange.2, lines } := rfl

theorem EditScriptFrom.le_start_of_mem (h : EditScriptFrom old new i j ops) {op : DiffOp}
    (hop : op ∈ ops) : i ≤ op.oldRange.1 := by
  induction ops generalizing i j with
  | nil => cases hop
  | cons op' ops ih =>
    obtain ⟨rfl, rfl, -, h⟩ := h
    rcases mem_cons.mp hop with rfl | hop
    · exact le_rfl
    · exact op'.oldRange_le.trans (ih h hop)

section
variable (h : EditScriptFrom old (splitLines side) i j ops)
include h

theorem fromDiff_eq : Edit.fromDiff ops side = some (editList ops side) := by
  unfold editList
  induction ops generalizing i j with
  | nil => rfl
  | cons op ops ih =>
    obtain ⟨rfl, rfl, -, h⟩ := h
    have hs := slice_isSome op.newRange_le h.le_length.2
    have htail := ih h
    rw [fromDiff_eq_mapM] at htail ⊢
    cases hop : op.isEdit with
    | true =>
      rw [filter_cons_of_pos hop, mapM_cons, hs, htail]
      rfl
    | false => rwa [filter_cons_of_neg (by simp [hop])]

variable (source : Side)

/-- The changes of a valid diff turn the old text into the new one. -/
theorem EditScriptFrom.applyFrom_changes :
    applyFrom old old.length i ((changes ops side).map (·.on source)) =
      (splitLines side).drop j := by
  induction ops generalizing i j with
  | nil =>
    obtain ⟨rfl, rfl⟩ := h
    simp [changes, applyFrom]
  | cons op ops ih =>
    obtain ⟨rfl, rfl, hlines, h⟩ := h
    have htail := ih h
    have hlen := h.le_length
    have hnew : ((splitLines side).drop op.newRange.1).take (op.newRange.2 - op.newRange.1) ++
        (splitLines side).drop op.newRange.2 = (splitLines side).drop op.newRange.1 := by
      have hsum : op.newRange.1 + (op.newRange.2 - op.newRange.1) = op.newRange.2 :=
        Nat.add_sub_cancel' op.newRange_le
      conv_rhs => rw [← take_append_drop (op.newRange.2 - op.newRange.1)
        ((splitLines side).drop op.newRange.1), drop_drop, hsum]
    cases hop : op.isEqual with
    | true =>
      have hcopy := hlines hop
      rw [slice_isSome op.oldRange_le hlen.1, slice_isSome op.newRange_le hlen.2] at hcopy
      have hchanges : changes (op :: ops) side = changes ops side := by simp [changes, hop]
      rw [hchanges, applyFrom_advance op.oldRange_le hlen.1, htail, Option.some.inj hcopy, hnew]
      intro s hs
      simp only [changes, List.map_map, List.mem_map, List.mem_filter] at hs
      obtain ⟨op', ⟨hop', -⟩, rfl⟩ := hs
      exact h.le_start_of_mem hop'
    | false =>
      have hchanges : changes (op :: ops) side = op.edit side :: changes ops side := by
        simp [changes, hop]
      rw [hchanges, map_cons, applyFrom]
      change (old.drop op.oldRange.1).take (op.oldRange.1 - op.oldRange.1) ++ _ ++
        applyFrom _ _ op.oldRange.2 _ = _
      rw [htail, Nat.sub_self, take_zero, nil_append]
      exact hnew

/-! ### Shifted operations -/

theorem EditScriptFrom.keeps_of_isEqual {op : DiffOp} (hop : op ∈ ops)
    (heq : op.isEqual = true) : ((op.edit side).on source).Keeps old := by
  induction ops generalizing i j with
  | nil => cases hop
  | cons op' ops ih =>
    obtain ⟨rfl, rfl, hlines, h⟩ := h
    rcases mem_cons.mp hop with rfl | hop
    · have hcopy := hlines heq
      rw [slice_isSome op.oldRange_le h.le_length.1, slice_isSome op.newRange_le h.le_length.2]
        at hcopy
      exact (Option.some.inj hcopy).symm
    · exact ih h hop

/-- Only the changes of a valid diff change lines. -/
theorem EditScriptFrom.filter_not_keeps :
    ((editList ops side).map (·.on source)).filter (fun s => ¬ s.Keeps old) =
      ((changes ops side).map (·.on source)).filter fun s => ¬ s.Keeps old := by
  have hkeeps : ∀ op ∈ ops, op.isEqual = true → ((op.edit side).on source).Keeps old :=
    fun _ hop => h.keeps_of_isEqual source hop
  simp only [editList, changes, List.map_map, List.filter_map, List.filter_filter]
  congr 1
  refine List.filter_congr fun op hop => ?_
  cases heq : op.isEqual with
  | false => simp [isEdit, heq]
  | true => simp [hkeeps op hop heq]

theorem orderedEdits_editList : OrderedEdits old.length (editList ops side) := by
  obtain ⟨es, hes, ho, -⟩ := h.fromDiff
  rw [fromDiff_eq h] at hes
  obtain rfl := Option.some.inj hes
  exact ho

end

theorem changes_sublist (ops : List DiffOp) (side : String) :
    (changes ops side).Sublist (editList ops side) := by
  refine List.Sublist.map _ ?_
  have hfilter : ops.filter (!·.isEqual) = (ops.filter isEdit).filter (!·.isEqual) := by
    rw [filter_filter]
    refine filter_congr fun op _ => ?_
    cases heq : op.isEqual <;> simp [isEdit, heq]
  rw [hfilter]
  exact filter_sublist

theorem OrderedEdits.sublist (ho : OrderedEdits n es) (h : fs.Sublist es) : OrderedEdits n fs where
  start_le e he := ho.start_le e (h.subset he)
  stop_le e he := ho.stop_le e (h.subset he)
  ordered := ho.ordered.sublist h

theorem fits_interleave (hes : OrderedEdits n es) (hfs : OrderedEdits n fs)
    (hno : ∀ e ∈ es, ∀ f ∈ fs, ¬ e.Overlaps f) : Fits 0 n (interleave es fs) := by
  refine (fits_map_on _ hes).merge (fits_map_on _ hfs) fun s hs t ht => ?_
  obtain ⟨e, he, rfl⟩ := mem_map.mp hs
  obtain ⟨f, hf, rfl⟩ := mem_map.mp ht
  exact hno e he f hf

/-- Operations that were only shifted leave no trace in the text. -/
theorem applyFrom_interleave_editList {base : List String}
    (hl : EditScript base (splitLines localText) ops)
    (hr : EditScript base (splitLines remoteText) ops')
    (hno : ∀ e ∈ editList ops localText, ∀ f ∈ editList ops' remoteText, ¬ e.Overlaps f) :
    applyFrom base base.length 0 (interleave (editList ops localText) (editList ops' remoteText)) =
      applyFrom base base.length 0
        (interleave (changes ops localText) (changes ops' remoteText)) := by
  have hlo := orderedEdits_editList hl
  have hro := orderedEdits_editList hr
  have hlc := changes_sublist ops localText
  have hrc := changes_sublist ops' remoteText
  rw [← applyFrom_filter_of_keeps (p := fun s => ¬ s.Keeps base) (fits_interleave hlo hro hno),
    ← applyFrom_filter_of_keeps (p := fun s => ¬ s.Keeps base)
      (fits_interleave (hlo.sublist hlc) (hro.sublist hrc)
        fun e he f hf => hno e (hlc.subset he) f (hrc.subset hf)),
    filter_interleave _ hlo hro, filter_interleave _ (hlo.sublist hlc) (hro.sublist hrc),
    hl.filter_not_keeps, hr.filter_not_keeps]
  · simp
  · simp

/-- Edits that all start at different lines can be merged in either order. -/
theorem applyFrom_interleave_comm {base : List String} (hes : OrderedEdits n es)
    (hfs : OrderedEdits n fs) (hne : ∀ e ∈ es, ∀ f ∈ fs, e.start ≠ f.start) :
    applyFrom base n 0 (interleave es fs) = applyFrom base n 0 (interleave fs es) := by
  have hmap : ∀ es fs : List Edit, (interleave es fs).map
      (fun s => (⟨(), s.start, s.stop, s.lines⟩ : Splice Unit String)) =
      (es.map fun e => ⟨(), e.start, e.stop, e.lines⟩).merge
        (fs.map fun e => ⟨(), e.start, e.stop, e.lines⟩) before := by
    intro es fs
    refine (List.map_merge (s := before) fun _ _ _ _ => rfl).trans ?_
    rw [List.map_map, List.map_map]
    rfl
  have hsorted : ∀ {es : List Edit}, OrderedEdits n es →
      (es.map fun e => (⟨(), e.start, e.stop, e.lines⟩ : Splice Unit String)).Pairwise
        fun s t => before s t = true := by
    intro es ho
    refine pairwise_map.mpr (ho.ordered.imp_of_mem fun {e f} he hf hef => before_iff.mpr ?_)
    have := ho.start_le e he
    have := ho.start_le f hf
    simp only
    omega
  rw [← applyFrom_map_source () (interleave es fs), ← applyFrom_map_source () (interleave fs es),
    hmap, hmap, merge_comm before_trans (hsorted hes) (hsorted hfs)]
  intro s hs t ht
  obtain ⟨e, he, rfl⟩ := mem_map.mp hs
  obtain ⟨f, hf, rfl⟩ := mem_map.mp ht
  have := hne e he f hf
  rw [before_iff, before_iff]
  simp only
  omega

/-! ### Merges without conflicts -/

theorem conflicts_eq_nil_iff (hm : m.Valid) :
    m.conflicts = [] ↔ ∀ e ∈ m.localEdits, ∀ f ∈ m.remoteEdits, ¬ e.Overlaps f := by
  constructor
  · intro hnil e he f hf hover
    obtain ⟨r, hr, -⟩ := hm.regions.covers e he f hf hover
    rw [hnil] at hr
    cases hr
  · intro hno
    rw [eq_nil_iff_forall_not_mem]
    intro r hr
    obtain ⟨e, he, f, hf, hover, -⟩ := hm.regions.covered r hr r.1 le_rfl (hm.regions.nonempty r hr)
    exact hno e he f hf hover

theorem draft_of_conflicts_eq_nil (hc : m.conflicts = [])
    (hpass : ∀ f ∈ m.remoteEdits, m.passedOver (f.on .remoteSide) = false) :
    m.draft = ⟨[], join (applyFrom m.baseLines m.baseLines.length 0
      (interleave m.localEdits m.remoteEdits))⟩ := by
  have hleft : m.left m.init = interleave m.localEdits m.remoteEdits := by
    refine filter_eq_self.mpr fun s hs => written_iff.mpr ⟨?_, ?_, ?_⟩
    · simp [inRegion, hc]
    · simp [atRegionEnd, hc]
    · rcases mem_merge.mp hs with hs | hs
      · obtain ⟨e, -, rfl⟩ := mem_map.mp hs
        simp [passedOver, Edit.on]
      · obtain ⟨f, hf, rfl⟩ := mem_map.mp hs
        exact hpass f hf
  rw [draft, hc, hleft, draftFrom]

theorem length_blocks_draftFrom {rs : List (Nat × Nat)} {pos : Nat} {ss : List SideEdit} :
    (m.draftFrom rs pos ss).blocks.length = rs.length := by
  induction rs generalizing pos ss with
  | nil => rfl
  | cons r rs ih => simp [draftFrom, ih]

/-- Without regions, a remote insertion that is passed over stays under its cursor. -/
theorem Reaches.passedOver_waits (hm : m.Valid) (hc : m.conflicts = []) (h : m.Reaches st)
    (hf : f ∈ m.remoteEdits) (hpass : m.passedOver (f.on .remoteSide) = true) :
    TextInv m st ∧ f ∈ st.remotes := by
  induction h with
  | refl => exact ⟨textInv_init, hf⟩
  | @tail st st' _ h ih =>
    obtain ⟨hi, hmem⟩ := ih
    refine ⟨hi.step hm h.2, ?_⟩
    rcases mergeStep_cases h.2 with ⟨r, rs, hrs, -⟩ | ⟨-, hstep⟩
    · have hr := hi.regions.subset (show r ∈ st.regions by simp [hrs])
      rw [hc] at hr
      cases hr
    · rcases hstep with ⟨e, es, -, -, rfl⟩ | ⟨hl, ⟨g, gs, hgs, hpos, rfl⟩ | ⟨-, lines, rfl⟩⟩
      · exact hmem
      · refine (mem_cons.mp (hgs ▸ hmem)).resolve_left ?_
        rintro rfl
        rw [hi.not_passedOver hm hl hpos] at hpass
        cases hpass
      · exact hmem

theorem mergesTo_iff_of_bothChanged (hboth : BothChanged base localText remoteText)
    (hm : mergeInput textDiff base localText remoteText = some m) (hv : m.Valid) :
    MergesTo textDiff base localText remoteText text ↔
      (m.conflicts = [] ∧ ∀ f ∈ m.remoteEdits, m.passedOver (f.on .remoteSide) = false) ∧
      text = join (applyFrom m.baseLines m.baseLines.length 0
        (interleave m.localEdits m.remoteEdits)) := by
  constructor
  · rintro ⟨fuel, h⟩
    rw [threeWayMerge_of_bothChanged hboth hm, Option.map_eq_some_iff] at h
    obtain ⟨st, hloop, hres⟩ := h
    obtain ⟨-, hrend⟩ := draftLoop_eq hv hloop
    obtain ⟨hmerged, hflag, -⟩ := MergeResult.mk.inj hres
    have hblocks : m.draft.blocks = [] := by simpa [hflag] using hrend.conflicts
    have hc : m.conflicts = [] := by
      rw [← List.length_eq_zero_iff, ← length_blocks_draftFrom (m := m)]
      exact List.length_eq_zero_iff.mpr hblocks
    have hpass : ∀ f ∈ m.remoteEdits, m.passedOver (f.on .remoteSide) = false := by
      intro f hf
      by_contra hpass
      obtain ⟨hreach, hstop⟩ := reflTransGen_of_mergeLoop hloop
      obtain ⟨hi, hmem⟩ := Reaches.passedOver_waits hv hc hreach hf (by simpa using hpass)
      rw [(hi.regions_eq_nil hv hstop).2.2.1] at hmem
      cases hmem
    refine ⟨⟨hc, hpass⟩, ?_⟩
    rw [← hmerged, hrend.merged, draft_of_conflicts_eq_nil hc hpass]
    simp [Draft.render]
  · rintro ⟨⟨hc, hpass⟩, rfl⟩
    have h1 : ¬ m.InsertAtLocalEdit := by
      rintro ⟨e, he, f, hf, hne, hins, heq, -⟩
      have hover : m.passedOver (f.on .remoteSide) = true :=
        passedOver_iff.mpr ⟨rfl, hins, e, he, hne, heq.symm, by simp [inRegion, hc]⟩
      rw [hpass f hf] at hover
      cases hover
    have h2 : ¬ m.InsertAtRegionEnd := by
      rintro ⟨r, hr, -⟩
      rw [hc] at hr
      cases hr
    obtain ⟨st, hloop⟩ := loopInv_init.exists_mergeLoop hv h1 h2 _ le_rfl
    obtain ⟨-, hrend⟩ := draftLoop_eq hv hloop
    rw [draft_of_conflicts_eq_nil hc hpass] at hrend
    refine ⟨m.remaining m.init, ?_⟩
    rw [threeWayMerge_of_bothChanged hboth hm, hloop]
    simp [hrend.merged, hrend.count, hrend.conflicts, Draft.render]

theorem mergeInput_eq
    (hl : EditScript (splitLines base) (splitLines localText) (textDiff base localText))
    (hr : EditScript (splitLines base) (splitLines remoteText) (textDiff base remoteText)) :
    mergeInput textDiff base localText remoteText = some ⟨splitLines base,
      editList (textDiff base localText) localText,
      editList (textDiff base remoteText) remoteText⟩ := by
  rw [mergeInput, fromDiff_eq hl, fromDiff_eq hr]
  rfl

theorem mem_editList : e ∈ editList ops side ↔ ∃ op ∈ ops, op.isEdit = true ∧ op.edit side = e := by
  simp [editList, and_assoc]

section
variable (hl : EditScript (splitLines base) (splitLines localText) (textDiff base localText))
include hl

section
variable (hr : EditScript (splitLines base) (splitLines remoteText) (textDiff base remoteText))
include hr

/-- For independent changes both sides may be exchanged. -/
theorem bothApplied_comm (hind : Independent (textDiff base localText) (textDiff base remoteText)) :
    bothApplied textDiff base localText remoteText =
      bothApplied textDiff base remoteText localText := by
  refine congrArg join (applyFrom_interleave_comm
    ((orderedEdits_editList hl).sublist (changes_sublist _ _))
    ((orderedEdits_editList hr).sublist (changes_sublist _ _)) fun e he f hf => ?_)
  simp only [changes, mem_map, mem_filter] at he hf
  obtain ⟨a, ⟨ha, hac⟩, rfl⟩ := he
  obtain ⟨b, ⟨hb, hbc⟩, rfl⟩ := hf
  have := hind a ha b hb (by simpa using hac) (by simpa using hbc)
  have := a.oldRange_le
  have := b.oldRange_le
  simp only [edit]
  omega

/-- Where one of the merge's shortcuts applies, it gives the text with both changes. -/
theorem mergesTo_of_not_bothChanged (hself : ∀ op ∈ textDiff base base, op.isEqual = true)
    (hind : Independent (textDiff base localText) (textDiff base remoteText))
    (h : ¬ BothChanged base localText remoteText) : MergesTo textDiff base localText remoteText
      (bothApplied textDiff base localText remoteText) := by
  have hnone : ∀ {ops : List DiffOp} {side : String}, (∀ op ∈ ops, op.isEqual = true) →
      changes ops side = [] := by
    intro ops side hops
    have : ops.filter (!·.isEqual) = [] := filter_eq_nil_iff.mpr fun op hop => by simp [hops op hop]
    simp [changes, this]
  have hside : ∀ {side : String} (source : Side),
      EditScript (splitLines base) (splitLines side) (textDiff base side) →
      join (applyFrom (splitLines base) (splitLines base).length 0
        ((changes (textDiff base side) side).map (·.on source))) = side := by
    intro side source hs
    rw [hs.applyFrom_changes, drop_zero, join_splitLines]
  refine ⟨0, ?_⟩
  unfold threeWayMerge bothApplied
  by_cases h1 : localText = remoteText
  · subst h1
    have hops : ∀ op ∈ textDiff base localText, op.isEqual = true := by
      intro op hop
      by_contra hne
      have := op.oldRange_le
      have := hind op hop op hop (by simpa using hne) (by simpa using hne)
      omega
    have htext := hside .localSide hl
    rw [if_pos rfl, hnone hops]
    rw [hnone hops] at htext
    simpa [interleave] using htext.symm
  · rw [if_neg h1]
    by_cases h2 : localText = base
    · subst h2
      rw [if_pos rfl, hnone hself]
      simpa [interleave] using (hside .remoteSide hr).symm
    · rw [if_neg h2]
      obtain rfl : remoteText = base := not_not.mp fun h3 => h ⟨h1, h2, h3⟩
      rw [if_pos rfl, hnone hself]
      simpa [interleave] using (hside .localSide hl).symm

end

end

/-- When the main loop neither finds a conflict nor passes an insertion over. -/
theorem clean_iff {base : List String} (hl : OrderedEdits base.length (editList ops localText))
    (hr : OrderedEdits base.length (editList ops' remoteText))
    (hm : m = ⟨base, editList ops localText, editList ops' remoteText⟩) :
    (m.conflicts = [] ∧ ∀ f ∈ m.remoteEdits, m.passedOver (f.on .remoteSide) = false) ↔
      ∀ a ∈ ops, ∀ b ∈ ops', a.isEdit = true → b.isEdit = true →
        ¬ (a.oldRange.1 < b.oldRange.2 ∧ b.oldRange.1 < a.oldRange.2) ∧
        ¬ (a.oldRange.1 = b.oldRange.1 ∧ a.oldRange.1 ≠ a.oldRange.2 ∧
          b.oldRange.1 = b.oldRange.2) := by
  subst hm
  rw [conflicts_eq_nil_iff ⟨hl, hr⟩]
  constructor
  · rintro ⟨hno, hpass⟩ a ha b hb hae hbe
    have hamem : a.edit localText ∈ editList ops localText := mem_editList.mpr ⟨a, ha, hae, rfl⟩
    have hbmem : b.edit remoteText ∈ editList ops' remoteText := mem_editList.mpr ⟨b, hb, hbe, rfl⟩
    refine ⟨hno _ hamem _ hbmem, fun ⟨heq, hne, hins⟩ => ?_⟩
    have hc := (conflicts_eq_nil_iff ⟨hl, hr⟩).mpr hno
    refine Bool.false_ne_true ((hpass _ hbmem).symm.trans (passedOver_iff.mpr ⟨rfl, hins, _, hamem,
      hne, heq, ?_⟩))
    simp [inRegion, hc]
  · intro h
    refine ⟨fun e he f hf => ?_, fun f hf => ?_⟩
    · obtain ⟨a, ha, hae, rfl⟩ := mem_editList.mp he
      obtain ⟨b, hb, hbe, rfl⟩ := mem_editList.mp hf
      exact (h a ha b hb hae hbe).1
    · rw [Bool.eq_false_iff, ne_eq, passedOver_iff]
      rintro ⟨-, hins, e, he, hne, heq, -⟩
      obtain ⟨a, ha, hae, rfl⟩ := mem_editList.mp he
      obtain ⟨b, hb, hbe, rfl⟩ := mem_editList.mp hf
      exact (h a ha b hb hae hbe).2 ⟨heq, hne, hins⟩

theorem BothChanged.symm (h : BothChanged base localText remoteText) :
    BothChanged base remoteText localText :=
  ⟨h.1.symm, h.2.2, h.2.1⟩

theorem Independent.symm (h : Independent ops ops') : Independent ops' ops :=
  fun b hb a ha hbe hae => (h a ha b hb hae hbe).symm

/-- Independent changes merge without a conflict, and the same way when the sides are exchanged,
exactly when no change or shifted operation of one side meets one of the other. -/
theorem independent_edits_merge_iff
    (hl : EditScript (splitLines base) (splitLines localText) (textDiff base localText))
    (hr : EditScript (splitLines base) (splitLines remoteText) (textDiff base remoteText))
    (hself : ∀ op ∈ textDiff base base, op.isEqual = true)
    (hind : Independent (textDiff base localText) (textDiff base remoteText)) :
    (MergesTo textDiff base localText remoteText (bothApplied textDiff base localText remoteText) ∧
      MergesTo textDiff base remoteText localText
        (bothApplied textDiff base localText remoteText)) ↔
      (BothChanged base localText remoteText →
        ∀ a ∈ textDiff base localText, ∀ b ∈ textDiff base remoteText,
          a.isEdit = true → b.isEdit = true → ¬ a.Meets b) := by
  have hlo := orderedEdits_editList hl
  have hro := orderedEdits_editList hr
  by_cases hboth : BothChanged base localText remoteText
  swap
  · refine iff_of_true ⟨mergesTo_of_not_bothChanged hl hr hself hind hboth, ?_⟩
      fun h => absurd h hboth
    rw [bothApplied_comm hl hr hind]
    exact mergesTo_of_not_bothChanged hr hl hself hind.symm fun h => hboth h.symm
  rw [mergesTo_iff_of_bothChanged hboth (mergeInput_eq hl hr) ⟨hlo, hro⟩,
    mergesTo_iff_of_bothChanged hboth.symm (mergeInput_eq hr hl) ⟨hro, hlo⟩,
    clean_iff hlo hro rfl, clean_iff hro hlo rfl]
  constructor
  · rintro ⟨⟨h, -⟩, h', -⟩ - a ha b hb hae hbe (hover | ⟨heq, hne⟩)
    · exact (h a ha b hb hae hbe).1 hover
    · by_cases hins : b.oldRange.1 = b.oldRange.2
      · exact (h a ha b hb hae hbe).2 ⟨heq, fun h => hne (iff_of_true h hins), hins⟩
      · refine (h' b hb a ha hbe hae).2 ⟨heq.symm, hins, ?_⟩
        by_contra hne'
        exact hne (iff_of_false hne' hins)
  · intro h
    have hmeets := h hboth
    have hclean : ∀ a ∈ textDiff base localText, ∀ b ∈ textDiff base remoteText,
        a.isEdit = true → b.isEdit = true →
        ¬ (a.oldRange.1 < b.oldRange.2 ∧ b.oldRange.1 < a.oldRange.2) ∧
        ¬ (a.oldRange.1 = b.oldRange.1 ∧ a.oldRange.1 ≠ a.oldRange.2 ∧
          b.oldRange.1 = b.oldRange.2) := fun a ha b hb hae hbe =>
      ⟨fun hover => hmeets a ha b hb hae hbe (.inl hover), fun ⟨heq, hne, hins⟩ =>
        hmeets a ha b hb hae hbe (.inr ⟨heq, fun h => hne (h.mpr hins)⟩)⟩
    have hclean' : ∀ b ∈ textDiff base remoteText, ∀ a ∈ textDiff base localText,
        b.isEdit = true → a.isEdit = true →
        ¬ (b.oldRange.1 < a.oldRange.2 ∧ a.oldRange.1 < b.oldRange.2) ∧
        ¬ (b.oldRange.1 = a.oldRange.1 ∧ b.oldRange.1 ≠ b.oldRange.2 ∧
          a.oldRange.1 = a.oldRange.2) := fun b hb a ha hbe hae =>
      ⟨fun hover => hmeets a ha b hb hae hbe (.inl hover.symm), fun ⟨heq, hne, hins⟩ =>
        hmeets a ha b hb hae hbe (.inr ⟨heq.symm, fun h => hne (h.mp hins)⟩)⟩
    have hno := (conflicts_eq_nil_iff ⟨hlo, hro⟩).mp ((clean_iff hlo hro rfl).mpr hclean).1
    refine ⟨⟨hclean, ?_⟩, hclean', ?_⟩
    · exact congrArg join (applyFrom_interleave_editList hl hr hno).symm
    · rw [bothApplied_comm hl hr hind]
      exact congrArg join (applyFrom_interleave_editList hr hl
        fun f hf e he hover => hno e he f hf hover.symm).symm

/-- A local change of the first of three lines and a remote line added at the end. -/
def firstAndLastDiff (_base side : String) : List DiffOp :=
  if side = "A\nb\nc\n" then [.replace 0 1 0 1, .equal 1 1 2]
  else if side = "a\nb\nc\nd\n" then [.equal 0 0 3, .insert 3 3 1]
  else [.equal 0 0 3]

theorem independent_edits_merge_first_and_last :
    MergesTo firstAndLastDiff "a\nb\nc\n" "A\nb\nc\n" "a\nb\nc\nd\n" "A\nb\nc\nd\n" ∧
    MergesTo firstAndLastDiff "a\nb\nc\n" "a\nb\nc\nd\n" "A\nb\nc\n" "A\nb\nc\nd\n" := by
  have htext : bothApplied firstAndLastDiff "a\nb\nc\n" "A\nb\nc\n" "a\nb\nc\nd\n" =
      "A\nb\nc\nd\n" := by
    have hl : changes (firstAndLastDiff "a\nb\nc\n" "A\nb\nc\n") "A\nb\nc\n" =
      [⟨0, 1, ["A\n"]⟩] := by decide
    have hr : changes (firstAndLastDiff "a\nb\nc\n" "a\nb\nc\nd\n") "a\nb\nc\nd\n" =
      [⟨3, 3, ["d\n"]⟩] := by decide
    have hboth : interleave [⟨0, 1, ["A\n"]⟩] [⟨3, 3, ["d\n"]⟩] =
      [⟨.localSide, 0, 1, ["A\n"]⟩, ⟨.remoteSide, 3, 3, ["d\n"]⟩] := by
      simp [interleave, Edit.on, before]
    rw [bothApplied, hl, hr, hboth]
    decide
  rw [← htext]
  exact (independent_edits_merge_iff (by decide) (by decide) (by decide) (by decide)).mpr
    fun _ => by decide

/-- A local line added in front of four lines and a remote change of the last one. -/
def addAndChangeDiff (_base side : String) : List DiffOp :=
  if side = "x\na\nb\nc\nd\n" then [.insert 0 0 1, .equal 0 1 4]
  else if side = "a\nb\nc\nD\n" then [.equal 0 0 3, .replace 3 1 3 1]
  else [.equal 0 0 4]

/-- The added line shifts all lines of the base, and the shifted lines collide with the change. -/
theorem independent_edits_conflict :
    let base := "a\nb\nc\nd\n"
    let localText := "x\na\nb\nc\nd\n"
    let remoteText := "a\nb\nc\nD\n"
    EditScript (splitLines base) (splitLines localText) (addAndChangeDiff base localText) ∧
    EditScript (splitLines base) (splitLines remoteText) (addAndChangeDiff base remoteText) ∧
    (∀ op ∈ addAndChangeDiff base base, op.isEqual = true) ∧
    Independent (addAndChangeDiff base localText) (addAndChangeDiff base remoteText) ∧
    bothApplied addAndChangeDiff base localText remoteText = "x\na\nb\nc\nD\n" ∧
    threeWayMerge addAndChangeDiff 1 base localText remoteText = some ⟨"<<<<<<< local\n" ++
      "x\na\nb\nc\nd\n" ++ "=======\n" ++ "a\nb\nc\nD\n" ++ ">>>>>>> remote\n", true, 1⟩ ∧
    ∀ text, ¬ MergesTo addAndChangeDiff base localText remoteText text := by
  intro base localText remoteText
  have hl : EditScript (splitLines base) (splitLines localText)
      (addAndChangeDiff base localText) := by decide
  have hr : EditScript (splitLines base) (splitLines remoteText)
      (addAndChangeDiff base remoteText) := by decide
  have htext : bothApplied addAndChangeDiff base localText remoteText = "x\na\nb\nc\nD\n" := by
    have hl : changes (addAndChangeDiff base localText) localText = [⟨0, 0, ["x\n"]⟩] := by decide
    have hr : changes (addAndChangeDiff base remoteText) remoteText = [⟨3, 4, ["D\n"]⟩] := by decide
    have hboth : interleave [⟨0, 0, ["x\n"]⟩] [⟨3, 4, ["D\n"]⟩] =
      [⟨.localSide, 0, 0, ["x\n"]⟩, ⟨.remoteSide, 3, 4, ["D\n"]⟩] := by
      simp [interleave, Edit.on, before]
    rw [bothApplied, hl, hr, hboth]
    decide
  refine ⟨hl, hr, by decide, by decide, htext, by decide, fun text h => ?_⟩
  rw [mergesTo_iff_of_bothChanged (by unfold BothChanged; decide) (mergeInput_eq hl hr)
    ⟨orderedEdits_editList hl, orderedEdits_editList hr⟩] at h
  exact absurd h.1.1 (by decide)

end Syncthing
