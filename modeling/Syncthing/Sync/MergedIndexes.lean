import Syncthing.Sync.Arbitration

/-! `merge_indexes` of `index_handler.rs`, with the second rule for winners, `select_winner` of
`conflict_resolver.rs`. -/
namespace Syncthing

open Challenge KeyedList

/-- The winner by version vectors, or else by modification times. -/
def selectWinner (localFile remote : FileInfo) : FileInfo :=
  if remote.version.dominates localFile.version then remote
  else if localFile.version.dominates remote.version then localFile
  else if remote.modifiedS > localFile.modifiedS then remote
  else if remote.modifiedS < localFile.modifiedS then localFile
  else if remote.modifiedNs > localFile.modifiedNs then remote
  else localFile

def mergeFile (fileMap : FolderFiles) (file : FileInfo) : FolderFiles :=
  match fileMap.find? file.name with
  | some existing => if selectWinner existing file = file then fileMap.upsert file else fileMap
  | none => fileMap.upsert file

def mergeIndexes : List Index → Index
  | [] => ⟨"", []⟩
  | index :: indexes =>
    ⟨index.folder, (((index :: indexes).flatMap (·.files)).foldl mergeFile .empty).entries⟩

/-- With records of `S` the order of the indexes does not matter, and of two records of one name
the one is kept that the arbitration keeps. -/
structure MergesAlike (S : Set FileInfo) : Prop where
  order : ∀ indexes indexes' : List Index, (∀ index ∈ indexes, ∀ f ∈ index.files, f ∈ S) →
    indexes.Perm indexes' → ∀ f, f ∈ (mergeIndexes indexes).files ↔ f ∈ (mergeIndexes indexes').files
  arbitration : ∀ a ∈ S, ∀ b ∈ S, a.name = b.name → ∀ folder,
    (mergeIndexes [⟨folder, [a]⟩, ⟨folder, [b]⟩]).files = [hold Overrides a b]

/-- Different records of one name have different vectors, and different modification times if they
are concurrent. No three of them override each other in a round. -/
structure Ranked (S : Set FileInfo) : Prop where
  apart : ∀ a ∈ S, ∀ b ∈ S, a.name = b.name → a ≠ b →
    a.version.get ≠ b.version.get ∧ (isConflict a b = true → a.modified ≠ b.modified)
  round : ∀ a ∈ S, ∀ b ∈ S, ∀ c ∈ S, a.name = b.name → b.name = c.name →
    Overrides a b → Overrides b c → ¬ Overrides c a

variable {a b c : FileInfo} {files : List FileInfo} {name : String} {S : Set FileInfo}

theorem selectWinner_mem (a b : FileInfo) : selectWinner a b = a ∨ selectWinner a b = b := by
  unfold selectWinner
  split_ifs <;> simp

/-- What is kept for a name. -/
def keep (kept : Option FileInfo) (file : FileInfo) : Option FileInfo :=
  some (kept.elim file (selectWinner · file))

variable (fileMap : FolderFiles)

theorem find?_mergeFile : (mergeFile fileMap a).find? name =
      if a.name = name then keep (fileMap.find? name) a else fileMap.find? name := by
  unfold mergeFile
  by_cases hname : a.name = name
  · subst hname
    cases hfind : fileMap.find? a.name with
    | none => simp [keep]
    | some existing =>
      dsimp only
      rcases selectWinner_mem existing a with hwins | hwins
      · split <;> simp_all [keep]
      · simp [hwins, keep]
  · cases fileMap.find? a.name with
    | none => simp [hname]
    | some existing =>
      dsimp only
      split <;> simp [hname]

theorem find?_foldl_mergeFile : (files.foldl mergeFile fileMap).find? name =
      (versionsOf name files).foldl keep (fileMap.find? name) := by
  induction files generalizing fileMap with
  | nil => rfl
  | cons f files ih =>
    rw [List.foldl_cons, ih, find?_mergeFile]
    by_cases hname : f.name = name <;> simp [versionsOf, hname]

theorem mem_mergeIndexes_iff {indexes : List Index} : a ∈ (mergeIndexes indexes).files ↔
    (versionsOf a.name (indexes.flatMap (·.files))).foldl keep none = some a := by
  cases indexes with
  | nil => simp [mergeIndexes, versionsOf]
  | cons index indexes =>
    have hfind : (((index :: indexes).flatMap (·.files)).foldl mergeFile .empty).find? a.name =
        _ := find?_foldl_mergeFile .empty
    exact ⟨fun h => hfind.symm.trans (find?_key h), fun h =>
      (find?_eq_some_iff.mp (hfind.trans h)).1⟩

theorem mergeIndexes_pair (hname : a.name = b.name) (folder : String) :
    (mergeIndexes [⟨folder, [a]⟩, ⟨folder, [b]⟩]).files = [selectWinner a b] := by
  by_cases hb : selectWinner a b = b
  · simp [mergeIndexes, mergeFile, KeyedList.empty, find?, upsert, upsertList, hname, hb]
  · have ha := (selectWinner_mem a b).resolve_right hb
    have hne : a ≠ b := fun h => hb (ha.trans h)
    simp [mergeIndexes, mergeFile, KeyedList.empty, find?, upsert, upsertList, hname, ha, hne]

theorem selectWinner_eq (a b : FileInfo) : selectWinner a b =
    if b.version.dominates a.version then b else if a.version.dominates b.version then a
    else if a.modified.before b.modified then b else a := by
  have hbefore : a.modified.before b.modified = true ↔ a.modifiedS < b.modifiedS ∨
      a.modifiedS = b.modifiedS ∧ a.modifiedNs < b.modifiedNs := by
    simp only [Mtime.before, Bool.or_eq_true, Bool.and_eq_true, decide_eq_true_eq]
    rfl
  simp only [selectWinner, hbefore]
  split_ifs <;> first | rfl | omega

theorem Mtime.before_or_eq (x y : Mtime) : x.before y = true ∨ x = y ∨ y.before x = true := by
  simp only [Mtime.before, Bool.or_eq_true, Bool.and_eq_true, decide_eq_true_eq, Prod.ext_iff]
  omega

/-- Both rules agree on records that are apart. -/
theorem selectWinner_eq_hold (hget : a.version.get ≠ b.version.get)
    (hmodified : isConflict a b = true → a.modified ≠ b.modified) :
    selectWinner a b = hold Overrides a b := by
  rw [selectWinner_eq]
  split
  next hle =>
    rw [Vector.dominates_iff] at hle
    have hoverrides : Overrides b a :=
      .inl (needsUpdate_update_iff_lt.mpr (lt_of_le_of_ne hle hget))
    exact (hold_of_beats hoverrides).symm
  next hab =>
    split
    next hle =>
      rw [Vector.dominates_iff] at hle
      have hoverrides : Overrides a b :=
        .inl (needsUpdate_update_iff_lt.mpr (lt_of_le_of_ne hle hget.symm))
      exact (hold_of_not_beats ((overrides_iff_of_ne hget).mp hoverrides)).symm
    next hba =>
      rw [Vector.dominates_iff] at hab hba
      have hconflict : isConflict a b = true := isConflict_iff.mpr ⟨hba, hab⟩
      split
      next hbefore =>
        have hwins : remoteWinsConflict a b = true := by simp [remoteWinsConflict, hbefore]
        have hoverrides : Overrides b a := .inr ⟨hconflict, hwins⟩
        exact (hold_of_beats hoverrides).symm
      next hbefore =>
        have hafter := ((Mtime.before_or_eq _ _).resolve_left hbefore).resolve_left
          (hmodified hconflict)
        have hwins : remoteWinsConflict a b = false := by simp [remoteWinsConflict, hbefore, hafter]
        refine (hold_of_not_beats ?_).symm
        rw [Overrides, needsUpdate_update_iff_lt, hwins]
        rintro (hlt | ⟨-, hfalse⟩)
        · exact hab hlt.le
        · cases hfalse

/-- Where both rules agree in both orders, the records are apart. -/
theorem apart_of_selectWinner_eq_hold (hne : a ≠ b) (hab : selectWinner a b = hold Overrides a b)
    (hba : selectWinner b a = hold Overrides b a) :
    a.version.get ≠ b.version.get ∧ (isConflict a b = true → a.modified ≠ b.modified) := by
  constructor
  · intro hget
    have hoverrides : ¬ Overrides b a := by
      rw [Overrides, needsUpdate_update_iff_lt, isConflict_iff, hget]
      simp
    rw [selectWinner_eq, if_pos (Vector.dominates_iff.mpr hget.le),
      hold_of_not_beats hoverrides] at hab
    exact hne hab.symm
  · intro hconflict hmodified
    obtain ⟨hnba, hnab⟩ := isConflict_iff.mp hconflict
    rw [← Vector.dominates_iff] at hnba hnab
    have hbefore : a.modified.before b.modified ≠ true := by
      rw [hmodified]
      simp [Mtime.before]
    rw [selectWinner_eq, if_neg hnab, if_neg hnba, if_neg hbefore] at hab
    rw [selectWinner_eq, if_neg hnba, if_neg hnab, if_neg (hmodified ▸ hbefore)] at hba
    have hnot : ¬ Overrides b a := fun h => hne (hab.trans (hold_of_beats h))
    have hnot' : ¬ Overrides a b := fun h => hne (hba.trans (hold_of_beats h)).symm
    exact hnot' ((overrides_iff_of_ne fun hget => hnba (Vector.dominates_iff.mpr hget.ge)).mpr hnot)

theorem selectWinner_self (a : FileInfo) : selectWinner a a = a := by
  rcases selectWinner_mem a a with h | h <;> exact h

/-- The records of one name among some of `S`. -/
theorem Ranked.selectWinner_eq_hold (h : Ranked S) (ha : a ∈ S) (hb : b ∈ S)
    (hname : a.name = b.name) : selectWinner a b = hold Overrides a b := by
  by_cases hab : a = b
  · subst hab
    rw [selectWinner_self, hold_of_not_beats (not_overrides_self a)]
  · obtain ⟨hget, hmodified⟩ := h.apart a ha b hb hname hab
    exact Syncthing.selectWinner_eq_hold hget hmodified

theorem Ranked.foldl_keep (h : Ranked S) (hfiles : ∀ f ∈ c :: files, f ∈ S ∧ f.name = name) :
    files.foldl keep (some c) = some (final Overrides c files) := by
  induction files generalizing c with
  | nil => rfl
  | cons f files ih =>
    obtain ⟨hc, hrest⟩ := List.forall_mem_cons.mp hfiles
    obtain ⟨hf, hrest⟩ := List.forall_mem_cons.mp hrest
    have hkeep : keep (some c) f = some (hold Overrides c f) :=
      congrArg some (h.selectWinner_eq_hold hc.1 hf.1 (hc.2.trans hf.2.symm))
    rw [List.foldl_cons, hkeep, final_cons]
    refine ih (List.forall_mem_cons.mpr ⟨?_, hrest⟩)
    rcases hold_mem Overrides c f with heq | heq <;> rwa [heq]

/-- What is kept is what none of the others overrides, in whatever order they come. -/
theorem Ranked.exists_kept (h : Ranked S) (hfiles : ∀ f ∈ files, f ∈ S ∧ f.name = name)
    (hne : files ≠ []) :
    ∃ w, ∀ files' : List FileInfo, files.Perm files' → files'.foldl keep none = some w := by
  have htournament : Tournament Overrides files := tournament_overrides fun a ha b hb hget => by
    by_contra hab
    obtain ⟨haS, haname⟩ := hfiles a ha
    obtain ⟨hbS, hbname⟩ := hfiles b hb
    exact (h.apart a haS b hbS (haname.trans hbname.symm) hab).1 hget
  obtain ⟨w, hw, hunbeaten⟩ := htournament.exists_unbeaten hne fun a ha b hb c hc =>
    h.round a (hfiles a ha).1 b (hfiles b hb).1 c (hfiles c hc).1
      ((hfiles a ha).2.trans (hfiles b hb).2.symm) ((hfiles b hb).2.trans (hfiles c hc).2.symm)
  refine ⟨w, fun files' hperm => ?_⟩
  cases files' with
  | nil => exact absurd hperm.eq_nil hne
  | cons c rest =>
    have hsub := hperm.symm.subset
    have hfinal : final Overrides c rest = w := by
      rcases List.mem_cons.mp (hperm.mem_iff.mp hw) with rfl | hw
      · exact Tournament.final_of_held fun x hx => hunbeaten x (hsub (List.mem_cons_of_mem _ hx))
      · obtain ⟨hc, hrest⟩ := List.cons_subset.mp hsub
        exact htournament.final_of_unbeaten hc hrest hw hunbeaten
    have hkept := h.foldl_keep (c := c) fun f hf => hfiles f (hsub hf)
    rw [hfinal] at hkept
    exact hkept

theorem MergesAlike.selectWinner_eq_hold (h : MergesAlike S) (ha : a ∈ S) (hb : b ∈ S)
    (hname : a.name = b.name) : selectWinner a b = hold Overrides a b := by
  have hpair := h.arbitration a ha b hb hname ""
  rw [mergeIndexes_pair hname] at hpair
  exact (List.cons.inj hpair).1

/-- Merging three records, each in an index of its own. -/
theorem mem_mergeIndexes_three (hab : a.name = b.name) (hbc : b.name = c.name) {f : FileInfo}
    (hf : f.name = c.name) : f ∈ (mergeIndexes [⟨"", [a]⟩, ⟨"", [b]⟩, ⟨"", [c]⟩]).files ↔
      selectWinner (selectWinner a b) c = f := by
  rw [mem_mergeIndexes_iff]
  simp [versionsOf, keep, hab, hbc, hf]

/-- Merging does not depend on the order and agrees with the arbitration exactly on records that
are ranked. -/
theorem mergesAlike_iff (S : Set FileInfo) : MergesAlike S ↔ Ranked S := by
  constructor
  · intro h
    have hapart : ∀ a ∈ S, ∀ b ∈ S, a.name = b.name → a ≠ b →
        a.version.get ≠ b.version.get ∧ (isConflict a b = true → a.modified ≠ b.modified) :=
      fun a ha b hb hname hne => apart_of_selectWinner_eq_hold hne
        (h.selectWinner_eq_hold ha hb hname) (h.selectWinner_eq_hold hb ha hname.symm)
    have hstays : ∀ x ∈ S, ∀ y ∈ S, x.name = y.name → Overrides x y → selectWinner x y = x := by
      intro x hx y hy hname hxy
      have hne : x ≠ y := by
        rintro rfl
        exact not_overrides_self x hxy
      rw [h.selectWinner_eq_hold hx hy hname]
      exact hold_of_not_beats ((overrides_iff_of_ne (hapart x hx y hy hname hne).1).mp hxy)
    refine ⟨hapart, fun a ha b hb c hc hab hbc hoab hobc hoca => ?_⟩
    -- the last of the three is kept, and any of them can be that
    have hkept : c ∈ (mergeIndexes [⟨"", [a]⟩, ⟨"", [b]⟩, ⟨"", [c]⟩]).files := by
      rw [mem_mergeIndexes_three hab hbc rfl, hstays a ha b hb hab hoab,
        h.selectWinner_eq_hold ha hc (hab.trans hbc), hold_of_beats hoca]
    have hperm : [(⟨"", [a]⟩ : Index), ⟨"", [b]⟩, ⟨"", [c]⟩].Perm
        [⟨"", [b]⟩, ⟨"", [c]⟩, ⟨"", [a]⟩] := (List.perm_append_singleton _ [_, _]).symm
    rw [h.order _ _ (by simp [ha, hb, hc]) hperm,
      mem_mergeIndexes_three hbc (hab.trans hbc).symm (hab.trans hbc).symm,
      hstays b hb c hc hbc hobc, h.selectWinner_eq_hold hb ha hab.symm, hold_of_beats hoab] at hkept
    rw [hkept] at hoca
    exact not_overrides_self c hoca
  · intro h
    refine ⟨fun indexes indexes' hS hperm f => ?_, fun a ha b hb hname folder => ?_⟩
    · rw [mem_mergeIndexes_iff, mem_mergeIndexes_iff]
      have hversions : (versionsOf f.name (indexes.flatMap (·.files))).Perm
          (versionsOf f.name (indexes'.flatMap (·.files))) := (hperm.flatMap_right _).filter _
      by_cases hnil : versionsOf f.name (indexes.flatMap (·.files)) = []
      · rw [hnil] at hversions
        rw [hnil, ← hversions.nil_eq]
      · have hfiles : ∀ g ∈ versionsOf f.name (indexes.flatMap (·.files)),
            g ∈ S ∧ g.name = f.name := by
          intro g hg
          simp only [versionsOf, List.mem_filter, List.mem_flatMap, decide_eq_true_eq] at hg
          obtain ⟨⟨index, hindex, hg⟩, hname⟩ := hg
          exact ⟨hS index hindex g hg, hname⟩
        obtain ⟨w, hw⟩ := h.exists_kept hfiles hnil
        rw [hw _ (List.Perm.refl _), hw _ hversions]
    · rw [mergeIndexes_pair hname, h.selectWinner_eq_hold ha hb hname]

/-- Two devices edit `x` within the same second: the edit of the index that comes first is kept,
whichever the arbitration takes. -/
theorem merge_depends_on_order : let first : Index := ⟨"f", [editOf 1 7 10]⟩
    let second : Index := ⟨"f", [editOf 2 8 10]⟩
    (mergeIndexes [first, second]).files = [editOf 1 7 10] ∧
      (mergeIndexes [second, first]).files = [editOf 2 8 10] ∧
      hold Overrides (editOf 1 7 10) (editOf 2 8 10) =
        hold Overrides (editOf 2 8 10) (editOf 1 7 10) := by
  decide +kernel

end Syncthing
