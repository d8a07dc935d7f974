import Syncthing.Sync.FolderModel
import Syncthing.Sync.PullerFrame

/-! Temporary files, the archive, the trash and conflict copies stand at paths no scan looks at. Of
the other paths, a file moves away, directories appear above a download, and a download replaces its
target. -/
namespace Syncthing

open FileStore Program List Disk Text

variable {env : PullEnv} {ienv : IndexEnv} {st : FolderState} {info recorded : FileInfo}
  {d d' d'' : Disk} {p q path dst : List String} {name : String} {now : Mtime}

/-- No component of the path is one that scans skip. -/
def Visible (p : List String) : Prop := ∀ c ∈ p, skippedName c = false

instance : Decidable (Visible p) := inferInstanceAs (Decidable (∀ c ∈ p, skippedName c = false))

theorem Visible.of_le (h : Visible q) (hp : p <+: q) : Visible p := fun c hc => h c (hp.subset hc)

theorem Visible.not_le (h : Visible q) (hp : ¬ Visible p) : ¬ p <+: q := fun hle => hp (h.of_le hle)

theorem not_visible_of_mem {c : String} (hc : c ∈ p) (h : skippedName c = true) : ¬ Visible p := by
  intro hv
  rw [hv c hc] at h
  cases h

def temporaryName (c : String) : Bool := startsWith c ".syncthing." && endsWith c ".tmp"

/-- Neither in the archive nor in the trash, and no temporary file. -/
def Ordinary (p : List String) : Prop :=
  p.head? ≠ some ".stversions" ∧ p.head? ≠ some ".sttrash" ∧ ∀ c ∈ p, temporaryName c = false

instance : Decidable (Ordinary p) := inferInstanceAs (Decidable (_ ∧ _ ∧ _))

theorem Visible.ordinary (h : Visible p) : Ordinary p := by
  have hhead : ∀ {c}, skippedName c = true → p.head? ≠ some c := fun hc heq =>
    not_visible_of_mem (mem_of_mem_head? heq) hc h
  refine ⟨hhead (by decide), hhead (by decide), fun c hc => ?_⟩
  rw [← Bool.not_eq_true]
  intro htemp
  have hskipped : skippedName c = true := by
    simp only [temporaryName, Bool.and_eq_true] at htemp
    simp [skippedName, htemp.2]
  exact not_visible_of_mem hc hskipped h

namespace Ordinary

theorem of_le (h : Ordinary q) (hp : p <+: q) : Ordinary p := by
  obtain ⟨rest, rfl⟩ := hp
  refine ⟨?_, ?_, fun c hc => h.2.2 c (mem_append_left _ hc)⟩
  · cases p with
    | nil => simp
    | cons c p => exact h.1
  · cases p with
    | nil => simp
    | cons c p => exact h.2.1

theorem not_le_archive (h : Ordinary q) : ¬ stversionsDir <+: q := by
  rintro ⟨rest, rfl⟩
  exact h.1 rfl

theorem not_le_trash (h : Ordinary q) : ¬ [".sttrash"] <+: q := by
  rintro ⟨rest, rfl⟩
  exact h.2.1 rfl

theorem not_le_temp (h : Ordinary q) : ¬ tempPathFor path <+: q := by
  intro hle
  have htemp := (h.of_le hle).2.2 _ (mem_append_right _ mem_cons_self)
  rw [temporaryName, endsWith_append, String.append_assoc, startsWith_append] at htemp
  cases htemp

theorem ne_tempPathFor (h : Ordinary q) : q ≠ tempPathFor path := by
  rintro rfl
  exact h.not_le_temp (prefix_refl _)

theorem notMem_archivePlace (h : Ordinary q) (hq : q ≠ []) : q ∉ archivePlace := by
  rintro (hnil | hle)
  · exact hq hnil
  · exact h.not_le_archive hle

theorem tempPathFor_notMem_archivePlace (h : Ordinary path) : tempPathFor path ∉ archivePlace := by
  rintro (hnil | ⟨rest, hrest⟩)
  · exact tempPathFor_ne_nil _ hnil
  rw [tempPathFor] at hrest
  cases hfront : path.dropLast with
  | nil =>
    rw [hfront] at hrest
    have hname := congrArg (startsWith · ".syncthing.") (cons.inj hrest).1
    simp only [String.append_assoc, startsWith_append] at hname
    revert hname
    decide
  | cons c front =>
    rw [hfront] at hrest
    refine (h.of_le (List.dropLast_prefix path)).1 ?_
    rw [hfront, ← (cons.inj hrest).1]
    rfl

end Ordinary

theorem not_visible_sttrash : ¬ Visible [".sttrash"] := by decide

theorem Visible.notMem_archivePlace (h : Visible q) (hq : q ≠ []) : q ∉ archivePlace :=
  h.ordinary.notMem_archivePlace hq

theorem tempPathFor_notMem_archivePlace (h : Visible path) : tempPathFor path ∉ archivePlace :=
  h.ordinary.tempPathFor_notMem_archivePlace

/-- The mark of a conflict copy stands within one component of its path. -/
theorem exists_conflict_component (env : IndexEnv) (name : String) : ∃ front l r back,
    splitChar '/' (splitExtension name).1 = front ++ [l] ∧
      namePath (env.conflictName name) = front ++ (l ++ (".sync-conflict-" ++ r)) :: back := by
  have hmark : hasChar '/' ".sync-conflict-" = false := by decide
  obtain ⟨r, back, -, hr⟩ := splitChar_append_of_not_hasChar hmark
    (env.clock.formatLocalStamp env.clock.now.1 ++ "-" ++ env.localDeviceTag.getD "local" ++
      (splitExtension name).2)
  obtain ⟨front, l, r', back', hl, hr', h⟩ := splitChar_append '/' (splitExtension name).1
    (".sync-conflict-" ++ (env.clock.formatLocalStamp env.clock.now.1 ++ "-" ++
      env.localDeviceTag.getD "local" ++ (splitExtension name).2))
  rw [hr] at hr'
  obtain ⟨rfl, rfl⟩ := cons.inj hr'
  refine ⟨front, l, r, back, hl, ?_⟩
  rw [← h]
  simp [namePath, IndexEnv.conflictName, String.append_assoc]

theorem not_visible_conflictName (env : IndexEnv) (name : String) :
    ¬ Visible (namePath (env.conflictName name)) := by
  obtain ⟨front, l, r, back, -, h⟩ := exists_conflict_component env name
  rw [h]
  refine not_visible_of_mem (mem_append_right _ mem_cons_self) ?_
  rw [← String.append_assoc, skippedName, hasPart_append, Bool.or_true]

/-- Visible paths hold what they held, or nothing. -/
def Fades (d d' : Disk) : Prop := ∀ q, Visible q → q ≠ [] → d'.node q = d.node q ∨ d'.node q = none

theorem Fades.refl : Fades d d := fun _ _ _ => .inl rfl

theorem Fades.trans (h : Fades d d') (h' : Fades d' d'') : Fades d d'' := by
  intro q hv hq
  rcases h' q hv hq with h' | h'
  · rw [h']
    exact h q hv hq
  · exact .inr h'

theorem fades_of_sameOutside {S : Set (List String)} (h : SameOutside S d d')
    (hS : ∀ q ∈ S, Visible q → q = []) : Fades d d' :=
  fun q hv hq => .inl (h q fun hmem => hq (hS q hmem hv))

/-- A file that moves out of sight leaves nothing. -/
theorem fades_rename (h : d.rename p dst = .ok d') (hdst : ¬ Visible dst) : Fades d d' := by
  intro q hv _
  rcases rename_cases h with ⟨-, rfl⟩ | rfl
  · exact .inl rfl
  · by_cases hp : p <+: q
    · right
      simp [move, hp, hv.not_le hdst]
    · exact .inl (node_move_of_not_le (hv.not_le hdst) hp)

theorem MovedAway.fades (h : MovedAway ienv d name d') : Fades d d' := by
  cases h with
  | missing h => exact .refl
  | moved _ h hr => exact fades_rename hr (not_visible_conflictName _ _)

/-- After a conflict was resolved by moving the local file, nothing is there. -/
theorem MovedAway.not_pathExists (h : MovedAway ienv d name d') (hv : Visible (namePath name)) :
    d'.pathExists (namePath name) = false := by
  cases h with
  | missing h => exact h
  | moved _ h hr =>
    have hdst := not_visible_conflictName ienv name
    rcases rename_cases hr with ⟨heq, -⟩ | rfl
    · rw [heq] at hv
      exact absurd hv hdst
    · simp [pathExists, nodeAt, namePath_ne_nil, move, hv.not_le hdst]

namespace PullEnv

theorem sttrash_prefix_trashPath (env : PullEnv) (d : Disk) (name : String) :
    [".sttrash"] <+: env.trashPath d name := by
  unfold trashPath
  simp only
  split
  · obtain ⟨c, rest, hc⟩ := exists_cons_of_ne_nil (namePath_ne_nil name)
    simp only [hc, dropLast_cons_cons, cons_append]
    exact prefix_append [".sttrash"] _
  · exact prefix_append [".sttrash"] _

theorem fades_moveToTrash (env : PullEnv) (d : Disk) (name : String) :
    Fades d (env.moveToTrash d name).2 := by
  have hidden : ∀ rest, ¬ Visible (".sttrash" :: rest) := fun rest hv =>
    hv.not_le not_visible_sttrash (prefix_append [".sttrash"] rest)
  unfold moveToTrash
  simp only
  split
  · exact .refl
  next d1 h1 =>
    have hdir : Fades d d1 := by
      intro q hv hq
      left
      rw [node_createDirAll (orFault_eq_ok.mp h1).2, if_neg]
      intro hle
      rcases prefix_cons_iff.mp hle with rfl | ⟨rest, rfl, -⟩
      · exact hq rfl
      · exact hidden _ hv
    split
    · exact hdir
    next d2 h2 =>
      exact hdir.trans (fades_rename (orFault_eq_ok.mp h2).2 fun hv =>
        hv.not_le not_visible_sttrash (env.sttrash_prefix_trashPath d1 name))

theorem fades_deleteFile : Fades st.disk (env.deleteFile st info).2.disk := by
  rcases env.deleteFile_spec.2.1 with h | h
  · rw [h]
    exact .refl
  · rw [h]
    exact env.fades_moveToTrash st.disk info.name

theorem sameOutside_cleanupSttrash : SameOutside (under [".sttrash"]) d (env.cleanupSttrash d) := by
  have hentry : ∀ (d : Disk) (p : List String), [".sttrash"] <+: p →
      SameOutside (under [".sttrash"]) d (env.removeTrashEntry d p) := by
    intro d p hp
    unfold removeTrashEntry
    split
    · exact .refl
    · split
      · exact sameOutside_removeTree.mono fun q hq => hp.trans hq
      · exact sameOutside_remove hp
      · exact .refl
  have hfold : ∀ (ps : List (List String)) (d : Disk), (∀ p ∈ ps, [".sttrash"] <+: p) →
      SameOutside (under [".sttrash"]) d (ps.foldl env.removeTrashEntry d) := by
    intro ps
    induction ps with
    | nil => exact fun _ _ => .refl
    | cons p ps ih =>
      intro d hps
      exact (hentry d p (hps p mem_cons_self)).trans
        (ih _ fun q hq => hps q (mem_cons_of_mem _ hq))
  refine hfold _ d fun p hp => ?_
  obtain ⟨hnil, hdrop, -⟩ := mem_children.mp (mem_of_mem_filter hp)
  rw [← hdrop]
  exact dropLast_prefix p

end PullEnv

/-- What a path holds once the directories on the way to `path` are made. -/
def MadeTo (path : List String) (d d' : Disk) (q : List String) : Prop :=
  d'.node q = d.node q ∨ q <+: path ∧ d.node q = none ∧ ∃ now, d'.node q = some (.dir now 4096)

theorem madeTo_of_node
    (h : d'.node q = if q <+: path then (d.node q).or (some (.dir now 4096)) else d.node q) :
    MadeTo path d d' q := by
  rw [MadeTo, h]
  split
  next hle =>
    cases hn : d.node q with
    | none => exact .inr ⟨hle, rfl, now, rfl⟩
    | some n => exact .inl rfl
  · exact .inl rfl

theorem Disk.madeTo_createDirAll (h : d.createDirAll path now = .ok d') (q : List String) :
    MadeTo path d d' q := madeTo_of_node (node_createDirAll h)

theorem Prepared.madeTo (h : Prepared d path now d') (hq : q ≠ tempPathFor path) :
    MadeTo path.dropLast d d' q := madeTo_of_node (h.parents q hq)

theorem Visible.ne_tempPathFor (h : Visible q) : q ≠ tempPathFor path := h.ordinary.ne_tempPathFor

/-- At and below the file nothing but its temporary file changes. -/
theorem Prepared.node_of_le (h : Prepared d path now d') (hq : q ≠ tempPathFor path)
    (hp : path ≠ []) (hle : path <+: q) : d'.node q = d.node q := by
  rw [h.parents q hq, if_neg]
  intro habove
  have := hle.length_le.trans habove.length_le
  have := length_pos_of_ne_nil hp
  simp at *
  omega

namespace PullEnv

variable {st' : FolderState}

/-- Off its target, an installation touches nothing but temporary files. -/
theorem Installed.node_of_not_le {result : TaskResult}
    (h : Installed env st info recorded result st') (hv : Ordinary q)
    (hq : ¬ namePath info.name <+: q) : st'.disk.node q = st.disk.node q := by
  have hne : q ∉ ({namePath info.name} : Set (List String)) := by
    rintro rfl
    exact hq (prefix_refl _)
  have hmoved : ∀ {d d' : Disk}, Cleared (namePath info.name) st.disk d →
      d.rename (tempPathFor (namePath info.name)) (namePath info.name) = .ok d' →
      d'.node q = st.disk.node q := by
    intro d d' hc hr
    rw [← hc.others q hne]
    refine sameOutside_rename hr q ?_
    rintro (ht | ht)
    · exact hv.not_le_temp ht
    · exact hq ht
  cases h with
  | failed d hc => exact hc.others q hne
  | panicked d d' hc hr htime => exact hmoved hc hr
  | done d d' d'' hc hr hd =>
    rcases hd with rfl | ⟨modified, rfl⟩
    · exact hmoved hc hr
    · exact (sameOutside_setMtime (Set.mem_singleton _) q hne).trans (hmoved hc hr)

/-- Off its target, a download only makes directories. -/
theorem Downloads.madeTo {r : Downloaded} (h : Downloads env st info r) (hv : Ordinary q)
    (hnil : q ≠ []) (hq : ¬ namePath info.name <+: q) :
    MadeTo (namePath info.name).dropLast st.disk r.state.disk q := by
  cases h with
  | untouched e => exact .inl rfl
  | prepared e d hp => exact hp.madeTo hv.ne_tempPathFor
  | installed d recorded result state merged hp hrec hname hversion hi =>
    rw [MadeTo, hi.node_of_not_le hv hq]
    have hsame : (env.archiveExisting d (namePath info.name)).node q = d.node q :=
      sameOutside_archiveExisting q (hv.notMem_archivePlace hnil)
    rw [hsame]
    exact hp.madeTo hv.ne_tempPathFor

/-- A failed download leaves its target or nothing. -/
theorem Downloads.target_of_error {e : SyncError} {merged : Bool}
    (h : Downloads env st info ⟨.error e, st', merged⟩) (hv : Visible (namePath info.name)) :
    st'.disk.node (namePath info.name) = st.disk.node (namePath info.name) ∨
      st'.disk.node (namePath info.name) = none := by
  have hprep : ∀ {d}, Prepared st.disk (namePath info.name) env.clock.now d →
      d.node (namePath info.name) = st.disk.node (namePath info.name) := fun hp =>
    hp.node_of_le hv.ne_tempPathFor (namePath_ne_nil _) (prefix_refl _)
  cases h with
  | untouched => exact .inl rfl
  | prepared _ d hp => exact .inl (hprep hp)
  | installed d recorded _ _ _ hp hrec hname hversion hi =>
    cases hi with
    | failed d' hc =>
      have hsame : (env.archiveExisting d (namePath info.name)).node (namePath info.name) =
          st.disk.node (namePath info.name) :=
        (sameOutside_archiveExisting _ (hv.notMem_archivePlace (namePath_ne_nil _))).trans
          (hprep hp.toPrepared)
      rw [← hsame]
      exact hc.target

theorem Downloads.isSymlink_target {merged : Bool}
    (h : Downloads env st info ⟨.ok, st', merged⟩) (hv : Visible (namePath info.name))
    (hlink : st.disk.isSymlink (tempPathFor (namePath info.name)) = false) :
    st'.disk.isSymlink (namePath info.name) = false := by
  have hpath := namePath_ne_nil info.name
  have htemp := tempPathFor_ne_nil (namePath info.name)
  cases h with
  | installed d recorded _ _ _ hp hrec hname hversion hi =>
    cases hi with
    | done d1 d2 d3 hc hr hd =>
      have hkept : d1.nodeAt (tempPathFor (namePath info.name)) =
          d.nodeAt (tempPathFor (namePath info.name)) := by
        rw [nodeAt_eq htemp, nodeAt_eq htemp, hc.others _ (tempPathFor_ne hpath)]
        exact sameOutside_archiveExisting _ (tempPathFor_notMem_archivePlace hv)
      have hmoved : d2.isSymlink (namePath info.name) = false := by
        rw [isSymlink_congr ((nodeAt_rename hr htemp hpath).trans hkept)]
        exact hp.plain hlink
      rcases hd with rfl | ⟨modified, rfl⟩
      · exact hmoved
      · exact isSymlink_setMtime hpath hmoved

end PullEnv

end Syncthing
