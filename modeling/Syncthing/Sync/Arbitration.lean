import Syncthing.Lib.Challenge
import Syncthing.Sync.IndexFrame
import Syncthing.Sync.RecordedVersions

/-!
Which version of a file a device ends up with: of two, that each of two devices has, and of many,
that arrive in some order.
-/
namespace Syncthing

open Program Challenge Option IndexEnv KeyedList Syncthing.Vector

variable {env : IndexEnv} {s t : FolderState} {full : Bool} {files : List FileInfo}
  {a b c remote : FileInfo} {name : String}

/-- A remote record takes the place of the local one: it is newer, or concurrent and wins. -/
def Overrides (remote localFile : FileInfo) : Prop := needsUpdate localFile remote = .update ∨
    isConflict localFile remote = true ∧ remoteWinsConflict localFile remote = true

instance : DecidableRel Overrides := fun remote localFile =>
  inferInstanceAs (Decidable (needsUpdate localFile remote = .update ∨ _))

theorem needsUpdate_update_iff_lt : needsUpdate a b = .update ↔ a.version.get < b.version.get := by
  rw [needsUpdate_update_iff, lt_iff_le_not_ge, ← Vector.dominates_iff, ← Vector.dominates_iff]
  simp [and_comm]

/-- An ignored version is not a concurrent one. -/
theorem isConflict_of_ignore (h : needsUpdate a b = .ignore) : isConflict a b = false := by
  rw [← Bool.not_eq_true]
  exact fun hc => needsUpdate_ne_ignore hc h

theorem needsUpdate_self (a : FileInfo) : needsUpdate a a = .ignore := by
  have hd : a.version.dominates a.version = true := dominates_iff.mpr le_rfl
  simp [needsUpdate, compareVersions, hd]

theorem Mtime.before_asymm {x y : Mtime} (h : x.before y = true) : y.before x = false := by
  simp only [Mtime.before, Bool.or_eq_true, Bool.and_eq_true, decide_eq_true_eq,
    Bool.or_eq_false_iff, Bool.and_eq_false_iff, decide_eq_false_iff_not] at h ⊢
  omega

/-- Of two concurrent versions exactly one wins, whichever side decides. -/
theorem remoteWinsConflict_comm (h : isConflict a b = true) :
    remoteWinsConflict b a = !remoteWinsConflict a b := by
  obtain ⟨hba, hab⟩ := isConflict_iff.mp h
  unfold remoteWinsConflict
  cases hlt : a.modified.before b.modified with
  | true => simp [Mtime.before_asymm hlt]
  | false =>
    cases hgt : b.modified.before a.modified with
    | true => simp
    | false =>
      obtain ⟨dir, hdir⟩ := exists_concurrentOrder hba hab
      rw [concurrentOrder_comm b.version a.version, hdir]
      cases dir <;> decide

theorem overrides_iff_of_ne (hne : a.version.get ≠ b.version.get) :
    Overrides a b ↔ ¬ Overrides b a := by
  unfold Overrides
  rw [needsUpdate_update_iff_lt, needsUpdate_update_iff_lt]
  by_cases hc : isConflict a b = true
  · obtain ⟨hba, hab⟩ := isConflict_iff.mp hc
    have hc' : isConflict b a = true := isConflict_iff.mpr ⟨hab, hba⟩
    have hlt : ¬ a.version.get < b.version.get := fun h => hab h.le
    have hgt : ¬ b.version.get < a.version.get := fun h => hba h.le
    simp [hc, hc', hlt, hgt, remoteWinsConflict_comm hc]
  · have hc' : ¬ isConflict b a = true := by
      rw [isConflict_iff] at hc ⊢
      exact fun h => hc h.symm
    simp only [hc, hc', Bool.false_eq_true, false_and, or_false]
    rw [isConflict_iff, not_and_or, not_not, not_not] at hc
    constructor
    · exact fun h => h.asymm
    · intro h
      rcases hc with hc | hc
      · exact lt_of_le_of_ne hc (Ne.symm hne)
      · exact absurd (lt_of_le_of_ne hc hne) h

theorem not_overrides_self (a : FileInfo) : ¬ Overrides a a := by
  rintro (h | ⟨h, -⟩)
  · rw [needsUpdate_self] at h
    cases h
  · exact (isConflict_iff.mp h).1 le_rfl

/-- Versions with vectors of their own. -/
theorem tournament_overrides {S : List FileInfo}
    (hown : ∀ a ∈ S, ∀ b ∈ S, a.version.get = b.version.get → a = b) : Tournament Overrides S where
  irrefl a _ := not_overrides_self a
  asymm a ha b hb hne := overrides_iff_of_ne fun he => hne (hown a ha b hb he)

/-- The versions of a file in a list of records, in their order. -/
def versionsOf (name : String) (files : List FileInfo) : List FileInfo :=
  files.filter fun f => f.name = name

/-- An index or an index update is handled, without an error. -/
def Handles (env : IndexEnv) (full : Bool) (files : List FileInfo) (s t : FolderState) : Prop :=
  ∃ outcome, (if full then env.handleIndex files else env.handleIndexUpdate files) s = .ok outcome t

theorem IndexEnv.FileProcessed.find?_eq_hold {out : Option FileInfo}
    (h : FileProcessed env s remote out t) (hname : validateRemoteName remote.name = .ok ())
    (hf : s.db.find? remote.name = some c) :
    t.db.find? remote.name = some (hold Overrides c remote) := by
  have hstays (hnot : ¬ Overrides remote c) :
      s.db.find? remote.name = some (hold Overrides c remote) := by
    rw [hold_of_not_beats hnot, hf]
  have htakes (hbeats : Overrides remote c) :
      (s.db.upsert remote).find? remote.name = some (hold Overrides c remote) := by
    rw [hold_of_beats hbeats, find?_upsert, if_pos rfl]
  cases h with
  | rejected e he =>
    rw [hname] at he
    cases he
  | unknownDeletion hnone | new hnone =>
    rw [hf] at hnone
    cases hnone
  | ignored localFile hl hn =>
    obtain rfl := some.inj (hf.symm.trans hl)
    exact hstays (by simp [Overrides, hn, isConflict_of_ignore hn])
  | updated localFile hl hn =>
    obtain rfl := some.inj (hf.symm.trans hl)
    exact htakes (.inl hn)
  | sameVersion localFile hl hn hc =>
    obtain rfl := some.inj (hf.symm.trans hl)
    exact hstays (by simp [Overrides, hn, hc])
  | localWins localFile hl hc hw =>
    obtain rfl := some.inj (hf.symm.trans hl)
    refine hstays ?_
    rw [Overrides, needsUpdate_update_iff_lt]
    simpa [hw] using fun hlt => (isConflict_iff.mp hc).2 hlt.le
  | mergedLater localFile hl hc hw | renamed localFile disk hl hc hw =>
    obtain rfl := some.inj (hf.symm.trans hl)
    exact htakes (.inr ⟨hc, hw⟩)

/-- The versions of a file challenge the recorded one, in their order in the list. -/
theorem ends_collect_final (hname : validateRemoteName name = .ok ())
    (hf : s.db.find? name = some c) : Ends (collect env.processFile files)
      (fun _ t => t.db.find? name = some (final Overrides c (versionsOf name files)))
      (fun _ => True) s := by
  induction files generalizing s c with
  | nil => simpa [collect, versionsOf] using hf
  | cons f files ih =>
    simp only [collect, ends_bind, ends_pure]
    refine ends_processFile.imp (fun out t ht => ?_) fun _ _ => trivial
    by_cases hfile : f.name = name
    · subst hfile
      simpa [versionsOf] using ih (ht.find?_eq_hold hname hf)
    · have hother : t.db.find? name = some c := by
        rcases ht.db_eq with h | ⟨h, -⟩
        · rw [h, hf]
        · rw [h, find?_upsert, if_neg hfile, hf]
      simpa [versionsOf, hfile] using ih hother

theorem Handles.find?_eq_final (h : Handles env full files s t)
    (hname : validateRemoteName name = .ok ()) (hf : s.db.find? name = some c) :
    t.db.find? name = some (final Overrides c (versionsOf name files)) := by
  obtain ⟨outcome, h⟩ := h
  have hends : Ends (if full then env.handleIndex files else env.handleIndexUpdate files)
      (fun _ t => t.db.find? name = some (final Overrides c (versionsOf name files)))
      (fun _ => True) s :=
    ends_handle (ends_collect_final hname hf) (fun _ _ _ => trivial) trivial
  exact hends.of_ok h

/-- Where nothing fails and the file is not there, a record is processed. -/
theorem ends_processFile_calm (hfault : ∀ step, env.fault step = none)
    (hdisk : s.disk.pathExists (namePath remote.name) = false) :
    Ends (env.processFile remote) (fun _ t => t.disk = s.disk) (fun _ => False) s := by
  have hcheck (step : IndexStep) (error : IoError → SyncError) : env.check step error = .ok () := by
    rw [check, hfault]
  have hupdate (f : FileInfo) : Ends (env.updateFile f) (fun _ t => t.disk = s.disk)
      (fun _ => False) s := by
    simp [updateFile, hcheck]
  have hresolve (localFile : FileInfo) (hl : localFile.name = remote.name) :
      Ends (env.resolveNeeded localFile remote) (fun _ t => t.disk = s.disk)
        (fun _ => False) s := by
    have hrename : Ends (env.renameConflictFiles localFile remote)
        (fun _ t => t.disk = s.disk) (fun _ => False) s := by
      simp only [renameConflictFiles, ends_bind, ends_get, hl, hdisk, Bool.false_eq_true, if_false]
      exact hupdate remote
    simp only [resolveNeeded, resolveConflict, ends_bind, ends_ite, ends_pure]
    exact ⟨fun _ => trivial, fun _ => ⟨fun _ => hupdate localFile, fun _ =>
      ⟨fun _ => hupdate remote, fun _ => hrename⟩⟩⟩
  unfold processFile
  split
  · simp
  · simp only [getFile, ends_bind, ends_require, hcheck, ends_get, ends_pure]
    refine ⟨fun _ _ => ?_, fun _ he => by cases he⟩
    split
    next localFile hf =>
      have hl : localFile.name = remote.name := key_of_find? hf
      split
      · simp only [ends_ite, ends_bind, ends_pure]
        exact ⟨fun _ => hresolve localFile hl, fun _ => hupdate remote⟩
      · simp
      · exact hresolve localFile hl
    · simp only [ends_ite, ends_bind, ends_pure]
      exact ⟨fun _ => trivial, fun _ => hupdate remote⟩

theorem exists_handles_calm (files : List FileInfo) (hs : s.disk = .empty) :
    ∃ t, Handles calmIndex false files s t := by
  have hcollect : Ends (collect calmIndex.processFile files) (fun _ t => t.disk = .empty)
      (fun _ => False) s := by
    refine ends_collect (fun _ (t : FolderState) => t.disk = .empty) (fun f _ _ t ht => ?_) hs
    refine (ends_processFile_calm (fun _ => rfl) ?_).imp (fun _ u hu => hu.trans ht) fun _ => id
    rw [ht, Disk.pathExists, Disk.nodeAt, if_neg (namePath_ne_nil _)]
    rfl
  have hends : Ends (calmIndex.handleIndexUpdate files) (fun _ _ => True) (fun _ => False) s := by
    simp only [handleIndexUpdate, processFiles, unpushedFiles, ends_bind, ends_pure]
    exact hcollect.imp (fun _ _ _ => trivial) fun _ => id
  obtain ⟨outcome, t, h, -⟩ := hends.exists_ok
  exact ⟨t, outcome, h⟩

/-- Two devices hold versions `a` and `b` of a file, each handles an index in which the other
announces its version, as it was or after it has handled the index of the other. Then both hold
the same version and each ignores that of the other. -/
theorem two_peers_converge {envA envB : IndexEnv} {fullA fullB : Bool}
    {filesA filesB : List FileInfo} {s' t' : FolderState} {x y : FileInfo}
    (hname : validateRemoteName name = .ok ()) (hown : a.version.get = b.version.get → a = b)
    (ha : s.db.find? name = some a) (hb : t.db.find? name = some b)
    (hA : Handles envA fullA filesA s s') (hB : Handles envB fullB filesB t t')
    (hx : versionsOf name filesA = [x]) (hy : versionsOf name filesB = [y])
    (hrounds : x = b ∧ y = a ∨ x = b ∧ s'.db.find? name = some y ∨
      t'.db.find? name = some x ∧ y = a) :
    ∃ ra rb, s'.db.find? name = some ra ∧ t'.db.find? name = some rb ∧
      ra.version = rb.version ∧ needsUpdate ra rb = .ignore ∧ needsUpdate rb ra = .ignore := by
  have hs := hA.find?_eq_final hname ha
  have ht := hB.find?_eq_final hname hb
  rw [hx, final_cons, final_nil] at hs
  rw [hy, final_cons, final_nil] at ht
  have htournament : Tournament Overrides [a, b] := by
    refine tournament_overrides ?_
    simpa using ⟨hown, fun he => (hown he.symm).symm⟩
  have hcomm : hold Overrides a b = hold Overrides b a := htournament.hold_comm (by simp) (by simp)
  have hsame : hold Overrides a x = hold Overrides b y := by
    rcases hrounds with ⟨rfl, rfl⟩ | ⟨rfl, hround⟩ | ⟨hround, rfl⟩
    · exact hcomm
    · obtain rfl := some.inj (hs.symm.trans hround)
      rw [hcomm, htournament.hold_hold (by simp)]
    · obtain rfl := some.inj (ht.symm.trans hround)
      rw [← hcomm, htournament.hold_hold (by simp)]
  refine ⟨_, _, hs, ht, ?_⟩
  rw [hsame]
  exact ⟨rfl, needsUpdate_self _, needsUpdate_self _⟩

/-- A version of `x` of one device. -/
def editOf (device : UInt64) (byte : UInt8) (modifiedS : Int) : FileInfo :=
  { oneByte "x" byte with version := new.withCounter device 1, modifiedS }

/-- Two devices edit `x` at the same time, the second later by the clock. -/
theorem two_peers_converge_concurrent :
    let s : FolderState := ⟨empty.upsert (editOf 1 7 10), .empty⟩
    let t : FolderState := ⟨empty.upsert (editOf 2 8 20), .empty⟩
    ∃ s' t', Handles calmIndex false [editOf 2 8 20] s s' ∧
      Handles calmIndex false [editOf 2 8 20] t t' ∧ s'.db.find? "x" = some (editOf 2 8 20) ∧
      ∃ ra rb, s'.db.find? "x" = some ra ∧ t'.db.find? "x" = some rb ∧
        ra.version = rb.version ∧ needsUpdate ra rb = .ignore ∧ needsUpdate rb ra = .ignore := by
  intro s t
  have hs : s.db.find? "x" = some (editOf 1 7 10) := by decide
  have ht : t.db.find? "x" = some (editOf 2 8 20) := by decide
  have hx : versionsOf "x" [editOf 2 8 20] = [editOf 2 8 20] := by decide
  have hname : validateRemoteName "x" = .ok () := by decide
  obtain ⟨s', hA⟩ := exists_handles_calm (s := s) [editOf 2 8 20] rfl
  obtain ⟨t', hB⟩ := exists_handles_calm (s := t) [editOf 2 8 20] rfl
  have hfinal : s'.db.find? "x" = some (editOf 2 8 20) := by
    rw [hA.find?_eq_final hname hs]
    decide
  have hown : (editOf 1 7 10).version.get = (editOf 2 8 20).version.get →
      editOf 1 7 10 = editOf 2 8 20 := by
    intro h
    have hne : (editOf 1 7 10).version.get 1 ≠ (editOf 2 8 20).version.get 1 := by decide
    exact absurd (congrFun h 1) hne
  exact ⟨s', t', hA, hB, hfinal, two_peers_converge hname hown hs ht hA hB hx hx
    (.inr (.inl ⟨rfl, hfinal⟩))⟩

/-- The record of a file is newer than both versions that were in conflict. -/
def ConflictSettled (db : FolderFiles) (localFile remote : FileInfo) : Prop :=
  ∃ r, db.find? localFile.name = some r ∧ r.version.dominates localFile.version = true ∧
    r.version.dominates remote.version = true

/-- The winner is recorded as it is. -/
theorem IndexEnv.ends_resolveConflict {localFile : FileInfo}
    (hc : isConflict localFile remote = true) (hname : remote.name = localFile.name) :
    Ends (env.resolveConflict localFile remote)
      (fun _ t => t.db.find? localFile.name =
        some (if remoteWinsConflict localFile remote then remote else localFile))
      (fun _ => True) s := by
  unfold IndexEnv.resolveConflict
  simp only [hc, Bool.not_true, Bool.false_eq_true, if_false, ends_ite, ends_bind, ends_pure]
  refine ⟨fun hw => ?_, fun hw => ?_⟩
  · rw [Bool.not_eq_true'] at hw
    refine IndexEnv.ends_updateFile ?_ trivial
    simp [hw]
  · have hw : remoteWinsConflict localFile remote = true := by simpa using hw
    refine ⟨fun _ => IndexEnv.ends_updateFile ?_ trivial, fun _ => ?_⟩
    · simp [hw, hname]
    · refine IndexEnv.ends_renameConflictFiles.imp (fun _ t ht => ?_) fun _ _ => trivial
      obtain ⟨disk, -, rfl⟩ := ht
      simp [hw, hname]

/-- No conflict is settled when it is resolved: the winner keeps its own version, which the version
of the loser conflicts with, now and whenever it is announced again. -/
theorem resolved_conflict_recurs {localFile : FileInfo} {resolution : ConflictResolution}
    (hname : remote.name = localFile.name) (hc : isConflict localFile remote = true)
    (hok : env.resolveConflict localFile remote s = .ok resolution t) :
    ¬ ConflictSettled t.db localFile remote ∧ ∃ winner loser,
      (winner = localFile ∧ loser = remote ∨ winner = remote ∧ loser = localFile) ∧
      t.db.find? localFile.name = some winner ∧ isConflict winner loser = true := by
  have hrecorded := (ends_resolveConflict hc hname).of_ok hok
  obtain ⟨hremote, hlocal⟩ := isConflict_iff.mp hc
  refine ⟨?_, ?_⟩
  · rintro ⟨r, hr, hdl, hdr⟩
    rw [hrecorded] at hr
    cases hr
    rw [dominates_iff] at hdl hdr
    split at hdl
    · exact hlocal hdl
    next hw =>
      rw [if_neg hw] at hdr
      exact hremote hdr
  · cases hw : remoteWinsConflict localFile remote with
    | true =>
      rw [hw, if_pos rfl] at hrecorded
      exact ⟨remote, localFile, .inr ⟨rfl, rfl⟩, hrecorded, isConflict_iff.mpr ⟨hlocal, hremote⟩⟩
    | false =>
      rw [hw, if_neg Bool.false_ne_true] at hrecorded
      exact ⟨localFile, remote, .inl ⟨rfl, rfl⟩, hrecorded, hc⟩

/-- The local version is older by the clock: the record is then the remote one. -/
theorem resolved_conflict_recurs_remote :
    let s : FolderState := ⟨empty.upsert (editOf 1 7 10), .empty⟩
    ∃ t, calmIndex.resolveConflict (editOf 1 7 10) (editOf 2 8 20) s = .ok .renameBoth t ∧
      ¬ ConflictSettled t.db (editOf 1 7 10) (editOf 2 8 20) := by
  intro s
  obtain ⟨t, h⟩ : ∃ t, calmIndex.resolveConflict (editOf 1 7 10) (editOf 2 8 20) s =
    .ok .renameBoth t := ⟨_, rfl⟩
  refine ⟨t, h, (resolved_conflict_recurs ?_ ?_ h).1⟩
  · rfl
  · decide

theorem conflict_not_settled : let s : FolderState := ⟨empty.upsert (editOf 1 7 20), .empty⟩
    ∃ t r, isConflict (editOf 1 7 20) (editOf 2 8 10) = true ∧
      calmIndex.resolveConflict (editOf 1 7 20) (editOf 2 8 10) s = .ok .useLocal t ∧
      t.db.find? "x" = some r ∧ r.version.dominates (editOf 2 8 10).version = false ∧
      isConflict r (editOf 2 8 10) = true := by
  refine ⟨_, _, by decide, rfl, rfl, by decide, by decide⟩

/-- One index message and the device it finds. -/
structure IndexDelivery where
  env : IndexEnv
  full : Bool
  files : List FileInfo

/-- Index messages are handled one after the other, without an error. -/
inductive HandlesAll : FolderState → List IndexDelivery → FolderState → Prop where
  | nil {s : FolderState} : HandlesAll s [] s
  | cons {s t u : FolderState} {d : IndexDelivery} {ds : List IndexDelivery}
    (h : Handles d.env d.full d.files s t) (hrest : HandlesAll t ds u) : HandlesAll s (d :: ds) u

theorem HandlesAll.find?_eq_final {ds : List IndexDelivery} (h : HandlesAll s ds t)
    (hname : validateRemoteName name = .ok ()) (hf : s.db.find? name = some c) :
    t.db.find? name = some (final Overrides c (versionsOf name (ds.flatMap (·.files)))) := by
  induction h generalizing c with
  | nil => exact hf
  | cons h hrest ih =>
    rw [ih (h.find?_eq_final hname hf), List.flatMap_cons, versionsOf, versionsOf, versionsOf,
      List.filter_append, final_append]

/-- Whichever of the versions is recorded first, and in whatever order and messages they arrive,
the same one is recorded in the end. -/
def ArrivalOrderIrrelevant (name : String) (versions : List FileInfo) : Prop :=
  ∃ f, ∀ c ∈ versions, ∀ s ds t, s.db.find? name = some c → HandlesAll s ds t →
    (versionsOf name (ds.flatMap (·.files))).Perm versions → t.db.find? name = some f

/-- The order in which versions arrive does not matter exactly if one of them is overridden by
none of the others. -/
theorem arrivalOrderIrrelevant_iff {versions : List FileInfo}
    (hname : validateRemoteName name = .ok ()) (hnames : ∀ f ∈ versions, f.name = name)
    (hown : ∀ a ∈ versions, ∀ b ∈ versions, a.version.get = b.version.get → a = b)
    (hne : versions ≠ []) : ArrivalOrderIrrelevant name versions ↔
      ∃ w ∈ versions, ∀ x ∈ versions, ¬ Overrides x w := by
  rw [← (tournament_overrides hown).final_const_iff hne]
  constructor
  · rintro ⟨f, hf⟩
    refine ⟨f, fun c hc xs hxs => ?_⟩
    -- every order occurs: in a folder without files nothing is in the way
    obtain ⟨t, ht⟩ := exists_handles_calm (s := ⟨empty.upsert c, .empty⟩) xs rfl
    have hrecorded : (empty.upsert c : FolderFiles).find? name = some c := by
      rw [find?_upsert, if_pos (hnames c hc)]
    have hall : HandlesAll _ [⟨calmIndex, false, xs⟩] t := .cons ht .nil
    have hversions : versionsOf name ([(⟨calmIndex, false, xs⟩ : IndexDelivery)].flatMap
        (·.files)) = xs := by
      simpa [versionsOf] using fun g hg => hnames g (hxs.subset hg)
    have hfinal := hall.find?_eq_final hname hrecorded
    rw [hf c hc _ _ t hrecorded hall (hversions.symm ▸ hxs), hversions] at hfinal
    exact (some.inj hfinal).symm
  · rintro ⟨f, hf⟩
    refine ⟨f, fun c hc s ds t hs hall hperm => ?_⟩
    rw [hall.find?_eq_final hname hs, hf c hc _ hperm]

theorem arrivalOrderIrrelevant_peer :
    ArrivalOrderIrrelevant "x" [peerVersion 1 7, peerVersion 2 8] := by
  refine (arrivalOrderIrrelevant_iff (by decide) (by decide) ?_ (by decide)).mpr
    ⟨peerVersion 2 8, by decide, by decide⟩
  have hcounter : ∀ a ∈ [peerVersion 1 7, peerVersion 2 8],
      ∀ b ∈ [peerVersion 1 7, peerVersion 2 8], a.version.get 5 = b.version.get 5 → a = b := by
    decide
  exact fun a ha b hb h => hcounter a ha b hb (congrFun h 5)

/-- Two edits of one device, the second with an older modification time, and a concurrent edit of
another device with a time between the two. -/
def restoredVersions : List FileInfo :=
  [editOf 1 7 30, { editOf 1 8 10 with version := new.withCounter 1 2 }, editOf 2 9 20]

theorem arrival_order_matters : let s : FolderState := ⟨empty.upsert restoredVersions[0], .empty⟩
    let order := [restoredVersions[1], restoredVersions[2], restoredVersions[0]]
    let order' := [restoredVersions[2], restoredVersions[1], restoredVersions[0]]
    order.Perm restoredVersions ∧ order'.Perm restoredVersions ∧
    (∃ t, Handles calmIndex false order s t ∧ t.db.find? "x" = some restoredVersions[0]) ∧
    ∃ t, Handles calmIndex false order' s t ∧ t.db.find? "x" = some restoredVersions[1] := by
  refine ⟨by decide, by decide, ⟨_, ⟨_, rfl⟩, by decide⟩, ⟨_, ⟨_, rfl⟩, by decide⟩⟩

end Syncthing
