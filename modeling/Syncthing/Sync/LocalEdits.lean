import Syncthing.Sync.FolderModel
import Syncthing.Sync.ScannerRecords

/-! The versions the scanner gives to successive local changes of a name, and when the versions of
two devices that have not heard of each other are concurrent. The database is taken as a map (see
`DatabaseRefinement`). -/
namespace Syncthing

open Program
open UInt64 (ofNat)

variable {env : ScanEnv} {d : Disk} {db : FolderFiles} {file old r : FileInfo}
  {sub : Option String} {s : ScanState} {dev a b : UInt64} {start : Option Vector} {m n : Nat}
  {name relative : String} {reported : Bool} {t : ScanState} {f g : UInt64 → UInt64}
  (localCounterId : UInt64)

/-- The version of the next local change. -/
def nextVersion : Option Vector → Vector
  | none => Vector.new.withCounter 1 1
  | some v => v.increment localCounterId

/-- The version after a number of successive local changes. -/
def editedVersion (localCounterId : UInt64) (start : Option Vector) : Nat → Option Vector
  | 0 => start
  | n + 1 => some (nextVersion localCounterId (editedVersion localCounterId start n))

def recordedVersion (db : FolderFiles) (name : String) : Option Vector :=
  (db.find? name).map (·.version)

/-- A record whose version is the next one of its name. -/
def NextOf (env : ScanEnv) (db : FolderFiles) (r : FileInfo) : Prop :=
  r.version = nextVersion env.localCounterId (recordedVersion db r.name)

theorem nextOf_of_compared (h : Compared env db file r) : NextOf env db r := by
  unfold Compared at h
  cases hf : db.find? file.name with
  | none =>
    simp only [hf] at h
    obtain ⟨sequence, rfl⟩ := h
    simp [NextOf, newInfo, recordedVersion, hf, nextVersion]
  | some existing =>
    simp only [hf] at h
    obtain ⟨-, sequence, rfl⟩ := h
    simp [NextOf, modifiedInfo, recordedVersion, hf, nextVersion]

theorem nextOf_deletedInfo {sequence : UInt64} (hold : old ∈ db.entries) :
    NextOf env db (deletedInfo env.localCounterId sequence old) := by
  have hf : db.find? old.name = some old := KeyedList.find?_key hold
  simp [NextOf, deletedInfo, recordedVersion, hf, nextVersion]

theorem nextOf_clearDeletedBlocks : NextOf env db (clearDeletedBlocks r) ↔ NextOf env db r := by
  simp [NextOf]

theorem nextOf_of_scanChange (h : ScanEnv.ScanChange env d sub db r) : NextOf env db r := by
  obtain ⟨x, rfl, ⟨-, old, hold, ⟨-, -, sequence, rfl⟩, -⟩ | ⟨files, -, file, -, hc⟩⟩ := h
  · exact nextOf_clearDeletedBlocks.mpr (nextOf_deletedInfo hold)
  · exact nextOf_clearDeletedBlocks.mpr (nextOf_of_compared hc)

namespace ScanEnv

theorem ends_scanChangedFile : Ends (env.scanChangedFile d relative)
      (fun out t => t.db = s.db ∧ ∀ x ∈ out, NextOf env s.db x) (fun t => t.db = s.db) s := by
  have hcompare : ∀ file, Ends (env.compareFile file)
      (fun out t => t.db = s.db ∧ ∀ x ∈ out, NextOf env s.db x) (fun t => t.db = s.db) s :=
    fun file => ends_compareFile.imp
      (fun out t h => ⟨h.1, fun x hx => by cases hx; exact nextOf_of_compared h.2⟩) fun _ h => h.1
  unfold scanChangedFile
  simp only [ends_ite, ends_pure]
  refine ⟨by simp, fun _ => ⟨by simp, fun _ => ?_⟩⟩
  split
  · simp only [ends_bind, ends_require]
    exact ⟨fun file _ => hcompare file, fun _ _ => trivial⟩
  · simp only [ends_bind, ends_require]
    exact ⟨fun file _ => hcompare file, fun _ _ => trivial⟩
  all_goals simp

theorem ends_markDeleted : Ends (env.markDeleted relative)
      (fun out t => t.db = s.db ∧ ∀ x ∈ out, NextOf env s.db x) (fun t => t.db = s.db) s := by
  unfold markDeleted getFile
  simp only [ends_bind, ends_require, ends_get, ends_pure]
  refine ⟨fun _ _ => ?_, fun _ _ => trivial⟩
  cases hf : s.db.find? relative with
  | none => simp
  | some old =>
    simp only [ends_ite, ends_bind, ends_pure]
    refine ⟨by simp, fun _ => ends_incrementSequence (fun sequence => ⟨rfl, ?_⟩) fun _ => rfl⟩
    rintro x ⟨⟩
    exact nextOf_clearDeletedBlocks.mpr
      (nextOf_deletedInfo (KeyedList.find?_eq_some_iff.mp hf).1)

theorem ends_markDeletedSubtree : Ends (env.markDeletedSubtree d relative)
      (fun out t => t.db = s.db ∧ ∀ x ∈ out, NextOf env s.db x) (fun t => t.db = s.db) s := by
  refine ends_markDeletedSubtree_mem.imp (fun out t h => ⟨h.1, fun x hx => ?_⟩) fun _ => id
  obtain ⟨old, hold, sequence, rfl⟩ := h.2 x hx
  exact nextOf_clearDeletedBlocks.mpr (nextOf_deletedInfo hold)

end ScanEnv
/-- A version reached from `start` by at least `k` successive local changes. -/
def EditedFrom (dev : UInt64) (start : Option Vector) (k : Nat) (v : Option Vector) : Prop :=
  ∃ n, k ≤ n ∧ v = editedVersion dev start n

/-- The record of the name has such a version. -/
def NameEdited (dev : UInt64) (name : String) (start : Option Vector) (k : Nat)
    (db : FolderFiles) : Prop :=
  EditedFrom dev start k (recordedVersion db name)

/-- A record of the name has such a version. -/
def RecordEdited (dev : UInt64) (name : String) (start : Option Vector) (k : Nat)
    (r : FileInfo) : Prop :=
  r.name = name → EditedFrom dev start k (some r.version)

section lineage
variable {k : Nat} {out : List FileInfo}

theorem EditedFrom.mono {v : Option Vector} {j : Nat} (h : EditedFrom dev start k v) (hj : j ≤ k) :
    EditedFrom dev start j v := by
  obtain ⟨n, hn, hv⟩ := h
  exact ⟨n, hj.trans hn, hv⟩

theorem recordEdited_of_nextOf (hdb : NameEdited env.localCounterId name start k db)
    (h : NextOf env db r) : RecordEdited env.localCounterId name start (k + 1) r := by
  rintro rfl
  obtain ⟨n, hn, hv⟩ := hdb
  refine ⟨n + 1, by omega, ?_⟩
  rw [editedVersion, ← hv, h]

/-- Storing edited records keeps the name edited, and stores at least one change if there is a
record of the name. -/
theorem nameEdited_upsertAll (hdb : NameEdited dev name start k db)
    (hout : ∀ r ∈ out, RecordEdited dev name start (k + 1) r) :
    NameEdited dev name start k (db.upsertAll out) ∧
      ((∃ r ∈ out, r.name = name) → NameEdited dev name start (k + 1) (db.upsertAll out)) := by
  unfold NameEdited recordedVersion
  rw [KeyedList.find?_upsertAll]
  cases hf : out.reverse.find? (fun r => r.name = name) with
  | none =>
    refine ⟨hdb, ?_⟩
    rintro ⟨r, hr, rfl⟩
    have := List.find?_eq_none.mp hf r (List.mem_reverse.mpr hr)
    simp at this
  | some r =>
    have hname : r.name = name := by simpa using List.find?_some hf
    have hr := hout r (List.mem_reverse.mp (List.mem_of_find?_eq_some hf)) hname
    exact ⟨hr.mono (by omega), fun _ => hr⟩

end lineage

/-- What a call of the scanner does for the version of a name: it stores changes that come after
a version already recorded. -/
def EditsName (name : String) (x : ScanM (List FileInfo)) (dev : UInt64) : Prop :=
  ∀ start k s, NameEdited dev name start k s.db → Ends x
      (fun out t => ∃ db, NameEdited dev name start k db ∧ t.db = db.upsertAll out ∧
        ∀ r ∈ out, RecordEdited dev name start (k + 1) r)
      (fun t => NameEdited dev name start k t.db) s

namespace ScanEnv

theorem editsName_scanFolderAt : EditsName name (env.scanFolderAt d sub) env.localCounterId := by
  intro start k s hs
  refine ends_scanFolderAt.imp (fun out t h => ?_) fun t h => ?_
  · exact ⟨s.db, hs, h.1, fun r hr => recordEdited_of_nextOf hs (nextOf_of_scanChange (h.2 r hr))⟩
  · obtain ⟨stored, hdb, hstored⟩ := h
    rw [hdb]
    exact (nameEdited_upsertAll hs fun r hr =>
      recordEdited_of_nextOf hs (nextOf_of_scanChange (hstored r hr))).1

/-- Calls that only find changes, for their caller to store. -/
def FindsEdits (name : String) (x : ScanM (List FileInfo)) (dev : UInt64) : Prop :=
  ∀ start k s, NameEdited dev name start k s.db → Ends x
      (fun out t => NameEdited dev name start k t.db ∧
        ∀ r ∈ out, RecordEdited dev name start (k + 1) r)
      (fun t => NameEdited dev name start k t.db) s

variable {x : ScanM (List FileInfo)} {pullInFlight : Bool}

theorem findsEdits_of_nextOf (env : ScanEnv)
    (h : ∀ s, Ends x (fun out t => t.db = s.db ∧ ∀ r ∈ out, NextOf env s.db r)
      (fun t => t.db = s.db) s) : FindsEdits name x env.localCounterId := by
  intro start k s hs
  refine (h s).imp (fun out t ht => ?_) fun t ht => ?_
  · rw [ht.1]
    exact ⟨hs, fun r hr => recordEdited_of_nextOf hs (ht.2 r hr)⟩
  · rw [ht]
    exact hs

theorem findsEdits_nothing : FindsEdits name (pure []) dev := by
  intro start k s hs
  simpa using hs

theorem findsEdits_logged (h : FindsEdits name x dev) : FindsEdits name (logged x) dev := by
  intro start k s hs
  rw [ends_logged]
  exact (h start k s hs).imp (fun _ _ => id) fun t ht => ⟨ht, by simp⟩

theorem findsEdits_of_editsName (h : EditsName name x dev) :
    FindsEdits name x dev := by
  intro start k s hs
  refine (h start k s hs).imp (fun out t ht => ?_) fun _ => id
  obtain ⟨db, hdb, htdb, hout⟩ := ht
  rw [htdb]
  exact ⟨(nameEdited_upsertAll hdb hout).1, hout⟩

theorem findsEdits_concat {α : Type} {f : α → ScanM (List FileInfo)} {as : List α}
    (h : ∀ a ∈ as, FindsEdits name (f a) dev) : FindsEdits name (concat f as) dev := by
  intro start k s hs
  exact ends_concat (fun t : ScanState => NameEdited dev name start k t.db) _
    (fun a ha t ht => h a ha start k t ht) hs

theorem findsEdits_append {y : ScanM (List FileInfo)} (hx : FindsEdits name x dev)
    (hy : FindsEdits name y dev) : FindsEdits name (do return (← x) ++ (← y)) dev := by
  intro start k s hs
  simp only [ends_bind, ends_pure]
  refine (hx start k s hs).imp (fun out t ht => ?_) fun _ => id
  exact (hy start k t ht.1).imp
    (fun out' u hu => ⟨hu.1, List.forall_mem_append.mpr ⟨ht.2, hu.2⟩⟩) fun _ => id

/-- Storing what was found. -/
theorem editsName_store (env : ScanEnv) {f : List FileInfo → List FileInfo}
    (h : FindsEdits name x dev)
    (hf : ∀ l, ∀ r ∈ f l, ∃ x ∈ l, x.name = r.name ∧ x.version = r.version) : EditsName name (do
      let found ← x
      (f found).forM env.updateFile
      return f found) dev := by
  intro start k s hs
  simp only [ends_bind, ends_pure]
  refine (h start k s hs).imp (fun found t ht => ?_) fun _ => id
  obtain ⟨htk, hfound⟩ := ht
  have hout : ∀ r ∈ f found, RecordEdited dev name start (k + 1) r := by
    intro r hr hname
    obtain ⟨x, hx, hxname, hxversion⟩ := hf found r hr
    rw [← hxversion]
    exact hfound x hx (hxname.trans hname)
  refine ends_forM_updateFile.imp (fun _ u hu => ⟨t.db, htk, hu, hout⟩) fun u hu => ?_
  obtain ⟨-, stored, hstored, hu⟩ := hu
  rw [hu]
  exact (nameEdited_upsertAll htk fun r hr => hout r (hstored.subset hr)).1

theorem findsEdits_scanDirtyChange :
    FindsEdits name (env.scanDirtyChange d pullInFlight relative) env.localCounterId := by
  refine scanDirtyChange_cases (P := (FindsEdits name · _)) (fun _ _ => findsEdits_nothing)
    (fun _ => ?_) fun _ _ => ?_
  · have hscan := findsEdits_logged
      (findsEdits_of_editsName (@editsName_scanFolderAt env d (some relative) name))
    have hsub : FindsEdits name (logged (env.markDeletedSubtree d relative)) _ :=
      findsEdits_logged (findsEdits_of_nextOf env fun _ => ends_markDeletedSubtree)
    cases pullInFlight with
    | true => simpa using hscan
    | false => exact findsEdits_append hscan hsub
  · refine findsEdits_logged (findsEdits_of_nextOf env fun s => ?_)
    simp only [ends_bind, ends_pure]
    exact ends_scanChangedFile.imp (fun out t h => ⟨h.1, by simpa using h.2⟩) fun _ => id

theorem findsEdits_scanDirtyDelete :
    FindsEdits name (env.scanDirtyDelete d relative) env.localCounterId := by
  unfold scanDirtyDelete
  split
  · exact findsEdits_nothing
  · exact findsEdits_logged (findsEdits_of_nextOf env fun _ => ends_markDeletedSubtree)

theorem editsName_scanIncremental {changes deletes : List String} :
    EditsName name (env.scanIncremental d pullInFlight changes deletes) env.localCounterId := by
  have hchanges : FindsEdits name (concat (env.scanDirtyChange d pullInFlight) changes) _ :=
    findsEdits_concat fun _ _ => findsEdits_scanDirtyChange
  have hdeletes : FindsEdits name (concat (env.scanDirtyDelete d) deletes) _ :=
    findsEdits_concat fun _ _ => findsEdits_scanDirtyDelete
  have hstore := editsName_store env
    (f := fun found => (detectAndReorderRenames found).map clearDeletedBlocks)
    (findsEdits_append hchanges hdeletes) ?_
  · intro start k s hs
    have := hstore start k s hs
    unfold scanIncremental
    simp only [ends_bind, ends_pure] at this ⊢
    exact this
  · intro found r hr
    obtain ⟨x, hx, rfl⟩ := List.mem_map.mp hr
    exact ⟨x, mem_detectAndReorderRenames.mp hx, by simp⟩

theorem editsName_markDeleted : EditsName name (do
      let deleted := (← env.markDeleted relative).toList
      deleted.forM env.updateFile
      return deleted) env.localCounterId := by
  have hfind : FindsEdits name (do return (← env.markDeleted relative).toList)
      env.localCounterId := by
    refine findsEdits_of_nextOf env fun s => ?_
    simp only [ends_bind, ends_pure]
    exact ends_markDeleted.imp (fun out t h => ⟨h.1, by simpa using h.2⟩) fun _ => id
  have hstore := editsName_store env (f := id) hfind fun l r hr => ⟨r, hr, rfl, rfl⟩
  intro start k s hs
  have := hstore start k s hs
  simp only [ends_bind, ends_pure] at this ⊢
  exact this

end ScanEnv

/-- The ways the scanner comes to record a change. A deletion found by `mark_deleted` is for its
caller to store. -/
inductive ScannerCall where
  | scan (sub : Option String)
  | incremental (pullInFlight : Bool) (changes deletes : List String)
  | markDeleted (relative : String)

def ScannerCall.run (env : ScanEnv) (d : Disk) : ScannerCall → ScanM (List FileInfo)
  | scan sub => env.scanFolderAt d sub
  | incremental pullInFlight changes deletes => env.scanIncremental d pullInFlight changes deletes
  | markDeleted relative => do
    let deleted := (← env.markDeleted relative).toList
    deleted.forM env.updateFile
    return deleted

/-- A call reports a change of the name. -/
def reportsName (name : String) (x : ScanM (List FileInfo)) (s : ScanState) : Bool :=
  ((result? x s).getD []).any (·.name = name)

/-- The states a device comes to by scanning alone, and whether it has reported a change of the
name. The disk, the ignore rules and what fails may differ from call to call. -/
inductive LocalRun (dev : UInt64) (name : String) (s : ScanState) : Bool → ScanState → Prop where
  | start : LocalRun dev name s false s
  | call {reported : Bool} {t : ScanState} (env : ScanEnv) (d : Disk) (c : ScannerCall)
      (hdev : env.localCounterId = dev) (h : LocalRun dev name s reported t) :
      LocalRun dev name s (reported || reportsName name (c.run env d) t) (after (c.run env d) t)

theorem ScannerCall.editsName_run (env : ScanEnv) (d : Disk) (c : ScannerCall) :
    EditsName name (c.run env d) env.localCounterId := by
  cases c with
  | scan sub => exact ScanEnv.editsName_scanFolderAt
  | incremental pullInFlight changes deletes => exact ScanEnv.editsName_scanIncremental
  | markDeleted relative => exact ScanEnv.editsName_markDeleted

theorem nameEdited_after {x : ScanM (List FileInfo)} {k : Nat} (h : EditsName name x dev)
    (hs : NameEdited dev name start k s.db) : NameEdited dev name start k (after x s).db ∧
      (reportsName name x s = true → NameEdited dev name start (k + 1) (after x s).db) := by
  have hends := h start k s hs
  constructor
  · refine Ends.after (E := fun t : ScanState => NameEdited dev name start k t.db)
      (hends.imp (fun out t ht => ?_) fun t ht => ht)
    obtain ⟨db, hdb, htdb, hout⟩ := ht
    rw [htdb]
    exact (nameEdited_upsertAll hdb hout).1
  · intro hrep
    cases hr : result? x s with
    | none => simp [reportsName, hr] at hrep
    | some out =>
      obtain ⟨db, hdb, htdb, hout⟩ := hends.result? hr
      rw [htdb]
      refine (nameEdited_upsertAll hdb hout).2 ?_
      simpa [reportsName, hr] using hrep

/-- In every run the version of the name has been reached by local changes, and by at least one
if a change of the name was reported. -/
theorem LocalRun.nameEdited (h : LocalRun dev name s reported t) :
    NameEdited dev name (recordedVersion s.db name) reported.toNat t.db := by
  induction h with
  | start => exact ⟨0, le_refl 0, rfl⟩
  | @call reported t env d c hdev _ ih =>
    subst hdev
    have hstep := nameEdited_after (ScannerCall.editsName_run env d c) ih
    cases reported with
    | true => exact hstep.1
    | false =>
      cases hr : reportsName name (c.run env d) t with
      | false => exact hstep.1
      | true => exact hstep.2 hr

/-- The counters after a number of local changes of a recorded name. -/
theorem get_editedVersion {u v : Vector} (h : editedVersion dev (some u) n = some v) (e : UInt64) :
    v.get e = if e = dev then u.get dev + ofNat n else u.get e := by
  induction n generalizing v e with
  | zero =>
    cases h
    by_cases he : e = dev <;> simp [he]
  | succ n ih =>
    cases hn : editedVersion dev (some u) n with
    | none =>
      cases n with
      | zero | succ => cases hn
    | some w =>
      simp only [editedVersion, hn, nextVersion, Option.some.injEq] at h
      subst h
      rw [Vector.get_increment, ih hn, ih hn]
      by_cases he : e = dev
      · subst he
        simp only [if_true]
        rw [UInt64.ofNat_add, UInt64.add_assoc]
        rfl
      · simp [he, Ne.symm he]

/-- The first version of a name is `{1: 1}`, whatever device creates it. -/
theorem editedVersion_none (dev : UInt64) (n : Nat) : editedVersion dev none (n + 1) =
      editedVersion dev (some (Vector.new.withCounter 1 1)) n := by
  induction n with
  | zero => rfl
  | succ n ih => rw [editedVersion, ih, editedVersion]

/-- The vector that local changes count up from, and how many of them count. -/
def countedFrom (start : Option Vector) (n : Nat) : Vector × Nat :=
  match start with
  | some u => (u, n)
  | none => (Vector.new.withCounter 1 1, n - 1)

theorem editedVersion_countedFrom (hn : 1 ≤ n) : editedVersion dev start n =
      editedVersion dev (some (countedFrom start n).1) (countedFrom start n).2 := by
  cases start with
  | some u => rfl
  | none =>
    obtain ⟨m, rfl⟩ := Nat.exists_eq_add_of_le' hn
    exact editedVersion_none dev m

variable (counter : UInt64)

/-- A counter that goes up, or wraps around to a lower value. -/
def Rises (n : Nat) : Prop := counter < counter + ofNat n

def Falls (n : Nat) : Prop := counter + ofNat n < counter

/-- The own counters of both devices rise, or both fall. A name that neither had a record of
counts from its first version, which is the same on both devices. -/
def EditGuard (a b : UInt64) (start : Option Vector) (m n : Nat) : Prop :=
  let u := (countedFrom start m).1
  let m := (countedFrom start m).2
  let n := (countedFrom start n).2
  (Rises (u.get a) m ∧ Rises (u.get b) n) ∨ (Falls (u.get a) m ∧ Falls (u.get b) n)

/-- Neither device takes the other's record for a plain newer version. -/
structure IndependentEdits (f g : FileInfo) : Prop where
  ne : f.version ≠ g.version
  not_dominates : f.version.dominates g.version = false ∧ g.version.dominates f.version = false
  compare : f.version.compare g.version = .conflict
  isConflict : isConflict f g = true ∧ isConflict g f = true
  needsUpdate : needsUpdate f g ≠ .update ∧ needsUpdate g f ≠ .update

theorem independentEdits_iff {f g : FileInfo} : IndependentEdits f g ↔
    ¬ g.version.get ≤ f.version.get ∧ ¬ f.version.get ≤ g.version.get := by
  constructor
  · intro h
    exact isConflict_iff.mp h.isConflict.1
  · rintro ⟨hgf, hfg⟩
    have hfg' : f.version.dominates g.version = false := by
      rw [← Bool.not_eq_true, Vector.dominates_iff]
      exact hgf
    have hgf' : g.version.dominates f.version = false := by
      rw [← Bool.not_eq_true, Vector.dominates_iff]
      exact hfg
    refine ⟨?_, ⟨hfg', hgf'⟩, ?_, ⟨isConflict_iff.mpr ⟨hgf, hfg⟩, isConflict_iff.mpr ⟨hfg, hgf⟩⟩, ?_⟩
    · intro h
      rw [h] at hgf
      exact hgf le_rfl
    · rw [Vector.compare_eq, hfg', hgf']
    · constructor
      · intro h
        have := (needsUpdate_update_iff.mp h).2
        simp [hgf'] at this
      · intro h
        have := (needsUpdate_update_iff.mp h).2
        simp [hfg'] at this

/-- Counters that differ in two places only are compared there. -/
theorem counters_le_iff {u : Vector} (hab : a ≠ b)
    (hf : ∀ e, f e = if e = a then u.get a + ofNat m else u.get e)
    (hg : ∀ e, g e = if e = b then u.get b + ofNat n else u.get e) :
    g ≤ f ↔ ¬ Falls (u.get a) m ∧ ¬ Rises (u.get b) n := by
  unfold Falls Rises
  constructor
  · intro h
    have h1 := h a
    have h2 := h b
    rw [hf, hg, if_pos rfl, if_neg hab] at h1
    rw [hf, hg, if_neg hab.symm, if_pos rfl] at h2
    exact ⟨not_lt.mpr h1, not_lt.mpr h2⟩
  · rintro ⟨h1, h2⟩ e
    rw [hf, hg]
    by_cases hea : e = a
    · subst hea
      rw [if_neg hab, if_pos rfl]
      exact not_lt.mp h1
    · by_cases heb : e = b
      · subst heb
        rw [if_pos rfl, if_neg hea]
        exact not_lt.mp h2
      · rw [if_neg hea, if_neg heb]

theorem counters_concurrent_iff {u : Vector} (hab : a ≠ b)
    (hf : ∀ e, f e = if e = a then u.get a + ofNat m else u.get e)
    (hg : ∀ e, g e = if e = b then u.get b + ofNat n else u.get e) : (¬ g ≤ f ∧ ¬ f ≤ g) ↔
      (Rises (u.get a) m ∧ Rises (u.get b) n) ∨ (Falls (u.get a) m ∧ Falls (u.get b) n) := by
  have ha : ¬ (Rises (u.get a) m ∧ Falls (u.get a) m) := fun h => lt_asymm h.1 h.2
  have hb : ¬ (Rises (u.get b) n ∧ Falls (u.get b) n) := fun h => lt_asymm h.1 h.2
  rw [counters_le_iff hab hf hg, counters_le_iff hab.symm hg hf]
  tauto

/-- Two devices that start from the same record of a name, or none, and each report a change of
it: their records have counted up from there, and they are told apart as independent edits
exactly if the own counters have both moved the same way. -/
theorem localRuns_independent_iff {sa sb ta tb : ScanState} (hab : a ≠ b)
    (hstart : recordedVersion sa.db name = recordedVersion sb.db name)
    (hA : LocalRun a name sa true ta) (hB : LocalRun b name sb true tb) :
    ∃ f g m n, ta.db.find? name = some f ∧ tb.db.find? name = some g ∧ 1 ≤ m ∧ 1 ≤ n ∧
      editedVersion a (recordedVersion sa.db name) m = some f.version ∧
      editedVersion b (recordedVersion sa.db name) n = some g.version ∧
      (IndependentEdits f g ↔ EditGuard a b (recordedVersion sa.db name) m n) := by
  obtain ⟨m, hm, hfm⟩ := hA.nameEdited
  obtain ⟨n, hn, hgn⟩ := hB.nameEdited
  rw [← hstart] at hgn
  generalize recordedVersion sa.db name = start at hfm hgn ⊢
  have hm : 1 ≤ m := hm
  have hn : 1 ≤ n := hn
  have hsome : ∀ {db : FolderFiles} {dev k}, 1 ≤ k →
      recordedVersion db name = editedVersion dev start k →
      ∃ f, db.find? name = some f ∧ editedVersion dev start k = some f.version := by
    intro db dev k hk h
    obtain ⟨j, rfl⟩ := Nat.exists_eq_add_of_le' hk
    obtain ⟨f, hf, hv⟩ := Option.map_eq_some_iff.mp h
    exact ⟨f, hf, by rw [hv]; rfl⟩
  obtain ⟨f, hf, hfv⟩ := hsome hm hfm
  obtain ⟨g, hg, hgv⟩ := hsome hn hgn
  refine ⟨f, g, m, n, hf, hg, hm, hn, hfv, hgv, ?_⟩
  rw [editedVersion_countedFrom hm] at hfv
  rw [editedVersion_countedFrom hn] at hgv
  have hu : (countedFrom start n).1 = (countedFrom start m).1 := by cases start <;> rfl
  rw [hu] at hgv
  rw [independentEdits_iff]
  exact counters_concurrent_iff hab (get_editedVersion hfv) (get_editedVersion hgv)

/-- A scanner of a device, with nothing ignored and nothing failing. -/
def calmScan : ScanEnv where
  folderId := "folder"
  folderPath := "/folder"
  sha256 := fun content => content
  matcher := fun _ _ => false
  localCounterId
  fault := fun _ => none

/-- A folder with the one file `x`. -/
def diskWith (content : Bytes) : Disk := FileStore.empty.set ["x"] (.file content (0, 0))

/-- One full scan. -/
theorem LocalRun.scan (dev : UInt64) (content : Bytes) (h : LocalRun dev "x" s reported t) :
    LocalRun dev "x" s
      (reported || reportsName "x" ((calmScan dev).scanFolderAt (diskWith content) none) t)
      (after ((calmScan dev).scanFolderAt (diskWith content) none) t) :=
  .call (calmScan dev) (diskWith content) (.scan none) rfl h

open LocalRun (scan)

/-- Both devices know `x`, and each changes it. -/
theorem localRuns_independent_of_common_start :
    let s : ScanState := ⟨KeyedList.empty.upsert { FileInfo.new "x" with
      version := Vector.new.withCounter 1 1 }, 1⟩
    let ta := after ((calmScan 2).scanFolderAt (diskWith [5]) none) s
    let tb := after ((calmScan 3).scanFolderAt (diskWith [6]) none) s
    ∃ f g m n, ta.db.find? "x" = some f ∧ tb.db.find? "x" = some g ∧ 1 ≤ m ∧ 1 ≤ n ∧
      editedVersion 2 (recordedVersion s.db "x") m = some f.version ∧
      editedVersion 3 (recordedVersion s.db "x") n = some g.version ∧
      (IndependentEdits f g ↔ EditGuard 2 3 (recordedVersion s.db "x") m n) :=
  localRuns_independent_iff (by decide) rfl (scan 2 [5] .start)
    (scan 3 [6] .start)

/-- Both devices create `x`. Their records have the same version, so the contents are never told
apart; and once one of them changes the file again, the other takes it for a newer version of its
own. -/
theorem localRuns_first_versions_clash : let s : ScanState := ⟨.empty, 0⟩
    let ta := after ((calmScan 2).scanFolderAt (diskWith [5]) none) s
    let tb := after ((calmScan 3).scanFolderAt (diskWith [6]) none) s
    let tb' := after ((calmScan 3).scanFolderAt (diskWith [7]) none) tb
    LocalRun 2 "x" s true ta ∧ LocalRun 3 "x" s true tb ∧ LocalRun 3 "x" s true tb' ∧
    ∃ f g g', ta.db.find? "x" = some f ∧ tb.db.find? "x" = some g ∧ tb'.db.find? "x" = some g' ∧
      f.blockHashes ≠ g.blockHashes ∧ ¬ IndependentEdits f g ∧ needsUpdate f g = .ignore ∧
      ¬ IndependentEdits f g' ∧ needsUpdate f g' = .update := by
  refine ⟨scan 2 [5] .start, scan 3 [6] .start,
    scan 3 [7] (scan 3 [6] .start), _, _, _, rfl, rfl, rfl, by decide,
    fun h => ?_, by decide, fun h => ?_, by decide⟩
  · exact absurd h.isConflict.1 (by decide)
  · exact absurd h.isConflict.1 (by decide)

end Syncthing
