import Syncthing.Sync.LocalEdits
import Syncthing.Sync.RecordedVersions
import Syncthing.Sync.ScanWalk

/-! Index handling records a version before its data reaches the disk, and a full scan takes any
difference between the two for a local change. -/
namespace Syncthing

open Program List KeyedList

variable {env : ScanEnv} {d : Disk} {file r : FileInfo} {path : List String}
  (sha256 : Bytes → Bytes)

/-- A scanned entry is something on disk. -/
def OnDisk (d : Disk) (file : FileInfo) : Prop :=
  ∃ path node, path ≠ [] ∧ d.nodeAt path = some node ∧ entryName path = file.name ∧
    nodeHashes sha256 node = file.blockHashes

namespace ScanEnv

theorem scanDirectory_onDisk {depth : Nat} {files : List FileInfo}
    (h : env.scanDirectory d depth path (rawPrefix path) = .ok files) (hfile : file ∈ files) :
    OnDisk env.sha256 d file := by
  obtain ⟨path, node, hne, hnode, rfl⟩ := scanDirectory_entry h hfile
  exact ⟨path, node, hne, hnode, name_scannedEntry.symm, blockHashes_scannedEntry.symm⟩

end ScanEnv

/-- The record of a name, if there is one, is what is on disk: a live file is there, or is being
downloaded, and whatever a scan finds under the name has the recorded block hashes. -/
def NameSettled (st : FolderState) (name : String) : Prop :=
  match st.db.find? name with
  | some r => (r.isDeleted = true ∨ st.disk.pathExists (namePath name) = true ∨
        Downloading st.disk name) ∧
      ∀ path node, path ≠ [] → st.disk.nodeAt path = some node → entryName path = name →
        nodeHashes sha256 node = r.blockHashes
  | none => ∀ path, path ≠ [] → entryName path = name → st.disk.nodeAt path = none

/-- A full scan changes no settled name. -/
theorem not_scanChange_of_nameSettled {st : FolderState}
    (h : NameSettled env.sha256 st r.name) : ¬ ScanEnv.ScanChange env st.disk none st.db r := by
  rintro ⟨x, rfl, ⟨-, old, hold, ⟨hlive, hgone, sequence, rfl⟩, hdown⟩ | ⟨files, hfiles, file,
    hfile, hc⟩⟩
  · have hf : st.db.find? old.name = some old := find?_key hold
    rw [name_clearDeletedBlocks] at h
    change NameSettled env.sha256 st old.name at h
    simp only [NameSettled, hf, hlive, hgone, Bool.false_eq_true, false_or] at h
    exact hdown h.1
  · obtain ⟨path, node, hne, hnode, hname, hhashes⟩ := ScanEnv.scanDirectory_onDisk hfiles hfile
    have hx : (clearDeletedBlocks x).name = file.name := by
      rw [name_clearDeletedBlocks]
      obtain ⟨version, sequence, base, rfl⟩ := hc.eq_with
      rfl
    rw [hx] at h
    cases hf : st.db.find? file.name with
    | none =>
      simp only [NameSettled, hf] at h
      rw [h path hne hname] at hnode
      cases hnode
    | some existing =>
      simp only [NameSettled, hf] at h
      simp only [Compared, hf] at hc
      exact hc.1 ((h.2 path node hne hnode hname).symm.trans hhashes)

/-! ### A full scan, call by call -/

/-- How far a full scan has come: it has walked the folder, looks for records whose files are gone,
compares what it found with the records, or stores what changed. -/
inductive FullScan where
  | walked (files : List FileInfo)
  | looking (records files found : List FileInfo)
  | comparing (files found : List FileInfo)
  | storing (changed : List FileInfo)

namespace FullScan

/-- The next call of `scan_folder_at`: where the scan is after it, and what it has stored. What it
reports at its end has all been stored. -/
def advance (env : ScanEnv) (d : Disk) : FullScan → ScanM (Option FullScan × List FileInfo)
  | walked files => do return (some (looking (← env.getFolderFiles) files []), [])
  | looking (old :: records) files found => do
    let pushed ← env.scanDeleted d old
    return (some (looking records files (found ++ pushed.toList)), [])
  | looking [] files found => return (some (comparing files found), [])
  | comparing (file :: files) found => do
    let pushed ← env.compareFile file
    return (some (comparing files (found ++ pushed.toList)), [])
  | comparing [] found => return (some (storing (ScanEnv.orderChanged none found)), [])
  | storing (file :: changed) => do
    env.updateFile file
    return (some (storing changed), [file])
  | storing [] => return (none, [])

variable (received : List FileInfo)

/-- All names that peers have sent are settled. -/
def Settled (env : ScanEnv) (st : FolderState) : Prop :=
  ∀ f ∈ received, NameSettled env.sha256 st f.name

/-- No peer has sent the name. -/
def Unreceived (x : FileInfo) : Prop := ∀ f ∈ received, f.name ≠ x.name

/-- What a scan has found so far is of names that no peer has sent. -/
def Fits (env : ScanEnv) (st : FolderState) : FullScan → Prop
  | walked files => Settled received env st ∧ env.listing st.disk none = .ok files
  | looking records files found => Settled received env st ∧ env.listing st.disk none = .ok files ∧
    (∀ r ∈ records, r ∈ st.db.entries) ∧ ∀ x ∈ found, Unreceived received x
  | comparing files found => Settled received env st ∧
    (∃ all, env.listing st.disk none = .ok all ∧ files ⊆ all) ∧ ∀ x ∈ found, Unreceived received x
  | storing changed => ∀ x ∈ changed, Unreceived received x

variable {received : List FileInfo} {s : ScanState}

theorem unreceived_of_scanChange {st : FolderState} {x : FileInfo} (h : Settled received env st)
    (hx : ScanEnv.ScanChange env st.disk none st.db (clearDeletedBlocks x)) :
    Unreceived received x := by
  intro f hf hname
  refine not_scanChange_of_nameSettled ?_ hx
  rw [name_clearDeletedBlocks, ← hname]
  exact h f hf

theorem forall_found {found : List FileInfo} {pushed : Option FileInfo}
    (hfound : ∀ x ∈ found, Unreceived received x)
    (hpushed : ∀ x, pushed = some x → Unreceived received x) :
    ∀ x ∈ found ++ pushed.toList, Unreceived received x := by
  intro x hx
  rcases mem_append.mp hx with hx | hx
  · exact hfound x hx
  · exact hpushed x (Option.mem_toList.mp hx)

/-- One call keeps what the scan has found apart from what peers have sent. -/
theorem ends_advance {scan : FullScan} (h : Fits received env ⟨s.db, d⟩ scan) :
    Ends (scan.advance env d) (fun out t => (∀ next ∈ out.1, Fits received env ⟨t.db, d⟩ next) ∧
      ∀ r ∈ out.2, Unreceived received r) (fun _ => True) s := by
  cases scan with
  | walked files =>
    simp only [advance, ScanEnv.getFolderFiles, ends_bind, ends_require, ends_get, ends_pure]
    refine ⟨fun _ _ => ⟨?_, by simp⟩, fun _ _ => trivial⟩
    rintro next ⟨⟩
    exact ⟨h.1, h.2, fun _ => id, by simp⟩
  | looking records files found =>
    obtain ⟨hsettled, hfiles, hrecords, hfound⟩ := h
    cases records with
    | nil =>
      simp only [advance, ends_pure]
      refine ⟨?_, by simp⟩
      rintro next ⟨⟩
      exact ⟨hsettled, ⟨files, hfiles, fun _ => id⟩, hfound⟩
    | cons old records =>
      simp only [advance, ends_bind, ends_pure]
      refine ScanEnv.ends_scanDeleted.imp (fun pushed t ht => ⟨?_, by simp⟩) fun _ _ => trivial
      rintro next ⟨⟩
      rw [ht.1]
      refine ⟨hsettled, hfiles, fun r hr => hrecords r (mem_cons_of_mem _ hr),
        forall_found hfound fun x hx => ?_⟩
      subst hx
      exact unreceived_of_scanChange hsettled
        ⟨x, rfl, .inl ⟨rfl, old, hrecords old mem_cons_self, ht.2⟩⟩
  | comparing files found =>
    obtain ⟨hsettled, ⟨all, hall, hfiles⟩, hfound⟩ := h
    cases files with
    | nil =>
      simp only [advance, ends_pure]
      refine ⟨?_, by simp⟩
      rintro next ⟨⟩
      intro r hr f hf
      obtain ⟨x, hx, rfl⟩ := mem_orderChanged.mp hr
      rw [name_clearDeletedBlocks]
      exact hfound x hx f hf
    | cons file files =>
      simp only [advance, ends_bind, ends_pure]
      refine ScanEnv.ends_compareFile.imp (fun pushed t ht => ⟨?_, by simp⟩) fun _ _ => trivial
      rintro next ⟨⟩
      rw [ht.1]
      refine ⟨hsettled, ⟨all, hall, fun f hf => hfiles (mem_cons_of_mem _ hf)⟩,
        forall_found hfound fun x hx => ?_⟩
      subst hx
      exact unreceived_of_scanChange hsettled
        ⟨x, rfl, .inr ⟨all, hall, file, hfiles mem_cons_self, ht.2⟩⟩
  | storing changed =>
    cases changed with
    | nil => simp [advance]
    | cons file changed =>
      obtain ⟨hfile, hrest⟩ := forall_mem_cons.mp h
      simp only [advance, ScanEnv.updateFile, ends_bind, ends_require, ends_modify, ends_pure]
      refine ⟨fun _ _ => ⟨?_, by simpa using hfile⟩, fun _ _ => trivial⟩
      rintro next ⟨⟩
      exact hrest

end FullScan
open FullScan

/-- A run of a folder, with the full scans under way, every file entry received from peers, and every
record that a full scan stored, each with what had been received by then. -/
structure OriginState where
  model : FolderModel
  scans : List (ScanEnv × FullScan)
  received : List FileInfo
  originated : List (List FileInfo × FileInfo)

def receivedBy : FolderEvent → List FileInfo
  | .index _ _ files => files
  | _ => []

inductive OriginEvent where
  | folder (e : FolderEvent)
  | walk (env : ScanEnv)
  | call

/-- The next call of a full scan, which ends with its first error. -/
def OriginState.advance (u : OriginState) (before : List (ScanEnv × FullScan)) (env : ScanEnv)
    (scan : FullScan) (later : List (ScanEnv × FullScan)) : OriginState :=
  let x := scan.advance env u.model.folder.disk
  let out := (result? x u.model.scanState).getD (none, [])
  { u with
    model := u.model.withScanState (after x u.model.scanState)
    scans := before ++ (out.1.map (env, ·)).toList ++ later
    originated := u.originated ++ out.2.map fun r => (u.received, r) }

/-- Messages and pulls, and full scans cut at their calls. -/
inductive OriginStep : OriginState → OriginEvent → OriginState → Prop where
  | folder {u e m} (h : FolderStep u.model e m) (hscan : ∀ env sub, e ≠ .scan env sub)
    (hincremental : ∀ env changes deletes, e ≠ .incrementalScan env changes deletes) :
    OriginStep u (.folder e) { u with model := m, received := u.received ++ receivedBy e }
  | walk {u env files} (hpaused : u.model.paused = false)
    (hroot : env.checkRoot u.model.folder.disk [] = .ok ())
    (hfiles : env.listing u.model.folder.disk none = .ok files) :
    OriginStep u (.walk env) { u with scans := u.scans ++ [(env, .walked files)] }
  | call {u before env scan later} (hscan : u.scans = before ++ (env, scan) :: later) :
    OriginStep u .call (u.advance before env scan later)

/-- Newer than every version received for its name, of which there is one. -/
def Spurious (received : List FileInfo) (r : FileInfo) : Prop :=
  (∃ f ∈ received, f.name = r.name) ∧ ∀ f ∈ received, f.name = r.name → Supersedes r f

/-- A full scan starts when no other is under way and every received name is settled, and no message
is handled and no pull works on the folder until it has ended. -/
def OriginGuard (u : OriginState) : OriginEvent → Prop
  | .walk env => u.scans = [] ∧ Settled u.received env u.model.folder
  | .folder .takePending | .folder .endPull | .call => True
  | .folder _ => u.scans = []

/-- No record that was stored is spurious, and the scan under way has found nothing that peers have
sent. -/
structure OriginInv (u : OriginState) : Prop where
  stored : ∀ o ∈ u.originated, ¬ Spurious o.1 o.2
  scan : u.scans = [] ∨ ∃ env scan, u.scans = [(env, scan)] ∧
    Fits u.received env u.model.folder scan

theorem not_spurious_of_unreceived {received : List FileInfo} (h : Unreceived received r) :
    ¬ Spurious received r := by
  rintro ⟨⟨f, hf, hname⟩, -⟩
  exact h f hf hname

theorem OriginInv.advance {u : OriginState} {scan : FullScan} (h : OriginInv u)
    (hfits : Fits u.received env u.model.folder scan) :
    OriginInv (u.advance [] env scan []) := by
  have hends := @ends_advance env u.model.folder.disk u.received u.model.scanState scan hfits
  unfold OriginState.advance
  simp only
  cases hresult : result? (scan.advance env u.model.folder.disk) u.model.scanState with
  | none => exact ⟨by simpa using h.stored, .inl rfl⟩
  | some out =>
    obtain ⟨hnext, hout⟩ := hends.result? hresult
    refine ⟨fun o ho => ?_, ?_⟩
    · rcases mem_append.mp ho with ho | ho
      · exact h.stored o ho
      · obtain ⟨r, hr, rfl⟩ := mem_map.mp ho
        exact not_spurious_of_unreceived (hout r hr)
    · obtain ⟨next, stored⟩ := out
      cases next with
      | none => exact .inl rfl
      | some next => exact .inr ⟨env, next, rfl, hnext next rfl⟩

/-- In every run whose full scans start when the received names are settled and are not disturbed,
no scan originates a version newer than all that were received for its name. -/
theorem fullScans_originate_nothing {u₀ u : OriginState} (h0 : u₀.originated = [])
    (hidle : u₀.scans = []) (hrun : Transition.Reach OriginStep OriginGuard u₀ u) :
    ∀ o ∈ u.originated, ¬ Spurious o.1 o.2 := by
  refine (hrun.invariant (I := OriginInv) ⟨by simp [h0], .inl hidle⟩ ?_).stored
  intro u e v hg hs ih
  cases hs with
  | @folder e m h hscan hincremental =>
    cases h with
    | takePending | endPull =>
      refine ⟨ih.stored, ih.scan.imp_right fun ⟨env, scan, hscans, hfits⟩ =>
        ⟨env, scan, hscans, ?_⟩⟩
      simpa [receivedBy, FolderModel.takePending] using hfits
    | scan => exact absurd rfl (hscan _ _)
    | incrementalScan => exact absurd rfl (hincremental _ _ _)
    | index | planPull | progress | task => exact ⟨ih.stored, .inl hg⟩
  | @walk env files hpaused hroot hfiles =>
    exact ⟨ih.stored, .inr ⟨env, .walked files, by simp [hg.1], hg.2, hfiles⟩⟩
  | @call before env scan later hscans =>
    rcases ih.scan with hnone | ⟨env', scan', hone, hfits⟩
    · simp [hnone] at hscans
    · rw [hone] at hscans
      obtain ⟨rfl, hcons⟩ : before = [] ∧ [(env', scan')] = (env, scan) :: later := by
        cases before with
        | nil => exact ⟨rfl, hscans⟩
        | cons x before => simp at hscans
      obtain ⟨heq, rfl⟩ := cons.inj hcons
      cases heq
      exact ih.advance hfits

theorem nameSettled_diskWith {db : FolderFiles} {content : Bytes} (hf : db.find? "x" = some r)
    (hr : r.blockHashes = (contentBlocks (calmScan 2).sha256 content).map (·.hash)) :
    NameSettled (calmScan 2).sha256 ⟨db, diskWith content⟩ "x" := by
  simp only [NameSettled, hf]
  refine ⟨.inr (.inl rfl), fun path node hne hnode _ => ?_⟩
  rw [Disk.nodeAt_eq hne, diskWith, FileStore.node_set] at hnode
  split at hnode
  · cases hnode
    exact hr.symm
  · cases hnode

/-- The first scan under way goes on. -/
def OriginState.next (u : OriginState) : OriginState :=
  match u.scans with
  | [] => u
  | (env, scan) :: later => u.advance [] env scan later

theorem reach_next {ok : OriginState → OriginEvent → Prop} (hok : ∀ u, ok u .call) (n : Nat)
    (u : OriginState) : Transition.Reach OriginStep ok u (OriginState.next^[n] u) := by
  induction n generalizing u with
  | zero => exact .refl
  | succ n ih =>
    rw [Function.iterate_succ_apply]
    refine Relation.ReflTransGen.trans ?_ (ih u.next)
    unfold OriginState.next
    split
    · exact .refl
    next hscans => exact Transition.Reach.refl.next (@OriginStep.call u [] _ _ _ hscans) (hok u)

/-- What the walk of a folder with the file `x` finds. -/
def walkedX : FileInfo := contentInfo (calmScan 2).sha256 "x" [7] (0, 0)

def OriginState.walked (u : OriginState) (files : List FileInfo) : OriginState :=
  { u with scans := u.scans ++ [(calmScan 2, .walked files)] }

/-- A folder after an index update. -/
def updatedFolder (m : FolderModel) (files : List FileInfo) : OriginState :=
  ⟨m.indexMessage calmIndex false files, [], files, []⟩

theorem step_update (m : FolderModel) (scans : List (ScanEnv × FullScan)) (files : List FileInfo) :
    OriginStep ⟨m, scans, [], []⟩ (.folder (.index calmIndex false files))
      { updatedFolder m files with scans } := .folder .index (by simp) (by simp)

/-- The peer announces what the folder holds already. -/
theorem fullScans_originate_nothing_when_synced :
    let m := idleFolder (empty.upsert (peerVersion 1 7)) (diskWith [7])
    let v := OriginState.next^[6] ((updatedFolder m [peerVersion 1 7]).walked [walkedX])
    v.scans = [] ∧ ∀ o ∈ v.originated, ¬ Spurious o.1 o.2 := by
  intro m v
  refine ⟨by decide, @fullScans_originate_nothing ⟨m, [], [], []⟩ _ rfl rfl ?_⟩
  have hsettled : Settled [peerVersion 1 7] (calmScan 2)
      (updatedFolder m [peerVersion 1 7]).model.folder := by
    intro f hf
    cases mem_singleton.mp hf
    exact nameSettled_diskWith (r := peerVersion 1 7) (by decide) (by decide)
  refine Relation.ReflTransGen.trans ((Transition.Reach.refl.next (step_update m [] _) rfl).next
    (@OriginStep.walk _ (calmScan 2) [walkedX] rfl rfl rfl) ⟨rfl, hsettled⟩)
    (reach_next (fun _ => trivial) 6 _)

theorem supersedes_iff {f g : FileInfo} : Supersedes f g ↔
    f.version.dominates g.version = true ∧ g.version.dominates f.version = false := by
  rw [Supersedes, lt_iff_le_not_ge, ← Bool.not_eq_true, Vector.dominates_iff, Vector.dominates_iff]

theorem spurious_singleton {f : FileInfo} (hname : f.name = r.name)
    (h : r.version.dominates f.version = true ∧ f.version.dominates r.version = false) :
    Spurious [f] r := by
  refine ⟨⟨f, mem_singleton_self f, hname⟩, fun g hg _ => ?_⟩
  cases mem_singleton.mp hg
  exact supersedes_iff.mpr h

/-- The deletion of `x` that a peer announces as its second version. -/
def peerDeletion : FileInfo :=
  { FileInfo.new "x" with version := Vector.new.withCounter 5 2, deleted := some true }

/-- A full scan between an index message and the pull: a file that is not there yet is marked
deleted, one that is still old is announced again, and one that is to be deleted comes back. A scan
that starts before the message, when all is settled, marks the file deleted, too. -/
theorem fullScans_originate_spurious :
    (∃ v, Transition.Reach OriginStep (fun _ _ => True)
        ((updatedFolder (idleFolder .empty .empty) [peerVersion 1 7]).walked []) v ∧
      ∃ o ∈ v.originated, Spurious o.1 o.2 ∧ o.2.isDeleted = true) ∧
    (∃ v, Transition.Reach OriginStep (fun _ _ => True) ((updatedFolder (idleFolder
        (empty.upsert (peerVersion 1 7)) (diskWith [7])) [peerVersion 2 8]).walked [walkedX]) v ∧
      ∃ o ∈ v.originated, Spurious o.1 o.2 ∧ o.2.blockHashes = (peerVersion 1 7).blockHashes) ∧
    (∃ v, Transition.Reach OriginStep (fun _ _ => True) ((updatedFolder (idleFolder
        (empty.upsert (peerVersion 1 7)) (diskWith [7])) [peerDeletion]).walked [walkedX]) v ∧
      ∃ o ∈ v.originated, Spurious o.1 o.2 ∧ o.2.isDeleted = false) ∧
    ∃ u v, OriginStep ⟨idleFolder .empty .empty, [], [], []⟩ (.walk (calmScan 2)) u ∧
      OriginStep u (.folder (.index calmIndex false [peerVersion 1 7])) v ∧
      ∃ w, Transition.Reach OriginStep (fun _ _ => True) v w ∧
        ∃ o ∈ w.originated, Spurious o.1 o.2 ∧ o.2.isDeleted = true := by
  refine ⟨⟨_, reach_next (fun _ => trivial) 6 _,
      ([peerVersion 1 7], clearDeletedBlocks (deletedInfo 2 1 (peerVersion 1 7))), ?_, ?_, by decide⟩,
    ⟨_, reach_next (fun _ => trivial) 6 _,
      ([peerVersion 2 8], modifiedInfo 2 1 (peerVersion 2 8) walkedX), ?_, ?_, by decide⟩,
    ⟨_, reach_next (fun _ => trivial) 6 _,
      ([peerDeletion], modifiedInfo 2 1 peerDeletion walkedX), ?_, ?_, by decide⟩,
    _, _, @OriginStep.walk _ _ [] rfl rfl rfl, step_update _ _ _, _, reach_next (fun _ => trivial) 6 _,
      ([peerVersion 1 7], clearDeletedBlocks (deletedInfo 2 1 (peerVersion 1 7))), ?_, ?_,
      by decide⟩
  · decide
  · exact spurious_singleton (by decide) (by decide)
  · decide
  · exact spurious_singleton (by decide) (by decide)
  · decide
  · exact spurious_singleton (by decide) (by decide)
  · decide
  · exact spurious_singleton (by decide) (by decide)

end Syncthing
