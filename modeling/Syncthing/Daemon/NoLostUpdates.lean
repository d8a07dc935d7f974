import Syncthing.Daemon.IndexPropagation

/-! The filter of the propagation loop compares sequence numbers that scans, peers and the snapshots
behind the initial indexes have set. As long as they come from the counter of the folder and in
order, whatever it holds back has been sent. -/
namespace Syncthing

open Transition List Function KeyedList Propagation PropagationStep

/-- A record that is at least as new as the one it replaces. -/
def Newer (db : FolderFiles) (f : FileInfo) : Prop :=
  ∀ old, db.find? f.name = some old → old.version.get ≤ f.version.get

theorem Carries.upsert {db : FolderFiles} {f g : FileInfo} (h : Carries db.entries g)
    (hf : Newer db f) : Carries (db.upsert f).entries g := by
  obtain ⟨old, hold, hname, hversion⟩ := h
  by_cases hk : old.name = f.name
  · have := hf old (find?_eq_some_iff.mpr ⟨hold, hk⟩)
    exact ⟨f, mem_upsert.mpr (.inl rfl), hk ▸ hname, hversion.trans this⟩
  · exact ⟨old, mem_upsert.mpr (.inr ⟨hold, hk⟩), hname, hversion⟩

/-- Batches in which a record at or below one of a batch is dealt with before that batch is. -/
def Ordered (allocated : List FileInfo) : (FileInfo → Prop) → List (List FileInfo) → Prop
  | _, [] => True
  | P, files :: rest =>
    (∀ f ∈ files, ∀ g ∈ allocated, g.sequence ≤ f.sequence → P g ∨ g ∈ files) ∧
      Ordered allocated (fun g => P g ∨ g ∈ files) rest

namespace Ordered

variable {allocated allocated' files : List FileInfo} {P P' : FileInfo → Prop}
  {batches : List (List FileInfo)}

theorem mono (h : Ordered allocated P batches) (ha : ∀ g ∈ allocated', g ∈ allocated ∨
      ∀ files ∈ batches, ∀ f ∈ files, f.sequence < g.sequence)
    (hP : ∀ g ∈ allocated, P g → P' g) : Ordered allocated' P' batches := by
  induction batches generalizing P P' with
  | nil => trivial
  | cons files batches ih =>
    refine ⟨fun f hf g hg hle => ?_, ih h.2 (fun g hg => ?_) fun g hg => Or.imp_left (hP g hg)⟩
    · rcases ha g hg with hg | hg
      · exact (h.1 f hf g hg hle).imp_left (hP g hg)
      · exact absurd (hg files mem_cons_self f hf) (not_lt.mpr hle)
    · exact (ha g hg).imp_right fun h files hf => h files (mem_cons_of_mem _ hf)

theorem append (h : Ordered allocated P batches)
    (hf : ∀ f ∈ files, ∀ g ∈ allocated, g.sequence ≤ f.sequence →
      P g ∨ (∃ batch ∈ batches, g ∈ batch) ∨ g ∈ files) :
    Ordered allocated P (batches ++ [files]) := by
  induction batches generalizing P with
  | nil =>
    refine ⟨fun f hm g hg hle => ?_, trivial⟩
    simpa using hf f hm g hg hle
  | cons batch batches ih =>
    refine ⟨h.1, ih h.2 fun f hm g hg hle => ?_⟩
    rcases hf f hm g hg hle with hg | ⟨other, hb, hg⟩ | hg
    · exact .inl (.inl hg)
    · rcases mem_cons.mp hb with rfl | hb
      · exact .inl (.inr hg)
      · exact .inr (.inl ⟨other, hb, hg⟩)
    · exact .inr (.inr hg)

/-- The first batch has been dealt with. -/
theorem tail (h : Ordered allocated P (files :: batches)) (hP : ∀ g ∈ files, P g) :
    Ordered allocated P batches :=
  h.2.mono (fun _ => .inl) fun g _ hg => hg.elim id (hP g)

end Ordered

namespace Propagation

variable (s : Propagation) (d : DeviceId)

/-- The records enqueued to a device. -/
def records : List FileInfo := (s.sent d).flatMap IndexMessage.files

/-- The files of an `Index` that is not sent yet. -/
def snapshot : List FileInfo :=
  match s.phase d with
  | .generated files => files
  | _ => []

/-- The initial `Index` for a device has been read from the database. -/
def Begun : Prop := (∃ files, s.phase d = .generated files) ∨ s.phase d = .indexed

/-- A device has been sent a record, or will be with its initial `Index`. -/
def Covered (f : FileInfo) : Prop := Carries (s.records d ++ s.snapshot d) f

def Delivered (f : FileInfo) : Prop := ∀ d, s.Begun d → s.Covered d f

/-- The records in the chunks that are left for a device. -/
def sendingTo : List FileInfo :=
  match s.handling with
  | none => []
  | some h => (h.sending.filter (·.1 = d)).flatMap (·.2.2)

/-- The published events the loop is not done with, the oldest first. -/
def batches : List (List FileInfo) := (s.handling.map (·.files)).toList ++ s.events

/-- What the filter for a device is set to, or will be by its logger. -/
def Mark (k : UInt64) : Prop :=
  s.indexedFolders d = some k ∨ (∃ n, .indexSent n k ∈ s.logger d) ∨
    ∃ files, s.phase d = .generated files ∧ k = highestSequence 0 files

/-- The logger has still to see that the initial `Index` was sent. -/
def IndexSentPending : Prop := ∃ n k, .indexSent n k ∈ s.logger d

end Propagation

/-- Sequence numbers are the folder's own and come in order: scans do not overlap, and neither does
a snapshot with a scan that is storing; a record of a peer is numbered within the counter; the loop
does not come by between the snapshot for a device and the note that it was sent. -/
def PropagationGuard (s : Propagation) : PropagationEvent → Prop
  | .allocate _ _ => s.scans = []
  | .store f => Newer s.db f
  | .storeRemote f => 0 < f.sequence ∧ f.sequence ≤ s.sequence ∧ Newer s.db f
  | .republish remote => s.scans = [] ∧ s.unpushed remote ⊆ s.allocated
  | .generateIndex _ => ∀ scan ∈ s.scans, scan.unstored = []
  | .device d => (∀ files, s.phase d ≠ .generated files) ∧ ¬ s.IndexSentPending d
  | _ => True

/-- Every sequence number is within the counter. -/
structure Numbered (s : Propagation) : Prop where
  records : ∀ f ∈ s.db.entries, 0 < f.sequence ∧ f.sequence ≤ s.sequence
  allocated : ∀ f ∈ s.allocated, 0 < f.sequence ∧ f.sequence ≤ s.sequence
  marks : ∀ d k, s.Mark d k → k ≤ s.sequence

/-- Where the records of scans are. -/
structure Accounted (s : Propagation) : Prop where
  single : s.scans.length ≤ 1
  scanned : ∀ scan ∈ s.scans, scan.files ⊆ s.allocated ∧ scan.unstored ⊆ scan.files
  published : ∀ files ∈ s.batches, files ⊆ s.allocated
  handled : s.handled ⊆ s.allocated
  stored : ∀ f ∈ s.allocated, (∃ scan ∈ s.scans, f ∈ scan.unstored) ∨ Carries s.db.entries f

/-- The peer's folder list, once logged, names the folder. -/
def FolderKnown (env : DispatchEnv) (s : Propagation) (d : DeviceId) : Prop :=
  ∃ remote, s.sharedFolders d = some remote ∧ env.folder ∈ remote

/-- What the logger of a session has still to see. -/
inductive Logged (env : DispatchEnv) (s : Propagation) (d : DeviceId) : Prop where
  | waiting (hp : s.phase d = .waiting) (hl : s.logger d = [])
  | unshared (hp : s.phase d = .unshared)
    (hl : ∀ e ∈ s.logger d, ∃ remote, e = .clusterConfigComplete remote)
  | told (remote : List String) (hp : s.phase d = .shared ∨ ∃ files, s.phase d = .generated files)
    (hl : s.logger d = [.clusterConfigComplete remote]) (hr : env.folder ∈ remote)
  | known (hp : s.phase d = .shared ∨ ∃ files, s.phase d = .generated files)
    (hl : s.logger d = []) (hk : FolderKnown env s d)
  | sentTold (remote : List String) (n : Nat) (k : UInt64) (hp : s.phase d = .indexed)
    (hl : s.logger d = [.clusterConfigComplete remote, .indexSent n k]) (hr : env.folder ∈ remote)
  | sentKnown (n : Nat) (k : UInt64) (hp : s.phase d = .indexed)
    (hl : s.logger d = [.indexSent n k]) (hk : FolderKnown env s d)
  | settled (k : UInt64) (hp : s.phase d = .indexed) (hl : s.logger d = [])
    (hk : FolderKnown env s d) (hi : s.indexedFolders d = some k)

structure Sessions (env : DispatchEnv) (s : Propagation) : Prop where
  connected : ∀ d, s.phase d ≠ .waiting → d ∈ s.connected
  logged : ∀ d, Logged env s d
  indexed : ∀ d k, s.indexedFolders d = some k → s.phase d = .indexed

/-- What is not delivered is under way, and above every filter it has still to pass. -/
structure Coverage (s : Propagation) : Prop where
  underWay : ∀ g ∈ s.allocated, (∃ scan ∈ s.scans, g ∈ scan.files) ∨
    (∃ files ∈ s.batches, g ∈ files) ∨ s.Delivered g
  ordered : Ordered s.allocated s.Delivered s.batches
  marks : ∀ d k, s.Mark d k → ∀ g ∈ s.allocated, g.sequence ≤ k →
    s.Covered d g ∨ Carries (s.sendingTo d) g
  current : ∀ h, s.handling = some h → ∀ g ∈ h.files, ∀ d, s.Begun d →
    (d ∈ h.devices ∧ ∀ x ∈ h.sending, x.1 ≠ d) ∨ s.Covered d g ∨ Carries (s.sendingTo d) g
  sending : ∀ h, s.handling = some h → ∀ x ∈ h.sending, s.phase x.1 = .indexed ∧
    x.2.2 ≠ [] ∧ ∀ w ∈ x.2.2, ∃ f ∈ h.files, f.sequence = w.sequence
  handled : ∀ g ∈ s.handled, s.Delivered g

section
variable {env : DispatchEnv} {s t : Propagation} {e : PropagationEvent} {d : DeviceId}
  {g : FileInfo} {devices : List DeviceId} {k : UInt64} {sequence : UInt64}
  {rest : List (List FileInfo)} {l : List LocalScan} {files : List FileInfo}

theorem Logged.congr (h : Logged env s d) (hp : t.phase d = s.phase d)
    (hl : t.logger d = s.logger d) (hf : t.sharedFolders d = s.sharedFolders d)
    (hi : ∀ k, s.indexedFolders d = some k → ∃ k', t.indexedFolders d = some k') :
    Logged env t d := by
  have hknown : FolderKnown env s d → FolderKnown env t d :=
    fun ⟨remote, hr, hm⟩ => ⟨remote, hf ▸ hr, hm⟩
  cases h with
  | waiting hps hls => exact .waiting (hp ▸ hps) (hl ▸ hls)
  | unshared hps hls => exact .unshared (hp ▸ hps) (hl ▸ hls)
  | told remote hps hls hr => exact .told remote (hp ▸ hps) (hl ▸ hls) hr
  | known hps hls hk => exact .known (hp ▸ hps) (hl ▸ hls) (hknown hk)
  | sentTold remote n k hps hls hr => exact .sentTold remote n k (hp ▸ hps) (hl ▸ hls) hr
  | sentKnown n k hps hls hk => exact .sentKnown n k (hp ▸ hps) (hl ▸ hls) (hknown hk)
  | settled k hps hls hk hik =>
    obtain ⟨k', hk'⟩ := hi k hik
    exact .settled k' (hp ▸ hps) (hl ▸ hls) (hknown hk) hk'

/-- The device whose session an event is about. -/
def PropagationEvent.session? : PropagationEvent → Option DeviceId
  | .clusterConfig d _ | .generateIndex d | .sendIndex d | .log d | .chunk d => some d
  | _ => none

/-- What there is of a device is as it was. -/
structure Propagation.SameDevice (s t : Propagation) (d : DeviceId) : Prop where
  phase : t.phase d = s.phase d
  logger : t.logger d = s.logger d
  shared : t.sharedFolders d = s.sharedFolders d
  indexed : t.indexedFolders d = s.indexedFolders d
  sent : t.sent d = s.sent d

theorem sameDevice_step (hs : PropagationStep env s e t) (hd : e.session? ≠ some d) :
    s.SameDevice t d := by
  have hne : ∀ x, e.session? = some x → d ≠ x := fun x hx heq => hd (heq ▸ hx)
  cases hs with
  | allocate | store | publish | storeRemote | republish | connect | takeEvent | device | finish =>
    exact ⟨rfl, rfl, rfl, rfl, rfl⟩
  | clusterConfig | generateIndex | sendIndex | chunk =>
    constructor <;> simp [emit, enqueue, setPhase, setIndexed, hne _ rfl]
  | @log x event rest hl =>
    cases event <;> constructor <;> simp [Propagation.log, setIndexed, hne x rfl]

/-- The session with one device at most moves on. -/
theorem Sessions.of_step (h : Sessions env s) (hs : PropagationStep env s e t)
    (hsession : ∀ d, e.session? = some d → d ∈ s.connected ∧ Logged env t d ∧
      ∀ k, t.indexedFolders d = some k → t.phase d = .indexed) : Sessions env t := by
  have hsame := @sameDevice_step env s t e
  have hconnected : s.connected ⊆ t.connected := by
    cases hs with
    | connect => exact subset_append_left _ _
    | @log d event rest hl => cases event <;> exact List.Subset.refl _
    | _ => exact List.Subset.refl _
  refine ⟨fun d hp => hconnected ?_, fun d => ?_, fun d k hk => ?_⟩
  all_goals by_cases hd : e.session? = some d
  · exact (hsession d hd).1
  · exact h.connected d (by rwa [(hsame hs hd).phase] at hp)
  · exact (hsession d hd).2.1
  · obtain ⟨hp, hl, hf, hi, -⟩ := hsame hs hd
    exact (h.logged d).congr hp hl hf fun k hk => ⟨k, hi ▸ hk⟩
  · exact (hsession d hd).2.2 k hk
  · rw [(hsame hs hd).indexed] at hk
    rw [(hsame hs hd).phase]
    exact h.indexed d k hk

section
variable (h : Logged env s d)
include h

theorem Logged.clusterConfig {remote : List String} (hp : s.phase d = .waiting) :
    Logged env ((s.setPhase d (if env.sharedWith d remote then .shared else .unshared)).emit d
      (.clusterConfigComplete remote)) d := by
  have hl : s.logger d = [] := by
    cases h <;> simp_all
  by_cases hs : env.sharedWith d remote = true
  · refine .told remote (.inl ?_) ?_ ?_
    · simp [emit, setPhase, hs]
    · simp [emit, setPhase, hl]
    · simp only [DispatchEnv.sharedWith, Bool.and_eq_true] at hs
      simpa using hs.2
  · refine .unshared ?_ ?_
    · simp [emit, setPhase, hs]
    · simp [emit, setPhase, hl]

theorem Logged.generateIndex
    (hp : s.phase d = .shared) : Logged env (s.setPhase d (.generated files)) d := by
  have hphase : (s.setPhase d (.generated files)).phase d = .generated files := by simp [setPhase]
  cases h with
  | told remote _ hl hr => exact .told remote (.inr ⟨files, hphase⟩) hl hr
  | known _ hl hk => exact .known (.inr ⟨files, hphase⟩) hl hk
  | _ => simp_all

theorem Logged.sendIndex {n : Nat} {message : IndexMessage}
    (hp : s.phase d = .generated files) :
    Logged env (((s.setPhase d .indexed).enqueue d message).emit d (.indexSent n k)) d := by
  cases h with
  | told remote _ hl hr =>
    refine .sentTold remote n k ?_ ?_ hr
    · simp [emit, enqueue, setPhase]
    · simp [emit, enqueue, setPhase, hl]
  | known _ hl hk =>
    refine .sentKnown n k ?_ ?_ hk
    · simp [emit, enqueue, setPhase]
    · simp [emit, enqueue, setPhase, hl]
  | _ => simp_all

theorem Logged.log {event : SessionEvent} {rest : List SessionEvent}
    (hl : s.logger d = event :: rest) :
    Logged env (log { s with logger := update s.logger d rest } d event) d := by
  cases h with
  | waiting _ hl' | known _ hl' _ | settled _ _ hl' _ _ => simp [hl'] at hl
  | unshared hp he =>
    obtain ⟨remote, rfl⟩ := he event (hl ▸ mem_cons_self)
    refine .unshared hp ?_
    intro x hx
    exact he x (hl ▸ List.mem_cons_of_mem _ (by simpa [Propagation.log] using hx))
  | told remote hp hl' hr =>
    obtain ⟨rfl, rfl⟩ := List.cons.inj (hl'.symm.trans hl)
    exact .known hp (by simp [Propagation.log]) ⟨remote, by simp [Propagation.log], hr⟩
  | sentTold remote n k hp hl' hr =>
    obtain ⟨rfl, rfl⟩ := List.cons.inj (hl'.symm.trans hl)
    exact .sentKnown n k hp (by simp [Propagation.log]) ⟨remote, by simp [Propagation.log], hr⟩
  | sentKnown n k hp hl' hk =>
    obtain ⟨rfl, rfl⟩ := List.cons.inj (hl'.symm.trans hl)
    exact .settled k hp (by simp [Propagation.log, Propagation.setIndexed]) hk
      (by simp [Propagation.log, Propagation.setIndexed])

theorem Logged.phase_of_indexSent {n : Nat}
    (hl : .indexSent n k ∈ s.logger d) : s.phase d = .indexed := by
  cases h <;> simp_all
  rename_i he
  obtain ⟨remote, hr⟩ := he _ hl
  cases hr

end

theorem Sessions.step (hs : PropagationStep env s e t) (h : Sessions env s)
    (hsending : ∀ h, s.handling = some h → ∀ x ∈ h.sending, s.phase x.1 = .indexed) :
    Sessions env t := by
  refine h.of_step hs fun d hd => ?_
  have hlogged := h.logged d
  have hindexed := h.indexed d
  have hconnected := h.connected d
  cases hs with
  | allocate | store | publish | storeRemote | republish | connect | takeEvent | device | finish =>
    cases hd
  | clusterConfig hc hp =>
    cases hd
    refine ⟨hc, hlogged.clusterConfig hp, fun k hk => ?_⟩
    have hp' := hindexed k hk
    simp [hp] at hp'
  | generateIndex hp =>
    cases hd
    refine ⟨hconnected (by simp [hp]), hlogged.generateIndex hp, fun k hk => ?_⟩
    have hp' := hindexed k hk
    simp [hp] at hp'
  | sendIndex hp =>
    cases hd
    refine ⟨hconnected (by simp [hp]), hlogged.sendIndex hp, fun k hk => ?_⟩
    simp [emit, enqueue, setPhase]
  | @log _ event rest hl =>
    cases hd
    refine ⟨hconnected fun hw => ?_, hlogged.log hl, fun k hk => ?_⟩
    · cases hlogged <;> simp_all
    · cases event with
      | clusterConfigComplete folders => exact hindexed k hk
      | indexSent n k' => exact hlogged.phase_of_indexSent (hl ▸ mem_cons_self)
  | @chunk files devices _ prev chunk rest hh =>
    cases hd
    have hp : s.phase d = .indexed := hsending _ hh _ mem_cons_self
    refine ⟨hconnected (by simp [hp]), ?_, fun _ _ => hp⟩
    exact hlogged.congr rfl rfl rfl fun _ _ =>
      ⟨highestSequence prev chunk, by simp [setIndexed, enqueue]⟩

/-! Where the records are. -/

theorem batches_publish (hf : files ≠ []) (scans : List LocalScan) :
    { s with scans, events := s.publish files }.batches = s.batches ++ [files] := by
  simp [Propagation.batches, Propagation.publish, hf]

theorem mem_batches_publish {batch : List FileInfo}
    (h : batch ∈ { s with scans := l, events := s.publish files }.batches) :
    batch ∈ s.batches ∨ batch = files := by
  by_cases hf : files = []
  · subst hf
    exact .inl (by simpa [Propagation.batches, Propagation.publish] using h)
  · rw [batches_publish hf] at h
    simpa using h

theorem batches_takeEvent
    (hh : s.handling = none) (he : s.events = files :: rest) :
    { s with events := rest, handling := some ⟨files, s.connected, []⟩ }.batches = s.batches := by
  simp [batches, hh, he]

theorem batches_of_handling {h : Handling} (hh : s.handling = some h) :
    s.batches = h.files :: s.events := by
  simp [batches, hh]

theorem Accounted.step (hs : PropagationStep env s e t) (hg : PropagationGuard s e)
    (h : Accounted s) : Accounted t := by
  cases hs with
  | @allocate files sequence _ _ =>
    have hscans : s.scans = [] := hg
    refine ⟨by simp [hscans], fun scan hscan => ?_, fun batch hb => ?_, ?_, fun f hf => ?_⟩
    · simp only [hscans, nil_append, mem_singleton] at hscan
      subst hscan
      exact ⟨subset_append_right _ _, List.Subset.refl _⟩
    · exact List.Subset.trans (h.published batch hb) (subset_append_left _ _)
    · exact List.Subset.trans h.handled (subset_append_left _ _)
    · rcases mem_append.mp hf with hf | hf
      · rcases h.stored f hf with ⟨scan, hscan, -⟩ | hf
        · simp [hscans] at hscan
        · exact .inr hf
      · exact .inl ⟨⟨files, files⟩, by simp, hf⟩
  | @store before scan later file rest hscans hu =>
    have hscan : scan ∈ s.scans := by simp [hscans]
    refine ⟨by simpa [hscans] using h.single, fun x hx => ?_, h.published, h.handled,
      fun f hf => ?_⟩
    · rcases mem_append.mp hx with hx | hx
      · exact h.scanned x (by simp [hscans, hx])
      · rcases mem_cons.mp hx with rfl | hx
        · obtain ⟨hfiles, hsub⟩ := h.scanned scan hscan
          exact ⟨hfiles, fun y hy => hsub (hu ▸ mem_cons_of_mem _ hy)⟩
        · exact h.scanned x (by simp [hscans, hx])
    · rcases h.stored f hf with ⟨x, hx, hfx⟩ | hf
      · rw [hscans, mem_append, mem_cons] at hx
        rcases hx with hx | rfl | hx
        · exact .inl ⟨x, by simp [hx], hfx⟩
        · rw [hu, mem_cons] at hfx
          rcases hfx with rfl | hfx
          · exact .inr (.of_mem (mem_upsert.mpr (.inl rfl)))
          · exact .inl ⟨{ x with unstored := rest }, by simp, hfx⟩
        · exact .inl ⟨x, by simp [hx], hfx⟩
      · exact .inr (hf.upsert hg)
  | @publish before scan later hscans hu =>
    have hscan : scan ∈ s.scans := by simp [hscans]
    have hsub : ∀ x ∈ before ++ later, x ∈ s.scans := by
      intro x hx
      rw [hscans]
      simp only [mem_append, mem_cons] at hx ⊢
      tauto
    refine ⟨?_, fun x hx => h.scanned x (hsub x hx), fun batch hb => ?_, h.handled, fun f hf => ?_⟩
    · have := h.single
      rw [hscans] at this
      simp only [length_append, length_cons] at this ⊢
      omega
    · rcases mem_batches_publish hb with hb | rfl
      · exact h.published batch hb
      · exact (h.scanned scan hscan).1
    · rcases h.stored f hf with ⟨x, hx, hfx⟩ | hf
      · rw [hscans, mem_append, mem_cons] at hx
        rcases hx with hx | rfl | hx
        · exact .inl ⟨x, by simp [hx], hfx⟩
        · simp [hu] at hfx
        · exact .inl ⟨x, by simp [hx], hfx⟩
      · exact .inr hf
  | storeRemote =>
    refine ⟨h.single, h.scanned, h.published, h.handled, fun f hf => ?_⟩
    exact (h.stored f hf).imp_right fun hf => hf.upsert hg.2.2
  | @republish remote =>
    refine ⟨h.single, h.scanned, fun batch hb => ?_, h.handled, h.stored⟩
    rcases mem_batches_publish (l := s.scans) hb with hb | rfl
    · exact h.published batch hb
    · exact hg.2
  | connect | clusterConfig | generateIndex | sendIndex =>
    exact ⟨h.single, h.scanned, h.published, h.handled, h.stored⟩
  | @log d event rest _ =>
    cases event <;> exact ⟨h.single, h.scanned, h.published, h.handled, h.stored⟩
  | takeEvent hh he =>
    exact ⟨h.single, h.scanned, batches_takeEvent hh he ▸ h.published, h.handled, h.stored⟩
  | device hh | chunk hh =>
    refine ⟨h.single, h.scanned, fun batch hb => h.published batch ?_, h.handled, h.stored⟩
    rw [batches_of_handling hh]
    exact hb
  | @finish files hh =>
    have hb := batches_of_handling hh
    refine ⟨h.single, h.scanned, fun batch hm => h.published batch ?_, fun f hf => ?_, h.stored⟩
    · rw [hb]
      exact mem_cons_of_mem _ hm
    · rcases mem_append.mp hf with hf | hf
      · exact h.handled hf
      · exact h.published files (hb ▸ mem_cons_self) hf

/-! What has been sent, and what the filters are set to. -/

theorem Propagation.SameDevice.covered (h : s.SameDevice t d) : t.Covered d g ↔ s.Covered d g := by
  simp only [Propagation.Covered, records, snapshot, h.sent, h.phase]

theorem Propagation.SameDevice.begun (h : s.SameDevice t d) : t.Begun d ↔ s.Begun d := by
  simp only [Propagation.Begun, h.phase]

theorem Propagation.Mark.congr (h : t.Mark d k) (hp : t.phase d = s.phase d)
    (hl : t.logger d = s.logger d) (hi : t.indexedFolders d = s.indexedFolders d) : s.Mark d k := by
  simpa only [Propagation.Mark, hp, hl, hi] using h

theorem covered_iff_of_indexed (hp : s.phase d = .indexed) :
    s.Covered d g ↔ Carries (s.records d) g := by
  simp [Propagation.Covered, snapshot, hp]

/-- Nothing becomes less covered, and no filter is set but to something already known or for a
device that has everything. -/
theorem Coverage.mono (h : Coverage s) (htracked : Accounted s) (ha : t.allocated = s.allocated)
    (hscans : ∀ scan ∈ s.scans, ∃ x ∈ t.scans, x.files = scan.files)
    (hh : t.handling = s.handling) (he : t.events = s.events) (hd : t.handled = s.handled)
    (hcovered : ∀ d g, s.Covered d g → t.Covered d g)
    (hbegun : ∀ d, t.Begun d → s.Begun d ∨ ∀ g ∈ s.allocated, t.Covered d g)
    (hmark : ∀ d k, t.Mark d k → s.Mark d k ∨ ∀ g ∈ s.allocated, t.Covered d g)
    (hphase : ∀ d, s.phase d = .indexed → t.phase d = .indexed) : Coverage t := by
  have hdelivered : ∀ g ∈ s.allocated, s.Delivered g → t.Delivered g := by
    intro g hg hs d hb
    rcases hbegun d hb with hb | hc
    · exact hcovered d g (hs d hb)
    · exact hc g hg
  have hbatches : t.batches = s.batches := by simp only [batches, hh, he]
  have hsendingTo : ∀ d, t.sendingTo d = s.sendingTo d := by
    intro d
    simp only [sendingTo, hh]
  constructor
  · rw [ha, hbatches]
    intro g hg
    rcases h.underWay g hg with ⟨scan, hscan, hs⟩ | hb | hs
    · obtain ⟨x, hx, hfiles⟩ := hscans scan hscan
      exact .inl ⟨x, hx, hfiles ▸ hs⟩
    · exact .inr (.inl hb)
    · exact .inr (.inr (hdelivered g hg hs))
  · rw [ha, hbatches]
    exact h.ordered.mono (fun _ => .inl) hdelivered
  · rw [ha]
    intro d k hk g hg hle
    rw [hsendingTo]
    rcases hmark d k hk with hk | hc
    · exact (h.marks d k hk g hg hle).imp_left (hcovered d g)
    · exact .inl (hc g hg)
  · rw [hh]
    intro x hx g hg d hb
    rw [hsendingTo]
    have hmem : g ∈ s.allocated :=
      htracked.published x.files (batches_of_handling hx ▸ mem_cons_self) hg
    rcases hbegun d hb with hb | hc
    · exact (h.current x hx g hg d hb).imp_right fun h => h.imp_left (hcovered d g)
    · exact .inr (.inl (hc g hmem))
  · rw [hh]
    intro x hx y hy
    obtain ⟨hp, hne⟩ := h.sending x hx y hy
    exact ⟨hphase _ hp, hne⟩
  · rw [hd]
    intro g hg
    exact hdelivered g (htracked.handled hg) (h.handled g hg)

/-- A snapshot taken while no scan is storing has every record. -/
theorem carries_generateIndex (sha256 : Bytes → Bytes) (hn : Numbered s) (ht : Accounted s)
    (hscans : ∀ scan ∈ s.scans, scan.unstored = []) (hg : g ∈ s.allocated) :
    Carries (generateIndex sha256 s.db) g := by
  rcases ht.stored g hg with ⟨scan, hscan, hm⟩ | ⟨r, hr, hname, hversion⟩
  · simp [hscans scan hscan] at hm
  · refine Carries.wireFile ⟨r, ?_, hname, hversion⟩
    simpa [generateIndexUpdate] using ⟨hr, (hn.records r hr).1⟩

theorem Coverage.allocate (h : Coverage s)
    (hn : Numbered s) (ht : Accounted s)
    (hfresh : ∀ f ∈ files, s.sequence < f.sequence ∧ f.sequence ≤ sequence) : Coverage { s with
      sequence
      scans := s.scans ++ [⟨files, files⟩]
      allocated := s.allocated ++ files } where
  underWay g hg := by
    rcases mem_append.mp hg with hg | hg
    · refine (h.underWay g hg).imp_left fun ⟨scan, hscan, hs⟩ => ?_
      exact ⟨scan, mem_append_left _ hscan, hs⟩
    · exact .inl ⟨⟨files, files⟩, by simp, hg⟩
  ordered := by
    refine h.ordered.mono (fun g hg => ?_) fun _ _ => id
    rcases mem_append.mp hg with hg | hg
    · exact .inl hg
    · refine .inr fun batch hb f hf => ?_
      exact lt_of_le_of_lt (hn.allocated f (ht.published batch hb hf)).2 (hfresh g hg).1
  marks d k hk g hg hle := by
    rcases mem_append.mp hg with hg | hg
    · exact h.marks d k hk g hg hle
    · exact absurd (lt_of_le_of_lt (hn.marks d k hk) (hfresh g hg).1) (not_lt.mpr hle)
  current := h.current
  sending := h.sending
  handled := h.handled

/-- What is published has only records below its own that are delivered or published before. -/
theorem Coverage.publish (h : Coverage s)
    (hbelow : ∀ g ∈ s.allocated, (∃ scan ∈ s.scans, g ∈ scan.files) → g ∈ files) :
    Coverage { s with scans := l, events := s.publish files } := by
  by_cases hf : files = []
  · subst hf
    refine ⟨fun g hg => ?_, ?_, h.marks, h.current, h.sending, h.handled⟩
    · rcases h.underWay g hg with hs | hb | hs
      · simpa using hbelow g hg hs
      · exact .inr (.inl (by simpa [Propagation.batches, Propagation.publish] using hb))
      · exact .inr (.inr hs)
    · have hbatches : { s with scans := l, events := s.publish [] }.batches = s.batches := by
        simp [Propagation.batches, Propagation.publish]
      exact hbatches ▸ h.ordered
  · refine ⟨fun g hg => ?_, ?_, h.marks, h.current, h.sending, h.handled⟩
    · rw [batches_publish hf]
      rcases h.underWay g hg with ⟨scan, hscan, hs⟩ | ⟨batch, hb, hs⟩ | hs
      · exact .inr (.inl ⟨files, by simp, hbelow g hg ⟨scan, hscan, hs⟩⟩)
      · exact .inr (.inl ⟨batch, mem_append_left _ hb, hs⟩)
      · exact .inr (.inr hs)
    · rw [batches_publish hf]
      refine h.ordered.append fun f _ g hg _ => ?_
      rcases h.underWay g hg with hs | hs | hs
      · exact .inr (.inr (hbelow g hg hs))
      · exact .inr (.inl hs)
      · exact .inl hs

theorem sendingTo_of_handling {x : Handling} (hh : s.handling = some x) :
    s.sendingTo d = (x.sending.filter (·.1 = d)).flatMap (·.2.2) := by
  simp only [sendingTo, hh]

theorem Propagation.Begun.phase_ne (h : s.Begun d) : s.phase d ≠ .waiting := by
  rcases h with ⟨files, hp⟩ | hp <;> simp [hp]

theorem Coverage.takeEvent (h : Coverage s)
    (hsessions : Sessions env s) (hh : s.handling = none) (he : s.events = files :: rest) :
    Coverage { s with events := rest, handling := some ⟨files, s.connected, []⟩ } := by
  have hbatches := batches_takeEvent hh he
  refine ⟨fun g hg => ?_, ?_, fun d k hk g hg hle => ?_, ?_, ?_, h.handled⟩
  · rw [hbatches]
    exact h.underWay g hg
  · rw [hbatches]
    exact h.ordered
  · have hc := h.marks d k hk g hg hle
    simp only [sendingTo, hh, not_carries_nil, or_false] at hc
    exact .inl hc
  · rintro _ ⟨⟩ g _ d hb
    exact .inl ⟨hsessions.connected d hb.phase_ne, by simp⟩
  · rintro _ ⟨⟩
    simp

/-- The chunks for a device hold what it has not been sent. -/
theorem Coverage.chunks
    (h : Coverage s) (hsessions : Sessions env s) (ht : Accounted s)
    (hg : PropagationGuard s (.device d))
    (hh : s.handling = some ⟨files, d :: devices, []⟩) (hm : g ∈ files) (hb : s.Begun d) :
    s.Covered d g ∨
      Carries ((env.chunksFor (s.sharedFolders d) (s.indexedFolders d) files).flatMap (·.2)) g := by
  -- the initial index is sent and logged, so there is a filter
  have hp : s.phase d = .indexed := by
    rcases hb with ⟨files, hp⟩ | hp
    · exact absurd hp (hg.1 files)
    · exact hp
  obtain ⟨remote, k, hremote, hr, hk⟩ : ∃ remote k, s.sharedFolders d = some remote ∧
      env.folder ∈ remote ∧ s.indexedFolders d = some k := by
    have hpending := hg.2
    unfold Propagation.IndexSentPending at hpending
    cases hsessions.logged d with
    | settled k _ _ hk hi =>
      obtain ⟨remote, hremote, hr⟩ := hk
      exact ⟨remote, k, hremote, hr, hi⟩
    | sentTold _ n k _ hl _ | sentKnown n k _ hl _ => exact absurd ⟨n, k, by simp [hl]⟩ hpending
    | _ => simp_all
  have hmem : g ∈ s.allocated := ht.published files (by simp [batches_of_handling hh]) hm
  rw [hremote, hk, flatMap_chunksFor hr]
  by_cases hlt : k < g.sequence
  · exact .inr ⟨_, mem_filesToSend.mpr ⟨g, hm, hlt, rfl⟩, by simp, by simp⟩
  · have hc := h.marks d k (.inl hk) g hmem (not_lt.mp hlt)
    rw [sendingTo_of_handling hh] at hc
    simpa using .inl (hc.resolve_right (by simp))

theorem Coverage.device (h : Coverage s)
    (hsessions : Sessions env s) (ht : Accounted s) (hg : PropagationGuard s (.device d))
    (hh : s.handling = some ⟨files, d :: devices, []⟩) :
    Coverage { s with handling := some ⟨files, devices,
      (env.chunksFor (s.sharedFolders d) (s.indexedFolders d) files).map (d, ·)⟩ } := by
  have hbatches := batches_of_handling hh
  have hnone : ∀ x g, ¬ Carries (s.sendingTo x) g := by
    intro x g
    simp [sendingTo_of_handling hh]
  refine ⟨fun g hm => ?_, ?_, fun x k hk g hm hle => ?_, ?_, ?_, h.handled⟩
  · have hu := h.underWay g hm
    rwa [hbatches] at hu
  · have ho := h.ordered
    rwa [hbatches] at ho
  · exact .inl ((h.marks x k hk g hm hle).resolve_right (hnone x g))
  · rintro _ ⟨⟩ g hm x hb
    by_cases hx : x = d
    · subst hx
      refine .inr ((h.chunks hsessions ht hg hh hm hb).imp_right fun hc => ?_)
      simpa [sendingTo, filter_map, flatMap_map, comp_def] using hc
    · rcases h.current _ hh g hm x hb with ⟨hd, -⟩ | hc | hc
      · refine .inl ⟨(mem_cons.mp hd).resolve_left hx, fun y hy => ?_⟩
        obtain ⟨c, -, rfl⟩ := mem_map.mp hy
        exact Ne.symm hx
      · exact .inr (.inl hc)
      · exact absurd hc (hnone x g)
  · rintro _ ⟨⟩ y hy
    obtain ⟨c, hc, rfl⟩ := mem_map.mp hy
    obtain ⟨prev, hprev, hne, hsub⟩ := of_mem_chunksFor hc
    refine ⟨hsessions.indexed d prev hprev, hne, fun w hw => ?_⟩
    obtain ⟨f, hf, -, rfl⟩ := mem_filesToSend.mp (hsub hw)
    exact ⟨f, hf, by simp⟩

section chunk
variable {files chunk : List FileInfo} {devices : List DeviceId} {prev : UInt64}
  {rest : List (DeviceId × UInt64 × List FileInfo)} {x : DeviceId} {g : FileInfo}

/-- The state after the loop has sent a chunk. -/
def afterChunk (env : DispatchEnv) (s : Propagation) (files : List FileInfo)
    (devices : List DeviceId) (d : DeviceId) (prev : UInt64) (chunk : List FileInfo)
    (rest : List (DeviceId × UInt64 × List FileInfo)) : Propagation :=
  (({ s with handling := some ⟨files, devices, rest⟩ }).enqueue d
    (.indexUpdate (env.indexUpdate prev chunk))).setIndexed d (highestSequence prev chunk)

theorem records_afterChunk (x : DeviceId) :
    (afterChunk env s files devices d prev chunk rest).records x =
      s.records x ++ if x = d then chunk else [] := by
  by_cases hx : x = d
  · subst hx
    simp [afterChunk, setIndexed, enqueue, records, IndexMessage.files, DispatchEnv.indexUpdate]
  · simp [afterChunk, setIndexed, enqueue, records, hx]

theorem covered_afterChunk (hc : s.Covered x g) :
    (afterChunk env s files devices d prev chunk rest).Covered x g := by
  refine Carries.mono hc ?_
  rw [records_afterChunk]
  intro f hf
  rcases mem_append.mp hf with hf | hf
  · exact mem_append_left _ (mem_append_left _ hf)
  · exact mem_append_right _ hf

/-- A chunk that leaves the list of what is left has been sent. -/
theorem covered_or_sending_afterChunk
    (hh : s.handling = some ⟨files, devices, (d, prev, chunk) :: rest⟩)
    (h : s.Covered x g ∨ Carries (s.sendingTo x) g) :
    (afterChunk env s files devices d prev chunk rest).Covered x g ∨
      Carries ((afterChunk env s files devices d prev chunk rest).sendingTo x) g := by
  rcases h with h | ⟨w, hw, hwg⟩
  · exact .inl (covered_afterChunk h)
  · rw [sendingTo_of_handling hh, filter_cons] at hw
    split at hw
    next hd =>
      rw [flatMap_cons, mem_append] at hw
      rcases hw with hw | hw
      · refine .inl ⟨w, mem_append_left _ ?_, hwg⟩
        rw [records_afterChunk, if_pos (by simpa [eq_comm] using hd)]
        exact mem_append_right _ hw
      · exact .inr ⟨w, hw, hwg⟩
    · exact .inr ⟨w, hw, hwg⟩

theorem Coverage.sendChunk (h : Coverage s)
    (hh : s.handling = some ⟨files, devices, (d, prev, chunk) :: rest⟩) :
    Coverage (afterChunk env s files devices d prev chunk rest) := by
  obtain ⟨hp, hne, hsequence⟩ := h.sending _ hh (d, prev, chunk) mem_cons_self
  have hbatches := batches_of_handling hh
  have hdelivered : ∀ g, s.Delivered g →
      (afterChunk env s files devices d prev chunk rest).Delivered g :=
    fun g hg x hb => covered_afterChunk (hg x hb)
  refine ⟨fun g hg => ?_, ?_, fun x k hk g hg hle => ?_, ?_, ?_, ?_⟩
  · have hu := hbatches ▸ h.underWay g hg
    exact hu.imp_right fun hu => hu.imp_right (hdelivered g)
  · have ho := hbatches ▸ h.ordered
    exact ho.mono (fun _ => .inl) fun g _ => hdelivered g
  · refine covered_or_sending_afterChunk hh ?_
    by_cases hold : s.Mark x k
    · exact h.marks x k hold g hg hle
    · -- the filter has been raised to a record of this very event
      obtain ⟨rfl, rfl⟩ : x = d ∧ k = highestSequence prev chunk := by
        by_cases hx : x = d
        · subst hx
          rcases hk with hk | hk
          · exact ⟨rfl, by simpa [afterChunk, setIndexed, eq_comm] using hk⟩
          · exact absurd (.inr hk) hold
        · have hi : (afterChunk env s files devices d prev chunk rest).indexedFolders x =
              s.indexedFolders x := by
            simp [afterChunk, setIndexed, enqueue, hx]
          exact absurd (Propagation.Mark.congr (s := s) hk rfl rfl hi) hold
      obtain ⟨w, hw, hlast⟩ := highestSequence_mem prev hne
      obtain ⟨f, hf, hfw⟩ := hsequence w hw
      have ho := hbatches ▸ h.ordered
      rcases ho.1 f hf g hg (by rwa [hfw, hlast]) with hg | hg
      · exact .inl (hg x (.inr hp))
      · rcases h.current _ hh g hg x (.inr hp) with ⟨-, hother⟩ | hc
        · exact absurd rfl (hother (x, prev, chunk) mem_cons_self)
        · exact hc
  · rintro _ ⟨⟩ g hg x hb
    rcases h.current _ hh g hg x hb with ⟨hx, hother⟩ | hc
    · exact .inl ⟨hx, fun y hy => hother y (mem_cons_of_mem _ hy)⟩
    · exact .inr (covered_or_sending_afterChunk hh hc)
  · rintro _ ⟨⟩ y hy
    exact h.sending _ hh y (mem_cons_of_mem _ hy)
  · intro g hg
    exact hdelivered g (h.handled g hg)

end chunk

/-- An event the loop is done with has been delivered. -/
theorem Coverage.finish (h : Coverage s)
    (hh : s.handling = some ⟨files, [], []⟩) :
    Coverage { s with handling := none, handled := s.handled ++ files } := by
  have hnone : ∀ x g, ¬ Carries (s.sendingTo x) g := by
    intro x g
    simp [sendingTo_of_handling hh]
  have hdelivered : ∀ g ∈ files, s.Delivered g := by
    intro g hg x hb
    rcases h.current _ hh g hg x hb with ⟨hd, -⟩ | hc | hc
    · simp at hd
    · exact hc
    · exact absurd hc (hnone x g)
  have hbatches := batches_of_handling hh
  refine ⟨fun g hg => ?_, ?_, fun x k hk g hg hle => ?_, by simp, by simp, fun g hg => ?_⟩
  · rcases h.underWay g hg with hs | ⟨batch, hb, hs⟩ | hs
    · exact .inl hs
    · rw [hbatches] at hb
      rcases mem_cons.mp hb with rfl | hb
      · exact .inr (.inr (hdelivered g hs))
      · exact .inr (.inl ⟨batch, hb, hs⟩)
    · exact .inr (.inr hs)
  · have ho := hbatches ▸ h.ordered
    exact ho.tail hdelivered
  · exact .inl ((h.marks x k hk g hg hle).resolve_right (hnone x g))
  · rcases mem_append.mp hg with hg | hg
    · exact h.handled g hg
    · exact hdelivered g hg

/-- Everything that holds of the states of a guarded run. -/
structure Lossless (env : DispatchEnv) (s : Propagation) : Prop where
  numbered : Numbered s
  accounted : Accounted s
  sessions : Sessions env s
  coverage : Coverage s

section
variable (hs : PropagationStep env s e t)
include hs

/-- A filter is set anew by a snapshot or by a chunk. -/
theorem mark_step (hk : t.Mark d k) : s.Mark d k ∨
      (e = .generateIndex d ∧ k = highestSequence 0 (generateIndex env.sha256 s.db)) ∨
      (e = .chunk d ∧ ∃ files devices prev chunk rest,
        s.handling = some ⟨files, devices, (d, prev, chunk) :: rest⟩ ∧
        k = highestSequence prev chunk) := by
  by_cases hd : e.session? = some d
  swap
  · have hsame := sameDevice_step hs hd
    exact .inl (hk.congr hsame.phase hsame.logger hsame.indexed)
  cases hs with
  | allocate | store | publish | storeRemote | republish | connect | takeEvent | device | finish =>
    cases hd
  | clusterConfig _ hp =>
    cases hd
    refine .inl ?_
    rcases hk with hk | ⟨n, hk⟩ | ⟨files, hk, -⟩
    · exact .inl hk
    · exact .inr (.inl ⟨n, by simpa [emit, setPhase] using hk⟩)
    · simp only [emit, setPhase, update_self] at hk
      split at hk <;> cases hk
  | generateIndex hp =>
    cases hd
    rcases hk with hk | hk | ⟨files, hk, rfl⟩
    · exact .inl (.inl hk)
    · exact .inl (.inr (.inl hk))
    · simp only [setPhase, update_self, SessionPhase.generated.injEq] at hk
      exact .inr (.inl ⟨rfl, by rw [hk]⟩)
  | @sendIndex _ files hp =>
    cases hd
    refine .inl ?_
    rcases hk with hk | ⟨n, hk⟩ | ⟨files, hk, -⟩
    · exact .inl hk
    · simp only [emit, enqueue, setPhase, update_self, mem_append, mem_singleton,
        SessionEvent.indexSent.injEq] at hk
      rcases hk with hk | ⟨-, rfl⟩
      · exact .inr (.inl ⟨n, hk⟩)
      · exact .inr (.inr ⟨files, hp, rfl⟩)
    · simp [emit, enqueue, setPhase] at hk
  | @log _ event rest hl =>
    cases hd
    have hrest : ∀ n, .indexSent n k ∈ rest → s.Mark d k := fun n hm =>
      .inr (.inl ⟨n, hl ▸ mem_cons_of_mem _ hm⟩)
    refine .inl ?_
    cases event with
    | clusterConfigComplete folders =>
      rcases hk with hk | ⟨n, hk⟩ | hk
      · exact .inl hk
      · exact hrest n (by simpa [Propagation.log] using hk)
      · exact .inr (.inr hk)
    | indexSent n last =>
      rcases hk with hk | ⟨n, hk⟩ | hk
      · obtain rfl : last = k := by simpa [Propagation.log, Propagation.setIndexed] using hk
        exact .inr (.inl ⟨n, hl ▸ List.mem_cons_self⟩)
      · exact hrest n (by simpa [Propagation.log, Propagation.setIndexed] using hk)
      · exact .inr (.inr hk)
  | @chunk files devices _ prev chunk rest hh =>
    cases hd
    rcases hk with hk | hk
    · refine .inr (.inr ⟨rfl, files, devices, prev, chunk, rest, hh, ?_⟩)
      simpa [setIndexed, eq_comm] using hk
    · exact .inl (.inr hk)

theorem Numbered.step (hg : PropagationGuard s e) (h : Lossless env s) : Numbered t := by
  obtain ⟨hn, ht, hsessions, hc⟩ := h
  have hmarks : ∀ d k, t.Mark d k → k ≤ s.sequence := by
    intro d k hk
    rcases mark_step hs hk with hk | ⟨-, rfl⟩ | ⟨-, files, devices, prev, chunk, rest, hh, rfl⟩
    · exact hn.marks d k hk
    · refine highestSequence_le (fun f hf => ?_) UInt64.zero_le
      obtain ⟨r, hr, rfl⟩ := mem_map.mp hf
      simpa using (hn.records r (mem_filter.mp hr).1).2
    · obtain ⟨-, hne, hsequence⟩ := hc.sending _ hh _ mem_cons_self
      obtain ⟨w, hw, hlast⟩ := highestSequence_mem prev hne
      obtain ⟨f, hf, hfw⟩ := hsequence w hw
      rw [← hlast, ← hfw]
      exact (hn.allocated f (ht.published files (by simp [batches_of_handling hh]) hf)).2
  cases hs with
  | allocate hmono hfresh =>
    refine ⟨fun f hf => ?_, fun f hf => ?_, fun d k hk => (hmarks d k hk).trans hmono⟩
    · obtain ⟨hlow, hhigh⟩ := hn.records f hf
      exact ⟨hlow, hhigh.trans hmono⟩
    · rcases mem_append.mp hf with hf | hf
      · obtain ⟨hlow, hhigh⟩ := hn.allocated f hf
        exact ⟨hlow, hhigh.trans hmono⟩
      · obtain ⟨hlow, hhigh⟩ := hfresh f hf
        exact ⟨lt_of_le_of_lt UInt64.zero_le hlow, hhigh⟩
  | @store before scan later file rest hscans hu =>
    refine ⟨fun f hf => ?_, hn.allocated, hmarks⟩
    rcases mem_upsert.mp hf with rfl | ⟨hf, -⟩
    · obtain ⟨hfiles, hsub⟩ := ht.scanned scan (by simp [hscans])
      exact hn.allocated f (hfiles (hsub (hu ▸ mem_cons_self)))
    · exact hn.records f hf
  | storeRemote =>
    refine ⟨fun f hf => ?_, hn.allocated, hmarks⟩
    rcases mem_upsert.mp hf with rfl | ⟨hf, -⟩
    · exact ⟨hg.1, hg.2.1⟩
    · exact hn.records f hf
  | publish | republish | connect | clusterConfig | generateIndex | sendIndex | takeEvent
  | device | chunk | finish => exact ⟨hn.records, hn.allocated, hmarks⟩
  | @log d event rest hl =>
    cases event <;> exact ⟨hn.records, hn.allocated, hmarks⟩

/-- No step takes back what a device was sent or will be. -/
theorem covered_step (hc : s.Covered d g) : t.Covered d g := by
  by_cases hd : e.session? = some d
  swap
  · exact (sameDevice_step hs hd).covered.mpr hc
  cases hs with
  | allocate | store | publish | storeRemote | republish | connect | takeEvent | device | finish =>
    cases hd
  | @log x event rest hl => cases event <;> exact hc
  | clusterConfig _ hp | generateIndex hp =>
    cases hd
    refine Carries.mono hc ?_
    simp [records, snapshot, hp, emit, setPhase]
  | sendIndex hp =>
    cases hd
    refine Carries.mono hc ?_
    simp [records, snapshot, hp, emit, enqueue, setPhase, IndexMessage.files]
  | chunk => exact covered_afterChunk hc

theorem begun_step (hb : t.Begun d) : s.Begun d ∨ e = .generateIndex d := by
  by_cases hd : e.session? = some d
  swap
  · exact .inl ((sameDevice_step hs hd).begun.mp hb)
  cases hs with
  | allocate | store | publish | storeRemote | republish | connect | takeEvent | device | chunk
  | finish => exact .inl hb
  | @log x event rest hl => cases event <;> exact .inl hb
  | clusterConfig =>
    cases hd
    simp only [Propagation.Begun, emit, setPhase, update_self] at hb
    split at hb <;> simp at hb
  | generateIndex =>
    cases hd
    exact .inr rfl
  | @sendIndex _ files hp =>
    cases hd
    exact .inl (.inl ⟨files, hp⟩)

theorem indexed_step (hp : s.phase d = .indexed) : t.phase d = .indexed := by
  by_cases hd : e.session? = some d
  swap
  · exact (sameDevice_step hs hd).phase.trans hp
  cases hs with
  | allocate | store | publish | storeRemote | republish | connect | takeEvent | device | chunk
  | finish => exact hp
  | @log x event rest hl => cases event <;> exact hp
  | clusterConfig _ hx | generateIndex hx | sendIndex hx =>
    cases hd
    simp [hp] at hx

end

/-- A snapshot covers everything. -/
theorem covered_of_generateIndex (hs : PropagationStep env s (.generateIndex d) t)
    (hg : PropagationGuard s (.generateIndex d)) (h : Lossless env s) (hm : g ∈ s.allocated) :
    t.Covered d g := by
  cases hs with
  | generateIndex hp =>
    refine (carries_generateIndex env.sha256 h.numbered h.accounted hg hm).mono ?_
    simp [snapshot, setPhase]

theorem Coverage.step (hs : PropagationStep env s e t) (hg : PropagationGuard s e)
    (h : Lossless env s) : Coverage t := by
  obtain ⟨hn, ht, hsessions, hc⟩ := id h
  have hbegun : ∀ d, t.Begun d → s.Begun d ∨ ∀ g ∈ s.allocated, t.Covered d g := by
    intro d hb
    rcases begun_step hs hb with hb | rfl
    · exact .inl hb
    · exact .inr fun g hm => covered_of_generateIndex hs hg h hm
  have hmark : ∀ d k, e ≠ .chunk d → t.Mark d k →
      s.Mark d k ∨ ∀ g ∈ s.allocated, t.Covered d g := by
    intro d k hne hk
    rcases mark_step hs hk with hk | ⟨rfl, -⟩ | ⟨rfl, -⟩
    · exact .inl hk
    · exact .inr fun g hm => covered_of_generateIndex hs hg h hm
    · exact absurd rfl hne
  have hcovered : ∀ d g, s.Covered d g → t.Covered d g := fun d g => covered_step hs
  have hindexed : ∀ d, s.phase d = .indexed → t.phase d = .indexed := fun d => indexed_step hs
  cases hs with
  | allocate hmono hfresh => exact hc.allocate hn ht hfresh
  | @publish before scan later hscans hu =>
    refine hc.publish fun g _ ⟨x, hx, hgx⟩ => ?_
    have hsingle := ht.single
    rw [hscans] at hsingle hx
    simp only [length_append, length_cons] at hsingle
    obtain rfl : before = [] := length_eq_zero_iff.mp (by omega)
    obtain rfl : later = [] := length_eq_zero_iff.mp (by omega)
    obtain rfl : x = scan := by simpa using hx
    exact hgx
  | republish =>
    refine hc.publish (l := s.scans) fun g _ ⟨x, hx, _⟩ => ?_
    simp [hg.1] at hx
  | takeEvent hh he => exact hc.takeEvent hsessions hh he
  | device hh => exact hc.device hsessions ht hg hh
  | chunk hh => exact hc.sendChunk hh
  | finish hh => exact hc.finish hh
  | @store before scan later file rest hscans hu =>
    refine hc.mono ht rfl (fun x hx => ?_) rfl rfl rfl hcovered hbegun
      (fun d k => hmark d k (by simp)) hindexed
    rw [hscans, mem_append, mem_cons] at hx
    rcases hx with hx | rfl | hx
    · exact ⟨x, by simp [hx], rfl⟩
    · exact ⟨{ x with unstored := rest }, by simp, rfl⟩
    · exact ⟨x, by simp [hx], rfl⟩
  | storeRemote | connect | clusterConfig | generateIndex | sendIndex =>
    exact hc.mono ht rfl (fun x hx => ⟨x, hx, rfl⟩) rfl rfl rfl hcovered hbegun
      (fun d k => hmark d k (by simp)) hindexed
  | @log x event rest hl =>
    cases event <;>
      exact hc.mono ht rfl (fun x hx => ⟨x, hx, rfl⟩) rfl rfl rfl hcovered hbegun
        (fun d k => hmark d k (by simp)) hindexed

theorem Lossless.step (hg : PropagationGuard s e) (hs : PropagationStep env s e t)
    (h : Lossless env s) : Lossless env t where
  numbered := .step hs hg h
  accounted := .step hs hg h.accounted
  sessions := .step hs h.sessions fun x hx y hy => (h.coverage.sending x hx y hy).1
  coverage := .step hs hg h

theorem Lossless.start {db : FolderFiles}
    (h : ∀ f ∈ db.entries, 0 < f.sequence ∧ f.sequence ≤ sequence) :
    Lossless env (.start db sequence) where
  numbered := ⟨h, h, by simp [Propagation.Mark, Propagation.start]⟩
  accounted := ⟨by simp [Propagation.start], by simp [Propagation.start],
    by simp [Propagation.batches, Propagation.start], by simp [Propagation.start],
    fun f hf => .inr (.of_mem hf)⟩
  sessions := ⟨by simp [Propagation.start], fun d => .waiting rfl rfl, by simp [Propagation.start]⟩
  coverage := ⟨fun g _ => .inr (.inr (by
      simp [Propagation.Delivered, Propagation.Begun, Propagation.start])), trivial,
    by simp [Propagation.Mark, Propagation.start], by simp [Propagation.start],
    by simp [Propagation.start], by simp [Propagation.start]⟩

/-- In a run that keeps the sequence numbers in order, every record of an event that the loop is
done with has been sent to each device that has been sent its initial `Index`; and the records
that the filter for the next device holds back have been sent to it. -/
theorem no_local_change_lost {db : FolderFiles} {sequence : UInt64}
    (h0 : ∀ f ∈ db.entries, 0 < f.sequence ∧ f.sequence ≤ sequence)
    (hrun : Reach (PropagationStep env) PropagationGuard (.start db sequence) s) :
    (∀ f ∈ s.handled, ∀ d, s.phase d = .indexed → Carries (s.records d) f) ∧
      ∀ files d devices k, s.handling = some ⟨files, d :: devices, []⟩ →
        s.indexedFolders d = some k → ∀ f ∈ files, f.sequence ≤ k → Carries (s.records d) f := by
  have h : Lossless env s := hrun.invariant (Lossless.start h0) Lossless.step
  refine ⟨fun f hf d hp => ?_, fun files d devices k hh hk f hf hle => ?_⟩
  · exact (covered_iff_of_indexed hp).mp (h.coverage.handled f hf d (.inr hp))
  · have hmem : f ∈ s.allocated := h.accounted.published files (by simp [batches_of_handling hh]) hf
    rcases h.coverage.marks d k (.inl hk) f hmem hle with hc | hc
    · exact (covered_iff_of_indexed (h.sessions.indexed d k hk)).mp hc
    · simp [sendingTo_of_handling hh] at hc

end

/-- A peer that shares the folder. -/
def peerDevice : DeviceId := ⟨[1]⟩

def pairEnv : DispatchEnv where
  localDeviceId := none
  folders := [⟨"photos", none, [peerDevice]⟩]
  folder := "photos"
  sha256 := id
  encodedLen := fun _ => 0

/-- A file found by the first scan. -/
def scannedFile : FileInfo := { FileInfo.new "a" with sequence := 1 }

/-- A record that comes with the sequence number of another device. -/
def foreignFile : FileInfo := { FileInfo.new "b" with sequence := 100 }

/-- The first scan after the initial `Index`: what it found is sent. -/
theorem no_local_change_lost_scanned : ∃ s : Propagation,
    Reach (PropagationStep pairEnv) PropagationGuard (.start .empty 0) s ∧
      scannedFile ∈ s.handled ∧ Carries (s.records peerDevice) scannedFile := by
  have hrun : Reach (PropagationStep pairEnv) PropagationGuard _ (.start .empty 0) := .refl
  have hrun := hrun.next (.connect (d := peerDevice)) trivial
    |>.next (@clusterConfig _ _ peerDevice ["photos"] (by simp) rfl) trivial
    |>.next (.generateIndex (d := peerDevice) rfl) (by rintro _ ⟨⟩)
    |>.next (.sendIndex (d := peerDevice) rfl) trivial
    |>.next (.log (d := peerDevice) rfl) trivial |>.next (.log (d := peerDevice) rfl) trivial
    |>.next (@allocate _ _ [scannedFile] 1 (by decide) (by decide)) rfl
    |>.next (@store _ _ [] _ [] _ _ rfl rfl) (by rintro _ ⟨⟩)
    |>.next (@publish _ _ [] _ [] rfl rfl) trivial |>.next (.takeEvent rfl rfl) trivial
    |>.next (.device rfl) ⟨by rintro _ ⟨⟩, by rintro ⟨_, _, ⟨⟩⟩⟩
    |>.next (.chunk rfl) trivial |>.next (.finish rfl) trivial
  have hmem : scannedFile ∈ [] ++ [scannedFile] := by simp
  exact ⟨_, hrun, hmem, (no_local_change_lost (by rintro _ ⟨⟩) hrun).1 _ hmem peerDevice rfl⟩

/-- A record stored with a peer's sequence number raises the filter past the local counter: what
the next scan finds is never sent. The same happens to a scan that stores and publishes while
the initial `Index` is on its way. -/
theorem local_change_lost : (∃ s : Propagation,
      Reach (PropagationStep pairEnv) (fun _ _ => True) (.start .empty 0) s ∧
      s.connected = [peerDevice] ∧ s.phase peerDevice = .indexed ∧ s.events = [] ∧
      s.handling = none ∧ s.handled = [scannedFile] ∧ s.indexedFolders peerDevice = some 100 ∧
      ¬ Carries (s.records peerDevice) scannedFile) ∧
    ∃ s : Propagation, Reach (PropagationStep pairEnv) (fun _ _ => True) (.start .empty 0) s ∧
      s.connected = [peerDevice] ∧ s.phase peerDevice = .indexed ∧ s.events = [] ∧
      s.handling = none ∧ s.handled = [scannedFile] ∧
      ¬ Carries (s.records peerDevice) scannedFile := by
  have hstart : Reach (PropagationStep pairEnv) (fun _ _ => True) (.start .empty 0)
    (.start .empty 0) := .refl
  constructor
  · have hrun := hstart.go (@storeRemote _ _ foreignFile) |>.go (.connect (d := peerDevice))
      |>.go (@clusterConfig _ _ peerDevice ["photos"] (by simp) rfl)
      |>.go (.generateIndex (d := peerDevice) rfl) |>.go (.sendIndex (d := peerDevice) rfl)
      |>.go (.log (d := peerDevice) rfl) |>.go (.log (d := peerDevice) rfl)
      |>.go (@allocate _ _ [scannedFile] 1 (by decide) (by decide))
      |>.go (@store _ _ [] _ [] _ _ rfl rfl) |>.go (@publish _ _ [] _ [] rfl rfl)
      |>.go (.takeEvent rfl rfl) |>.go (.device rfl) |>.go (.finish rfl)
    refine ⟨_, hrun, rfl, rfl, rfl, rfl, rfl, rfl, ?_⟩
    rintro ⟨g, hg, hname, -⟩
    rw [mem_singleton.mp hg] at hname
    revert hname
    decide
  · have hrun := hstart.go (.connect (d := peerDevice))
      |>.go (@clusterConfig _ _ peerDevice ["photos"] (by simp) rfl)
      |>.go (.generateIndex (d := peerDevice) rfl)
      |>.go (@allocate _ _ [scannedFile] 1 (by decide) (by decide))
      |>.go (@store _ _ [] _ [] _ _ rfl rfl) |>.go (@publish _ _ [] _ [] rfl rfl)
      |>.go (.takeEvent rfl rfl) |>.go (.device rfl) |>.go (.finish rfl)
      |>.go (.sendIndex (d := peerDevice) rfl) |>.go (.log (d := peerDevice) rfl)
    refine ⟨_, hrun, rfl, rfl, rfl, rfl, rfl, ?_⟩
    rintro ⟨g, hg, -⟩
    cases hg

end Syncthing
