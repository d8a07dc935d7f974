import Syncthing.Daemon.Session
import Syncthing.Sync.RecordedVersions

/-! A `ClusterConfig` names only the folders that list the device. The handlers of blocks and
indexes look a folder up by its name alone. -/
namespace Syncthing

open List Daemon KeyedList Session

variable {env : SessionEnv} {device : DeviceId} {a b : Daemon} {s t : Session} {m : Message}
  {f : ServedFolder} {folder : String} {full : Bool} {files : List FileInfo} {message : Message}
  {resp : Response}

/-- The folders that list a device, with all that is kept for them. -/
def Daemon.sharedWith (a : Daemon) (device : DeviceId) : List ServedFolder :=
  a.folders.entries.filter (·.config.devices.contains device)

/-- Two daemons that differ only in folders not shared with a device. -/
structure SameFor (device : DeviceId) (a b : Daemon) : Prop where
  localDeviceId : a.localDeviceId = b.localDeviceId
  shared : a.sharedWith device = b.sharedWith device

/-- The folder that the handling of a message looks up. -/
def Message.folder? : Message → Option String
  | .index i => some i.folder
  | .indexUpdate u => some u.folder
  | .request r => some r.folder
  | _ => none

/-- A message that names no configured folder but those that list the device. -/
def Permitted (a : Daemon) (device : DeviceId) (m : Message) : Prop :=
  ∀ f ∈ a.folders.entries, m.folder? = some f.config.id → device ∈ f.config.devices

theorem mem_sharedWith :
    f ∈ a.sharedWith device ↔ f ∈ a.folders.entries ∧ device ∈ f.config.devices := by
  simp [sharedWith]

theorem SameFor.symm (h : SameFor device a b) : SameFor device b a :=
  ⟨h.localDeviceId.symm, h.shared.symm⟩

/-- A shared folder is found in both. -/
theorem SameFor.find?_of_mem (h : SameFor device a b) (hf : f ∈ a.sharedWith device) :
    b.folders.find? f.config.id = some f := by
  rw [h.shared] at hf
  exact find?_key (mem_sharedWith.mp hf).1

theorem Permitted.mem_sharedWith (h : Permitted a device m) (hm : m.folder? = some folder)
    (hf : a.folders.find? folder = some f) : f ∈ a.sharedWith device := by
  obtain ⟨hmem, hid⟩ := find?_eq_some_iff.mp hf
  exact Syncthing.mem_sharedWith.mpr ⟨hmem, h f hmem (hid.symm ▸ hm)⟩

/-- Looking up the folder of a permitted message gives the same in both. -/
theorem SameFor.find?_eq (h : SameFor device a b) (ha : Permitted a device m)
    (hb : Permitted b device m) (hm : m.folder? = some folder) :
    a.folders.find? folder = b.folders.find? folder := by
  cases hfa : a.folders.find? folder with
  | some f =>
    obtain ⟨-, hid⟩ := find?_eq_some_iff.mp hfa
    rw [← hid]
    exact (h.find?_of_mem (ha.mem_sharedWith hm hfa)).symm
  | none =>
    cases hfb : b.folders.find? folder with
    | none => rfl
    | some f =>
      obtain ⟨-, hid⟩ := find?_eq_some_iff.mp hfb
      have := h.symm.find?_of_mem (hb.mem_sharedWith hm hfb)
      rw [hid, hfa] at this
      cases this

theorem SameFor.clusterConfig (h : SameFor device a b) :
    a.clusterConfig device = b.clusterConfig device := by
  have hconfigs : ∀ c : Daemon, (c.folders.entries.map (·.config)).filter
      (fun f => f.devices.contains device) = (c.sharedWith device).map (·.config) := by
    intro c
    rw [filter_map]
    rfl
  simp only [Daemon.clusterConfig, generateClusterConfig, hconfigs, h.shared, h.localDeviceId]

/-- A folder is written in place. -/
theorem sharedWith_upsert (g : ServedFolder) (hf : f ∈ a.sharedWith device)
    (hconfig : g.config = f.config) : { a with folders := a.folders.upsert g }.sharedWith device =
      upsertList (fun f : ServedFolder => f.config.id) (a.sharedWith device) g := by
  obtain ⟨hmem, hdevice⟩ := mem_sharedWith.mp hf
  refine filter_upsertList (by simpa [hconfig] using hdevice) fun x hx hid => ?_
  have hxf : x = f := a.folders.eq_of_key_eq hx hmem (by rw [hid, hconfig])
  simpa [hxf] using hdevice

theorem SameFor.handleIndex (h : SameFor device a b)
    (ha : Permitted a device m) (hb : Permitted b device m) (hm : m.folder? = some folder) :
    SameFor device (a.handleIndex env full folder files) (b.handleIndex env full folder files) := by
  have heq := h.find?_eq ha hb hm
  unfold Daemon.handleIndex
  rw [← heq]
  cases hf : a.folders.find? folder with
  | none => exact h
  | some f =>
    have hfa := ha.mem_sharedWith hm hf
    refine ⟨h.localDeviceId, ?_⟩
    have hfb : f ∈ b.sharedWith device := h.shared ▸ hfa
    let g : ServedFolder := { f with model := f.model.indexMessage (env.indexEnv folder) full files }
    exact (sharedWith_upsert g hfa rfl).trans (h.shared ▸ (sharedWith_upsert g hfb rfl).symm)

/-- Handling an index changes no configuration. -/
theorem exists_config_eq (hf : f ∈ (a.handleIndex env full folder files).folders.entries) :
    ∃ g ∈ a.folders.entries, g.config = f.config := by
  unfold handleIndex at hf
  cases hfind : a.folders.find? folder with
  | none =>
    rw [hfind] at hf
    exact ⟨f, hf, rfl⟩
  | some g =>
    rw [hfind] at hf
    rcases mem_upsert.mp hf with rfl | ⟨hf, -⟩
    · exact ⟨g, (find?_eq_some_iff.mp hfind).1, rfl⟩
    · exact ⟨f, hf, rfl⟩

theorem mem_handleIndex_of_not_shared
    (ha : Permitted a device m) (hm : m.folder? = some folder) (hf : f ∈ a.folders.entries)
    (hdevice : device ∉ f.config.devices) :
    f ∈ (a.handleIndex env full folder files).folders.entries := by
  unfold handleIndex
  cases hfind : a.folders.find? folder with
  | none => exact hf
  | some g =>
    refine mem_upsert.mpr (.inr ⟨hf, fun hid => ?_⟩)
    have hg := ha.mem_sharedWith hm hfind
    have hfg : f = g := a.folders.eq_of_key_eq hf (mem_sharedWith.mp hg).1 hid
    exact hdevice (hfg ▸ (mem_sharedWith.mp hg).2)

/-- Only a request for a configured folder is answered with data. -/
theorem exists_of_noError {req : Request}
    (h : resp = responseTo req (a.handleBlockRequest env req)) (hcode : resp.code = .noError) :
    ∃ f ∈ a.folders.entries, f.config.id = req.folder := by
  subst h
  unfold handleBlockRequest at hcode
  cases hf : a.folders.find? req.folder with
  | none =>
    rw [hf] at hcode
    cases hcode
  | some f => exact ⟨f, find?_eq_some_iff.mp hf⟩

/-- Two sessions with a device that differ only in what is not shared with it. -/
structure SameSession (device : DeviceId) (s t : Session) : Prop where
  stage : s.stage = t.stage
  daemon : SameFor device s.daemon t.daemon
  announced : ∀ ids, s.stage = .awaiting ids → ∀ id ∈ ids,
    ∃ f ∈ s.daemon.sharedWith device, f.config.id = id

section
variable (h : SameFor device a b)
include h

theorem sameSession_start : SameSession device (start a device).1 (start b device).1 where
  stage := by simp only [start, h.clusterConfig]
  daemon := h
  announced := by
    rintro _ ⟨⟩ id hid
    simp only [clusterConfig, generateClusterConfig, map_map, mem_map, mem_filter] at hid
    obtain ⟨_, ⟨⟨f, hf, rfl⟩, hdevice⟩, rfl⟩ := hid
    exact ⟨f, mem_sharedWith.mpr ⟨hf, by simpa using hdevice⟩, rfl⟩

theorem SameSession.steady : SameSession device ⟨.steady, a⟩ ⟨.steady, b⟩ := ⟨rfl, h, by simp⟩

theorem SameFor.handleMessage (ha : Permitted a device m) (hb : Permitted b device m) :
    (handleMessage env a m).2 = (handleMessage env b m).2 ∧
      SameSession device (handleMessage env a m).1 (handleMessage env b m).1 := by
  cases m with
  | index | indexUpdate => exact ⟨rfl, .steady (h.handleIndex ha hb rfl)⟩
  | request r =>
    refine ⟨?_, .steady h⟩
    simp only [handleMessage, handleBlockRequest, h.find?_eq ha hb rfl]
  | close => exact ⟨rfl, rfl, h, by simp [handleMessage]⟩
  | clusterConfig | response | downloadProgress | ping | undecodable => exact ⟨rfl, .steady h⟩

end

/-- A permitted message has the same replies in both sessions, and leaves them the same. -/
theorem SameSession.receive (env : SessionEnv) (h : SameSession device s t)
    (hs : Permitted s.daemon device m) (ht : Permitted t.daemon device m) :
    (s.receive env m).2 = (t.receive env m).2 ∧
      SameSession device (s.receive env m).1 (t.receive env m).1 := by
  unfold Session.receive
  rw [← h.stage]
  cases hstage : s.stage with
  | awaiting ids =>
    cases m with
    | clusterConfig remote =>
      refine ⟨map_congr_left fun id hid => ?_, .steady h.daemon⟩
      obtain ⟨f, hf, rfl⟩ := h.announced ids hstage id (mem_filter.mp hid).1
      have hfa := find?_key (mem_sharedWith.mp hf).1
      simp only [initialIndex, hfa, h.daemon.find?_of_mem hf]
    | _ => exact ⟨rfl, h⟩
  | steady => exact h.daemon.handleMessage hs ht
  | ended => exact ⟨rfl, h⟩

/-- The configurations of a daemon only matter for what is permitted. -/
theorem Permitted.of_configs (h : Permitted a device message)
    (hconfig : ∀ f ∈ b.folders.entries, ∃ g ∈ a.folders.entries, g.config = f.config) :
    Permitted b device message := by
  intro f hf hm
  obtain ⟨g, hg, he⟩ := hconfig f hf
  rw [← he] at hm ⊢
  exact h g hg hm

theorem configs_receive (env : SessionEnv) (s : Session) (m : Message) :
    ∀ f ∈ (s.receive env m).1.daemon.folders.entries,
      ∃ g ∈ s.daemon.folders.entries, g.config = f.config := by
  intro f hf
  unfold receive at hf
  split at hf
  · cases m <;> exact ⟨f, hf, rfl⟩
  · cases m with
    | index i | indexUpdate u => exact exists_config_eq hf
    | _ => exact ⟨f, hf, rfl⟩
  · exact ⟨f, hf, rfl⟩

theorem Permitted.receive (h : Permitted s.daemon device message) :
    Permitted (s.receive env m).1.daemon device message :=
  h.of_configs (configs_receive env s m)

theorem mem_receive_of_not_shared (hs : Permitted s.daemon device m)
    (hf : f ∈ s.daemon.folders.entries) (hdevice : device ∉ f.config.devices) :
    f ∈ (s.receive env m).1.daemon.folders.entries := by
  unfold receive
  split
  · cases m <;> exact hf
  · cases m with
    | index i | indexUpdate u => exact mem_handleIndex_of_not_shared hs rfl hf hdevice
    | _ => exact hf
  · exact hf

theorem exists_of_response (h : .response resp ∈ (s.receive env m).2)
    (hcode : resp.code = .noError) :
    ∃ r, m = .request r ∧ ∃ f ∈ s.daemon.folders.entries, f.config.id = r.folder := by
  unfold receive at h
  split at h
  · cases m with
    | _ => simp at h
  · cases m with
    | request r =>
      have hresp : resp = responseTo r (s.daemon.handleBlockRequest env r) := by
        simpa [handleMessage] using h
      exact ⟨r, rfl, exists_of_noError hresp hcode⟩
    | _ => simp [handleMessage] at h
  · simp at h

section run
variable {messages : List Message}

theorem SameSession.run (h : SameSession device s t)
    (hs : ∀ m ∈ messages, Permitted s.daemon device m)
    (ht : ∀ m ∈ messages, Permitted t.daemon device m) :
    (s.run env messages).2 = (t.run env messages).2 := by
  induction messages generalizing s t with
  | nil => rfl
  | cons m messages ih =>
    obtain ⟨hreplies, hnext⟩ := h.receive env (hs m mem_cons_self)
      (ht m mem_cons_self)
    have hrest := ih hnext (fun x hx => (hs x (mem_cons_of_mem _ hx)).receive)
      fun x hx => (ht x (mem_cons_of_mem _ hx)).receive
    simp only [run, hreplies, hrest]

section
variable (hs : ∀ m ∈ messages, Permitted s.daemon device m)
include hs

theorem mem_run_of_not_shared
    (hf : f ∈ s.daemon.folders.entries) (hdevice : device ∉ f.config.devices) :
    f ∈ (s.run env messages).1.daemon.folders.entries := by
  induction messages generalizing s with
  | nil => exact hf
  | cons m messages ih =>
    exact ih (fun x hx => (hs x (mem_cons_of_mem _ hx)).receive)
      (mem_receive_of_not_shared (hs m mem_cons_self) hf hdevice)

theorem shared_of_data {replies : List Message} {resp : Response}
    (hm : (m, replies) ∈ (s.run env messages).2) (hresp : .response resp ∈ replies)
    (hcode : resp.code = .noError) :
    ∃ r, m = .request r ∧ ∃ f ∈ s.daemon.folders.entries, f.config.id = r.folder ∧
      device ∈ f.config.devices := by
  induction messages generalizing s with
  | nil => cases hm
  | cons x messages ih =>
    rcases mem_cons.mp hm with he | hm
    · obtain ⟨rfl, rfl⟩ := Prod.mk.inj he
      obtain ⟨r, rfl, f, hf, hid⟩ := exists_of_response hresp hcode
      exact ⟨r, rfl, f, hf, hid, hs _ mem_cons_self f hf (congrArg some hid.symm)⟩
    · obtain ⟨r, rfl, f, hf, hid, hdevice⟩ :=
        ih (fun x hx => (hs x (mem_cons_of_mem _ hx)).receive) hm
      obtain ⟨g, hg, he⟩ := configs_receive env s x f hf
      exact ⟨r, rfl, g, hg, by rw [he]; exact hid, by rw [he]; exact hdevice⟩

end

/-- A device that names only folders that list it, or none that exist: it gets data only of those,
changes only those, and cannot tell two daemons apart that differ in the others. -/
theorem folder_authorization (hsame : SameFor device a b)
    (ha : ∀ m ∈ messages, Permitted a device m) (hb : ∀ m ∈ messages, Permitted b device m) :
    let s := (start a device).1.run env messages
    let t := (start b device).1.run env messages
    ((start a device).2 = (start b device).2 ∧ s.2 = t.2) ∧
      (∀ f ∈ a.folders.entries, device ∉ f.config.devices → f ∈ s.1.daemon.folders.entries) ∧
      ∀ m replies resp, (m, replies) ∈ s.2 → .response resp ∈ replies → resp.code = .noError →
        ∃ r, m = .request r ∧ ∃ f ∈ a.folders.entries, f.config.id = r.folder ∧
          device ∈ f.config.devices := by
  refine ⟨⟨?_, (sameSession_start hsame).run ha hb⟩, fun f hf hd => mem_run_of_not_shared ha hf hd,
    fun m replies resp hm hresp hcode => shared_of_data ha hm hresp hcode⟩
  simp only [start, hsame.clusterConfig]

end run

def stranger : DeviceId := ⟨[2]⟩

/-- A daemon with the folder `f`, which holds the file `x`. -/
def oneFolder (devices : List DeviceId) (content : Bytes) : Daemon where
  localDeviceId := none
  folders := empty.upsert
    ⟨⟨"f", none, devices⟩, idleFolder .empty (FileStore.empty.set ["x"] (.file content (0, 0)))⟩

def calmSession : SessionEnv where
  sha256 := id
  indexEnv := fun _ => calmIndex
  serveEnv := fun _ => ⟨id, true, fun _ => true, fun _ => none⟩

/-- Asks for the first bytes of `x`. -/
def firstBytes : Request := ⟨1, "f", "x", 0, 4, [], false⟩

/-- A device the folder lists is served. -/
theorem folder_authorization_listed :
    let s := (start (oneFolder [stranger] [7]) stranger).1.run calmSession
      [.clusterConfig [⟨"f", "", []⟩], .request firstBytes]
    (.request firstBytes, [.response ⟨1, [7], .noError⟩]) ∈ s.2 ∧
      ∃ r, Message.request firstBytes = .request r ∧
        ∃ f ∈ (oneFolder [stranger] [7]).folders.entries,
          f.config.id = r.folder ∧ stranger ∈ f.config.devices := by
  have hpermitted : ∀ m ∈ [Message.clusterConfig [⟨"f", "", []⟩], .request firstBytes],
      Permitted (oneFolder [stranger] [7]) stranger m := by
    rintro m - f hf -
    obtain rfl := mem_singleton.mp hf
    exact mem_singleton.mpr rfl
  have hdata : (Message.request firstBytes, [Message.response ⟨1, [7], .noError⟩]) ∈
      ((start (oneFolder [stranger] [7]) stranger).1.run calmSession
        [.clusterConfig [⟨"f", "", []⟩], .request firstBytes]).2 :=
    mem_cons_of_mem _ (mem_singleton.mpr rfl)
  exact ⟨hdata, (folder_authorization ⟨rfl, rfl⟩ hpermitted hpermitted).2.2 _ _ _ hdata
    (mem_singleton.mpr rfl) rfl⟩

/-- A device the folder does not list is not told of it, but asks for its blocks and gets them,
and its index is recorded and queued for pulling. -/
theorem folder_authorization_unchecked :
    let a := oneFolder [] [7]
    let b := oneFolder [] [8]
    let messages : List Message := [.clusterConfig [], .request firstBytes,
      .indexUpdate ⟨"f", [peerVersion 1 9], 1, 0⟩]
    let s := (start a stranger).1.run calmSession messages
    let t := (start b stranger).1.run calmSession messages
    a.sharedWith stranger = [] ∧ b.sharedWith stranger = [] ∧
      (start a stranger).2 = [.clusterConfig []] ∧
      s.2.map (·.2) = [[], [.response ⟨1, [7], .noError⟩], []] ∧
      t.2.map (·.2) = [[], [.response ⟨1, [8], .noError⟩], []] ∧
      (s.1.daemon.folders.find? "f").map (·.model.folder.db.entries) = some [peerVersion 1 9] ∧
      (s.1.daemon.folders.find? "f").map (·.model.pending) = some [peerVersion 1 9] :=
  ⟨rfl, rfl, rfl, rfl, rfl, rfl, rfl⟩

end Syncthing
