import Syncthing.Daemon.IndexDispatcher
import Syncthing.Lib.Transition

/-! The tasks that work on the index of one folder: scans, the handling of remote indexes, the
sessions with their event loggers, and the propagation loop of `tui/index_dispatcher.rs`. They take
turns between any two database calls and any two messages. Channels are reliable, connections stay
up and the database answers. -/
namespace Syncthing

open Function

/-- The events of a session that its logger keeps something of. -/
inductive SessionEvent where
  | clusterConfigComplete (sharedFolders : List String)
  | indexSent (fileCount : Nat) (lastSequence : UInt64)

/-- How far the session with a device is with the folder. -/
inductive SessionPhase where
  | waiting
  | shared
  | generated (files : List FileInfo)
  | indexed
  | unshared

/-- An index message enqueued to a device. -/
inductive IndexMessage where
  | index (files : List FileInfo)
  | indexUpdate (update : IndexUpdate)

def IndexMessage.files : IndexMessage → List FileInfo
  | index files => files
  | indexUpdate update => update.files

/-- A scan that has given its changes their sequence numbers. -/
structure LocalScan where
  files : List FileInfo
  unstored : List FileInfo

/-- An event the propagation loop works on: the devices left, and the chunks left for the one it
is at. -/
structure Handling where
  files : List FileInfo
  devices : List DeviceId
  sending : List (DeviceId × UInt64 × List FileInfo)

/-- The last two fields are for the proofs: the records of the database at the start and of all
scans since, and the records of the events the loop is done with. -/
structure Propagation where
  db : FolderFiles
  sequence : UInt64
  scans : List LocalScan
  events : List (List FileInfo)
  handling : Option Handling
  connected : List DeviceId
  phase : DeviceId → SessionPhase
  logger : DeviceId → List SessionEvent
  sharedFolders : DeviceId → Option (List String)
  indexedFolders : DeviceId → Option UInt64
  sent : DeviceId → List IndexMessage
  allocated : List FileInfo
  handled : List FileInfo

namespace Propagation

/-- A daemon that has just started. -/
def start (db : FolderFiles) (sequence : UInt64) : Propagation where
  db := db
  sequence := sequence
  scans := []
  events := []
  handling := none
  connected := []
  phase := fun _ => .waiting
  logger := fun _ => []
  sharedFolders := fun _ => none
  indexedFolders := fun _ => none
  sent := fun _ => []
  allocated := db.entries
  handled := []

variable (s : Propagation)

/-- An event without files is not published. -/
def publish (files : List FileInfo) : List (List FileInfo) :=
  if files.isEmpty then s.events else s.events ++ [files]

/-- The live records that a full remote index does not name. -/
def unpushed (remote : List FileInfo) : List FileInfo :=
  s.db.entries.filter fun f => !remote.any (·.name = f.name) && !f.isDeleted

variable (d : DeviceId)

def setPhase (phase : SessionPhase) : Propagation := { s with phase := update s.phase d phase }

def emit (event : SessionEvent) : Propagation :=
  { s with logger := update s.logger d (s.logger d ++ [event]) }

def enqueue (message : IndexMessage) : Propagation :=
  { s with sent := update s.sent d (s.sent d ++ [message]) }

def setIndexed (sequence : UInt64) : Propagation :=
  { s with indexedFolders := update s.indexedFolders d (some sequence) }

/-- What the logger of a session does with an event. -/
def log : SessionEvent → Propagation
  | .clusterConfigComplete folders =>
    { s with sharedFolders := update s.sharedFolders d (some folders) }
  | .indexSent _ lastSequence => s.setIndexed d lastSequence

end Propagation

namespace DispatchEnv

variable (env : DispatchEnv)

/-- The folder is one of those both sides named. -/
def sharedWith (d : DeviceId) (remote : List String) : Bool :=
  ((generateClusterConfig env.localDeviceId env.folders d).map (·.id)).contains env.folder &&
    remote.contains env.folder

end DispatchEnv

inductive PropagationEvent where
  | allocate (files : List FileInfo) (sequence : UInt64)
  | store (file : FileInfo)
  | publish
  | storeRemote (file : FileInfo)
  | republish (remote : List FileInfo)
  | connect (d : DeviceId)
  | clusterConfig (d : DeviceId) (remote : List String)
  | generateIndex (d : DeviceId)
  | sendIndex (d : DeviceId)
  | log (d : DeviceId)
  | takeEvent
  | device (d : DeviceId)
  | chunk (d : DeviceId)
  | finish

/-- One step of one of the tasks. -/
inductive PropagationStep (env : DispatchEnv) :
    Propagation → PropagationEvent → Propagation → Prop where
  | allocate {s files sequence} (hmono : s.sequence ≤ sequence)
    (hfresh : ∀ f ∈ files, s.sequence < f.sequence ∧ f.sequence ≤ sequence) :
    PropagationStep env s (.allocate files sequence) { s with
      sequence
      scans := s.scans ++ [⟨files, files⟩]
      allocated := s.allocated ++ files }
  | store {s before scan later file rest} (hs : s.scans = before ++ scan :: later)
    (hu : scan.unstored = file :: rest) : PropagationStep env s (.store file) { s with
      db := s.db.upsert file
      scans := before ++ { scan with unstored := rest } :: later }
  | publish {s before scan later} (hs : s.scans = before ++ scan :: later)
    (hu : scan.unstored = []) : PropagationStep env s .publish { s with
      scans := before ++ later
      events := s.publish scan.files }
  | storeRemote {s file} :
    PropagationStep env s (.storeRemote file) { s with db := s.db.upsert file }
  | republish {s remote} :
    PropagationStep env s (.republish remote) { s with events := s.publish (s.unpushed remote) }
  | connect {s d} :
    PropagationStep env s (.connect d) { s with connected := s.connected ++ [d] }
  | clusterConfig {s d remote} (hd : d ∈ s.connected) (hp : s.phase d = .waiting) :
    PropagationStep env s (.clusterConfig d remote)
      ((s.setPhase d (if env.sharedWith d remote then .shared else .unshared)).emit d
        (.clusterConfigComplete remote))
  | generateIndex {s d} (hp : s.phase d = .shared) :
    PropagationStep env s (.generateIndex d)
      (s.setPhase d (.generated (Syncthing.generateIndex env.sha256 s.db)))
  | sendIndex {s d files} (hp : s.phase d = .generated files) :
    PropagationStep env s (.sendIndex d)
      (((s.setPhase d .indexed).enqueue d (.index files)).emit d
        (.indexSent files.length (highestSequence 0 files)))
  | log {s d event rest} (hl : s.logger d = event :: rest) :
    PropagationStep env s (.log d)
      (Propagation.log { s with logger := update s.logger d rest } d event)
  | takeEvent {s files rest} (hh : s.handling = none) (he : s.events = files :: rest) :
    PropagationStep env s .takeEvent { s with
      events := rest
      handling := some ⟨files, s.connected, []⟩ }
  | device {s files d devices} (hh : s.handling = some ⟨files, d :: devices, []⟩) :
    PropagationStep env s (.device d) { s with
      handling := some ⟨files, devices,
        (env.chunksFor (s.sharedFolders d) (s.indexedFolders d) files).map (d, ·)⟩ }
  | chunk {s files devices d prev chunk rest}
    (hh : s.handling = some ⟨files, devices, (d, prev, chunk) :: rest⟩) :
    PropagationStep env s (.chunk d)
      ((({ s with handling := some ⟨files, devices, rest⟩ }).enqueue d
        (.indexUpdate (env.indexUpdate prev chunk))).setIndexed d (highestSequence prev chunk))
  | finish {s files} (hh : s.handling = some ⟨files, [], []⟩) :
    PropagationStep env s .finish { s with handling := none, handled := s.handled ++ files }

end Syncthing
