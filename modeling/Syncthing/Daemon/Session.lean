import Syncthing.Daemon.BepHandler
import Syncthing.Sync.FolderModel

/-! The life of a session, `syncthing-net/src/session/state.rs`, over the daemon's handler and the
sync service behind it. -/
namespace Syncthing

/-- A configured folder and what the service keeps for it. -/
structure ServedFolder where
  config : FolderConfig
  model : FolderModel

structure Daemon where
  localDeviceId : Option DeviceId
  folders : KeyedList fun f : ServedFolder => f.config.id

/-- What handling messages depends on besides the daemon, for each folder. -/
structure SessionEnv where
  sha256 : Bytes → Bytes
  indexEnv : String → IndexEnv
  serveEnv : String → ServeEnv

inductive SessionStage where
  | awaiting (myFolderIds : List String)
  | steady
  | ended
  deriving DecidableEq

/-- A session and the daemon it runs in. -/
structure Session where
  stage : SessionStage
  daemon : Daemon

namespace Daemon

variable (env : SessionEnv) (a : Daemon)

def clusterConfig (device : DeviceId) : List WireFolder :=
  generateClusterConfig a.localDeviceId (a.folders.entries.map (·.config)) device

/-- The initial `Index` of a folder. -/
def initialIndex (folder : String) : Index where
  folder := folder
  files := ((a.folders.find? folder).map fun f =>
    generateIndex env.sha256 f.model.folder.db).getD []

/-- `handle_index` and `handle_index_update` of the service: whom the index comes from plays no
role. -/
def handleIndex (full : Bool) (folder : String) (files : List FileInfo) : Daemon :=
  match a.folders.find? folder with
  | none => a
  | some f =>
    let model := f.model.indexMessage (env.indexEnv folder) full files
    { a with folders := a.folders.upsert { f with model } }

/-- `handle_block_request`: neither does it matter who asks for a block. -/
def handleBlockRequest (req : Request) : Except BlockRequestError Bytes :=
  match a.folders.find? req.folder with
  | none => .error .folderNotFound
  | some f => serveBlockRequest (env.serveEnv req.folder) f.model.folder.disk req

end Daemon

/-- The answer to a block request. -/
def responseTo (req : Request) : Except BlockRequestError Bytes → Response
  | .ok data => ⟨req.id, data, .noError⟩
  | .error e => ⟨req.id, [], e.errorCode⟩

namespace Session

variable (env : SessionEnv) (a : Daemon)

/-- The session begins with our `ClusterConfig`. -/
def start (device : DeviceId) : Session × List Message :=
  (⟨.awaiting ((a.clusterConfig device).map (·.id)), a⟩, [.clusterConfig (a.clusterConfig device)])

/-- `handle_message`. -/
def handleMessage : Message → Session × List Message
  | .index index => (⟨.steady, a.handleIndex env true index.folder index.files⟩, [])
  | .indexUpdate update => (⟨.steady, a.handleIndex env false update.folder update.files⟩, [])
  | .request req =>
    (⟨.steady, a⟩, [.response (responseTo req (a.handleBlockRequest env req))])
  | .close => (⟨.ended, a⟩, [])
  | .clusterConfig _ | .response _ | .downloadProgress | .ping | .undecodable => (⟨.steady, a⟩, [])

/-- A message arrives. Until there is a `ClusterConfig` of the device, all others are ignored. -/
def receive (s : Session) (message : Message) : Session × List Message :=
  match s.stage with
  | .awaiting myFolderIds =>
    match message with
    | .clusterConfig remote =>
      let shared := myFolderIds.filter fun id => (remote.map (·.id)).contains id
      (⟨.steady, s.daemon⟩, shared.map fun id => .index (s.daemon.initialIndex env id))
    | _ => (s, [])
  | .steady => handleMessage env s.daemon message
  | .ended => (s, [])

/-- The messages of a device in turn, each with the replies to it. -/
def run (s : Session) : List Message → Session × List (Message × List Message)
  | [] => (s, [])
  | message :: messages =>
    let (next, replies) := s.receive env message
    let (last, trace) := run next messages
    (last, (message, replies) :: trace)

end Session

end Syncthing
