import Syncthing.Sync.FolderModel

/-! The calls of `syncthing-api/src/rest/folder.rs` and `rest/config.rs` that change the
configuration, the checks of `validation.rs` and the store, `JsonConfigStore` of `config.rs`. The
calls take their turns at the awaits of `load` and `save`. -/
namespace Syncthing.Rest

/-- What the code takes from other crates: the character classes of Unicode, the standard format of
a device ID, and the digest that stands in for an ID of another format. -/
structure ApiEnv where
  isAlphanumeric : Char → Bool
  fromStr : String → Option DeviceId
  digest : String → DeviceId

inductive AddressType where
  | tcp (address : String)
  | quic (address : String)
  | relay (address : String)
  | dynamic
  deriving DecidableEq

inductive VersioningConfig where
  | none
  | simple (params : List (String × String))
  | staggered (params : List (String × String))
  | external (params : List (String × String))
  deriving DecidableEq

structure Folder where
  id : String
  path : String
  label : Option String
  folderType : FolderType
  paused : Bool
  rescanIntervalSecs : Int32
  devices : List DeviceId
  ignorePatterns : List String
  versioning : Option VersioningConfig
  deriving DecidableEq

def Folder.new (id path : String) : Folder :=
  ⟨id, path, none, .sendReceive, false, 3600, [], [], none⟩

structure Device where
  id : DeviceId
  name : Option String
  addresses : List AddressType
  paused : Bool
  introducer : Bool
  deriving DecidableEq

/-- The fields of the configuration that the calls read or change. -/
structure Config where
  version : Int32
  folders : List Folder
  devices : List Device
  deriving DecidableEq

def Config.new : Config := ⟨1, [], []⟩

structure VersioningRequest where
  type : String
  params : List (String × String)
  deriving DecidableEq

structure CreateFolderRequest where
  id : String
  label : Option String
  path : String
  devices : List String
  rescanIntervalSecs : Option UInt32
  versioning : Option VersioningRequest
  deriving DecidableEq

structure UpdateFolderRequest where
  id : Option String
  label : Option String
  path : Option String
  rescanIntervalSecs : Option UInt32
  deriving DecidableEq

structure UpdateDeviceRequest where
  id : String
  name : String
  addresses : List String
  introducer : Bool
  deriving DecidableEq

structure UpdateConfigRequest where
  version : UInt32
  folders : List UpdateFolderRequest
  devices : List UpdateDeviceRequest
  deriving DecidableEq

inductive StatusCode where
  | badRequest
  | notFound
  | conflict
  | internalServerError
  deriving DecidableEq

structure ApiError where
  status : StatusCode
  message : String
  deriving DecidableEq

def badRequest (message : String) : Except ApiError Unit := .error ⟨.badRequest, message⟩

def folderNotFound (id : String) : ApiError := ⟨.notFound, "Folder '" ++ id ++ "' not found"⟩

def defaultScanIntervalSecs : UInt32 := 3600

/-! ## The calls on a configuration -/

section code
variable (env : ApiEnv) (id : String)

def validateFolderId : Except ApiError Unit :=
  if id.isEmpty then badRequest "Folder ID cannot be empty"
  else if 64 < id.utf8ByteSize then badRequest "Folder ID cannot exceed 64 characters"
  else if !id.toList.all fun c => env.isAlphanumeric c || c == '-' || c == '_' then
    badRequest "Folder ID can only contain alphanumeric characters, hyphens, and underscores"
  else .ok ()

def validatePath (path : String) : Except ApiError Unit :=
  if path.isEmpty then badRequest "Path cannot be empty"
  else if Text.hasPart path ".." then badRequest "Path cannot contain parent directory references"
  else .ok ()

def parseDeviceId : DeviceId := (env.fromStr id).getD (env.digest id)

def stripScheme (address scheme : String) : Option String :=
  if Text.startsWith address scheme then some (String.ofList (address.toList.drop scheme.length))
  else none

def parseAddress (a : String) : AddressType :=
  match stripScheme a "tcp://", stripScheme a "quic://", stripScheme a "relay://" with
  | some stripped, _, _ => .tcp stripped
  | none, some stripped, _ => .quic stripped
  | none, none, some stripped => .relay stripped
  | none, none, none => if a == "dynamic" then .dynamic else .tcp a

def VersioningRequest.config (v : VersioningRequest) : VersioningConfig :=
  if v.type == "simple" then .simple v.params
  else if v.type == "staggered" then .staggered v.params
  else if v.type == "external" then .external v.params
  else .none

variable (request : CreateFolderRequest)

def CreateFolderRequest.folder : Folder where
  id := request.id
  path := request.path
  label := some (request.label.getD "")
  folderType := .sendReceive
  paused := false
  rescanIntervalSecs := (request.rescanIntervalSecs.getD defaultScanIntervalSecs).toInt32
  devices := request.devices.filterMap env.fromStr
  ignorePatterns := []
  versioning := request.versioning.map (·.config)

def createFolder (config : Config) : Except ApiError Config :=
  if config.folders.any (·.id == request.id) then
    .error ⟨.conflict, "Folder '" ++ request.id ++ "' already exists"⟩
  else .ok { config with folders := config.folders ++ [request.folder env] }

/-- The fields that a request gives, over those of the folder. -/
def UpdateFolderRequest.change (request : UpdateFolderRequest) (folder : Folder) : Folder :=
  { folder with
    label := request.label.or folder.label
    path := request.path.getD folder.path
    rescanIntervalSecs :=
      (request.rescanIntervalSecs.map UInt32.toInt32).getD folder.rescanIntervalSecs }

def updateFolder (request : UpdateFolderRequest) (config : Config) : Except ApiError Config :=
  match config.folders.findIdx? (·.id == id) with
  | none => .error (folderNotFound id)
  | some idx => .ok { config with folders := config.folders.modify idx request.change }

def deleteFolder (config : Config) : Except ApiError Config :=
  let folders := config.folders.filter (·.id != id)
  if folders.length = config.folders.length then .error (folderNotFound id)
  else .ok { config with folders }

/-- One folder of `update_config`: changed if it is configured, added if there is a path. -/
def updateConfigFolder (folders : List Folder) (request : UpdateFolderRequest) : List Folder :=
  match request.id with
  | none => folders
  | some id =>
    match folders.findIdx? (·.id == id), request.path with
    | some idx, _ => folders.modify idx request.change
    | none, some path => folders ++ [request.change (Folder.new id path)]
    | none, none => folders

def UpdateDeviceRequest.change (request : UpdateDeviceRequest) (device : Device) : Device :=
  { device with
    name := if request.name.isEmpty then device.name else some request.name
    addresses :=
      if request.addresses.isEmpty then device.addresses else request.addresses.map parseAddress
    introducer := request.introducer }

def UpdateDeviceRequest.device (request : UpdateDeviceRequest) : Device where
  id := parseDeviceId env request.id
  name := if request.name.isEmpty then none else some request.name
  addresses := request.addresses.map parseAddress
  paused := false
  introducer := request.introducer

def updateConfigDevice (devices : List Device) (request : UpdateDeviceRequest) : List Device :=
  match devices.findIdx? (·.id == parseDeviceId env request.id) with
  | some idx => devices.modify idx request.change
  | none => devices ++ [request.device env]

def updateConfig (request : UpdateConfigRequest) (config : Config) : Config where
  version := request.version.toInt32
  folders := request.folders.foldl updateConfigFolder config.folders
  devices := request.devices.foldl (updateConfigDevice env) config.devices

inductive Request where
  | createFolder (request : CreateFolderRequest)
  | updateFolder (id : String) (request : UpdateFolderRequest)
  | deleteFolder (id : String)
  | updateConfig (request : UpdateConfigRequest)
  deriving DecidableEq

namespace Request

/-- What a call checks before it loads the configuration. -/
def validate : Request → Except ApiError Unit
  | createFolder request => do
    validateFolderId env request.id
    validatePath request.path
  | updateFolder id request => do
    validateFolderId env id
    request.path.forM validatePath
  | deleteFolder _ | updateConfig _ => .ok ()

/-- What a call makes of the configuration it has loaded. -/
def change : Request → Config → Except ApiError Config
  | createFolder request => Rest.createFolder env request
  | updateFolder id request => Rest.updateFolder id request
  | deleteFolder id => Rest.deleteFolder id
  | updateConfig request => fun config => .ok (Rest.updateConfig env request config)

/-- The call on its own. -/
def execute (request : Request) (config : Config) : Except ApiError Config := do
  request.validate env
  request.change env config

end Request

/-- The calls one after the other. -/
def serial (order : List Request) (config : Config) : Except ApiError Config :=
  order.foldlM (fun config request => request.execute env config) config

end code

/-! ## The store and the calls on it -/

/-- The configuration file. A text that is not complete does not parse. -/
inductive ConfigFile where
  | missing
  | unreadable
  | config (config : Config)
  deriving DecidableEq

/-- The configuration that the file stands for: a file that is missing is created by `load`. -/
def ConfigFile.stored : ConfigFile → Option Config
  | missing => some .new
  | unreadable => none
  | config c => some c

/-- How far a `save` is: before `fs::write`, with the file emptied, with the text written. -/
inductive SavePhase where
  | begun
  | opened
  | written
  deriving DecidableEq

/-- Who saves: `load`, which creates a file, or the call itself. -/
inductive SaveKind where
  | default
  | change
  deriving DecidableEq

/-- How far a call is. While it saves, `base` is the configuration it started from, which the code
does not keep. -/
inductive Stage where
  | received
  | loading
  | missed
  | read (config : Config)
  | saving (kind : SaveKind) (base new : Config) (phase : SavePhase)
  | answered (result : Except ApiError Unit)

structure Call where
  request : Request
  stage : Stage

/-- The store and the calls, with the file on disk and the cache in memory. -/
structure ConfigCalls where
  file : ConfigFile
  cache : Option Config
  calls : List Call

namespace Stage

/-- Between emptying the file and setting the cache. -/
def inSave : Stage → Bool
  | saving _ _ _ .opened | saving _ _ _ .written => true
  | _ => false

def succeeded : Stage → Bool
  | answered (.ok ()) => true
  | _ => false

def failed : Stage → Bool
  | answered (.error _) => true
  | _ => false

variable (env : ApiEnv) (request : Request)

/-- The next stage of a call that `load` returns to. -/
def afterLoad (config : Config) : Stage :=
  match request.change env config with
  | .error e => .answered (.error e)
  | .ok new => .saving .change config new .begun

/-- The next stage of a call whose request has been checked. -/
def afterValidate : Stage :=
  match request.validate env with
  | .error e => .answered (.error e)
  | .ok () => .loading

/-- The next stage of a call that `save` returns to. -/
def afterSave (new : Config) : SaveKind → Stage
  | .default => afterLoad env request new
  | .change => .answered (.ok ())

/-- Where `load` or `save` can return an error. -/
def canFail : Stage → Bool
  | missed | saving _ _ _ .begun | saving _ _ _ .opened => true
  | _ => false

end Stage

namespace ConfigCalls

variable (w : ConfigCalls)

def setCalls (calls : List Call) : ConfigCalls := { w with calls }

def setFile (file : ConfigFile) : ConfigCalls := { w with file }

def setCache (config : Config) : ConfigCalls := { w with cache := some config }

/-- A call is between emptying the file and setting the cache. -/
def saving : Bool := w.calls.any (·.stage.inSave)

/-- The configuration that `load` answers with. -/
def inMemory : Option Config := w.cache.or w.file.stored

end ConfigCalls

inductive CallEvent where
  | validate
  | hit
  | miss
  | createDefault
  | readFile
  | cacheRead (config : Config)
  | openFile (base : Config)
  | writeFile
  | mixFile
  | cacheSaved
  | fail

/-- One step of one of the calls. -/
inductive CallStep (env : ApiEnv) : ConfigCalls → CallEvent → ConfigCalls → Prop where
  | validate {w before request later}
    (hw : w.calls = before ++ ⟨request, .received⟩ :: later) : CallStep env w .validate
      (w.setCalls (before ++ ⟨request, .afterValidate env request⟩ :: later))
  | hit {w before request later config} (hw : w.calls = before ++ ⟨request, .loading⟩ :: later)
    (hcache : w.cache = some config) :
    CallStep env w .hit (w.setCalls (before ++ ⟨request, .afterLoad env request config⟩ :: later))
  | miss {w before request later} (hw : w.calls = before ++ ⟨request, .loading⟩ :: later)
    (hcache : w.cache = none) :
    CallStep env w .miss (w.setCalls (before ++ ⟨request, .missed⟩ :: later))
  | createDefault {w before request later} (hw : w.calls = before ++ ⟨request, .missed⟩ :: later)
    (hfile : w.file = .missing) : CallStep env w .createDefault
      (w.setCalls (before ++ ⟨request, .saving .default .new .new .begun⟩ :: later))
  | readFile {w before request later config} (hw : w.calls = before ++ ⟨request, .missed⟩ :: later)
    (hfile : w.file = .config config) :
    CallStep env w .readFile (w.setCalls (before ++ ⟨request, .read config⟩ :: later))
  | cacheRead {w before request later config}
    (hw : w.calls = before ++ ⟨request, .read config⟩ :: later) : CallStep env w (.cacheRead config)
      ((w.setCache config).setCalls (before ++ ⟨request, .afterLoad env request config⟩ :: later))
  | openFile {w before request kind base new later}
    (hw : w.calls = before ++ ⟨request, .saving kind base new .begun⟩ :: later) :
    CallStep env w (.openFile base)
      ((w.setFile .unreadable).setCalls
        (before ++ ⟨request, .saving kind base new .opened⟩ :: later))
  | writeFile {w before request kind base new later}
    (hw : w.calls = before ++ ⟨request, .saving kind base new .opened⟩ :: later) :
    CallStep env w .writeFile
      ((w.setFile (.config new)).setCalls
        (before ++ ⟨request, .saving kind base new .written⟩ :: later))
  -- another call has written since this one emptied the file, and the end of its text is left
  | mixFile {w before request kind base new later}
    (hw : w.calls = before ++ ⟨request, .saving kind base new .opened⟩ :: later)
    (hfile : w.file ≠ .unreadable) : CallStep env w .mixFile
      ((w.setFile .unreadable).setCalls
        (before ++ ⟨request, .saving kind base new .written⟩ :: later))
  | cacheSaved {w before request kind base new later}
    (hw : w.calls = before ++ ⟨request, .saving kind base new .written⟩ :: later) :
    CallStep env w .cacheSaved
      ((w.setCache new).setCalls (before ++ ⟨request, .afterSave env request new kind⟩ :: later))
  | fail {w before request stage later message}
    (hw : w.calls = before ++ ⟨request, stage⟩ :: later) (hstage : stage.canFail = true) :
    CallStep env w .fail
      (w.setCalls (before ++
        ⟨request, .answered (.error ⟨.internalServerError, message⟩)⟩ :: later))

end Syncthing.Rest
