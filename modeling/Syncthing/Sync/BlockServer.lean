import Syncthing.Net.Messages
import Syncthing.Sync.Disk

/-! Remote file names and block requests, `syncthing-sync/src/block_server.rs`. -/
namespace Syncthing

/-- Errors while serving a block request. -/
inductive BlockRequestError where
  | folderNotFound
  | fileNotFound
  | invalidFileName
  | hashMismatch
  | ioError (message : String)
  deriving DecidableEq

/-- The text of an error. -/
def BlockRequestError.message : BlockRequestError → String
  | folderNotFound => "folder not found"
  | fileNotFound => "file not found"
  | invalidFileName => "invalid file name"
  | hashMismatch => "block hash mismatch"
  | ioError message => "io error: " ++ message

def BlockRequestError.errorCode : BlockRequestError → ErrorCode
  | folderNotFound => .noSuchFile
  | fileNotFound => .noSuchFile
  | invalidFileName => .invalidFile
  | hashMismatch => .invalidFile
  | ioError _ => .generic

/-- A segment of a remote name that cannot leave the folder. -/
def validSegment (segment : String) : Bool :=
  !(segment.isEmpty || segment = "." || segment = "..") && !Text.hasChar '\\' segment

def validateRemoteName (name : String) : Except BlockRequestError Unit :=
  if name.isEmpty then .error .invalidFileName
  else if Text.startsWith name "/" || Text.startsWith name "\\" then .error .invalidFileName
  else if Text.hasChar '\x00' name then .error .invalidFileName
  else if (Text.splitChar '/' name).all validSegment then .ok ()
  else .error .invalidFileName

/-- What serving a block depends on besides the request and the folder. -/
structure ServeEnv where
  sha256 : Bytes → Bytes
  /-- The path of the folder has no links in it. -/
  rootCanonical : Bool
  /-- What a link leads to is below the folder. -/
  linkInside : List String → Bool
  /-- The calls on the file that fail, with their errors. -/
  fault : List String → Option IoError

/-- The file that is opened for a request. Links are followed, if they stay in the folder. -/
def openServed (env : ServeEnv) (d : Disk) (path : List String) :
    Except BlockRequestError Bytes := do
  match d.nodeAt path with
  | none | some (.symlink _ _ .dangling) =>
    -- nothing to canonicalize: the path as it is has to begin with the canonical root
    if !env.rootCanonical then throw .invalidFileName
    else if path.dropLast.inits.any fun q => (d.nodeAt q).isSome && !d.isDir q then
      throw (.ioError "Not a directory")
    else throw .fileNotFound
  | some (.symlink _ _ .dir) =>
    if !env.linkInside path then throw .invalidFileName
    throw (.ioError "Is a directory")
  | some (.dir ..) => throw (.ioError "Is a directory")
  | some (.symlink _ _ (.file content)) =>
    if !env.linkInside path then throw .invalidFileName
    return content
  | some (.file content _) => return content

/-- `serve_block_request_sync`. -/
def serveBlockRequest (env : ServeEnv) (d : Disk) (req : Request) :
    Except BlockRequestError Bytes := do
  validateRemoteName req.name
  let path := namePath req.name
  let path := if req.fromTemporary then tempPathFor path else path
  let content ← openServed env d path
  if let some e := env.fault path then throw (.ioError e)
  -- a negative offset is cast to one that no file can be positioned at
  if req.offset < 0 then throw (.ioError "Invalid argument")
  let buf := (content.drop req.offset.toNat).take req.size.toNat
  if !req.hash.isEmpty && env.sha256 buf ≠ req.hash then throw .hashMismatch
  return buf

end Syncthing
