import Syncthing.Core.Types

/-! Messages of the block exchange protocol, `bep-protocol/src/messages/mod.rs`. -/
namespace Syncthing

/-- The hash of a device's certificate. -/
structure DeviceId where
  bytes : Bytes
  deriving DecidableEq

/-- A device that is not known: the default of the source. -/
def DeviceId.default : DeviceId := ⟨List.replicate 32 0⟩

/-- A folder of a `ClusterConfig` and the devices it is shared with. -/
structure WireFolder where
  id : String
  label : String
  devices : List DeviceId
  deriving DecidableEq

structure Index where
  folder : String
  files : List FileInfo
  deriving DecidableEq

structure IndexUpdate where
  folder : String
  files : List FileInfo
  lastSequence : Int
  prevSequence : Int
  deriving DecidableEq

structure Request where
  id : Int
  folder : String
  name : String
  offset : Int
  size : Int
  hash : Bytes
  fromTemporary : Bool
  deriving DecidableEq

inductive ErrorCode where
  | noError
  | generic
  | noSuchFile
  | invalidFile
  deriving DecidableEq

structure Response where
  id : Int
  data : Bytes
  code : ErrorCode
  deriving DecidableEq

/-- A message as the session sees it. What cannot be decoded is dropped. -/
inductive Message where
  | clusterConfig (folders : List WireFolder)
  | index (index : Index)
  | indexUpdate (update : IndexUpdate)
  | request (request : Request)
  | response (response : Response)
  | downloadProgress
  | ping
  | close
  | undecodable
  deriving DecidableEq

end Syncthing
