import Syncthing.Core.Vector

/-! File records of `syncthing-core/src/types/mod.rs`. -/
namespace Syncthing

abbrev Bytes := List UInt8

inductive FileType where
  | file
  | directory
  | symlink
  deriving DecidableEq

structure BlockInfo where
  size : Int
  hash : Bytes
  offset : Int
  deriving DecidableEq

/-- Base version of a file at last global consensus, used for three-way merge. -/
structure FileInfoBase where
  size : Int
  modifiedS : Int
  modifiedNs : Int
  blocksHash : Option Bytes
  contentHash : Option Bytes
  deriving DecidableEq

structure FileInfo where
  name : String
  fileType : FileType
  size : Int
  permissions : Nat
  modifiedS : Int
  modifiedNs : Int
  version : Vector
  sequence : UInt64
  blockSize : Int
  blocks : List BlockInfo
  symlinkTarget : Option String
  deleted : Option Bool
  modifiedBy : Option UInt64
  blocksHash : Option Bytes
  noPermissions : Option Bool
  baseVersion : Option FileInfoBase
  deriving DecidableEq

namespace FileInfo

def new (name : String) : FileInfo where
  name := name
  fileType := .file
  size := 0
  permissions := 0
  modifiedS := 0
  modifiedNs := 0
  version := .new
  sequence := 0
  blockSize := 0
  blocks := []
  symlinkTarget := none
  deleted := some false
  modifiedBy := none
  blocksHash := none
  noPermissions := none
  baseVersion := none

def isDeleted (f : FileInfo) : Bool := f.deleted.getD false

/-- The block hashes in order: what every content comparison of the source looks at. -/
def blockHashes (f : FileInfo) : List Bytes := f.blocks.map (·.hash)

end FileInfo
end Syncthing
