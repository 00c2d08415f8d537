import NaiveFileSystem.Lib.Program
import NaiveFileSystem.Yfs.Text

/-!
# The file system client

The operations of `yfs_client` as programs over the calls they make: those of the
extent cache, and the acquire and release of a `LockGuard`. A call returns its
status and what its output argument holds after it. Offsets and sizes come from
the kernel and are far from wrapping, so they are naturals.
-/

namespace NaiveFileSystem.Yfs

open Extent Cache

/-- The calls. -/
inductive Op
  | create (type : UInt32) (id : ExtentId)
  | get (eid : ExtentId) (buf : Bytes)
  | getattr (eid : ExtentId) (attr : Attr)
  | put (eid : ExtentId) (buf : Bytes)
  | remove (eid : ExtentId)
  | flush (eid : ExtentId)
  | acquire (lid : UInt64)
  | release (lid : UInt64)
  deriving DecidableEq

abbrev Op.Reply : Op → Type
  | create _ _ => Status × ExtentId
  | get _ _ => Status × Bytes
  | getattr _ _ => Status × Attr
  | put _ _ | remove _ | flush _ => Status
  | acquire _ | release _ => Unit

abbrev Action (α : Type) := Program Op.Reply α

abbrev call (op : Op) : Action op.Reply := Program.perform op

/-- `yfs_client::status` is an `int`, and `setattr` hands on the cache's. -/
def Result.OK : ℤ := 0
def Result.ENOENT : ℤ := 2
def Result.IOERR : ℤ := 3
def Result.EXIST : ℤ := 4

def statusCode : Status → ℤ
  | .OK => 0
  | .RPCERR => 1
  | .NOENT => 2
  | .IOERR => 3
  | .library code => code

/-- What uninitialised variables hold. -/
structure Locals where
  attr : Attr
  finum : Inum

/-- `buf.resize(size, '\0')`. -/
def resize (buf : Bytes) (size : ℕ) : Bytes := buf.take size ++ List.replicate (size - buf.length) 0

structure FileInfo where
  size : UInt64
  atime : UInt64
  mtime : UInt64
  ctime : UInt64

structure SymlinkInfo where
  size : UInt64
  atime : UInt64
  mtime : UInt64
  ctime : UInt64

structure DirInfo where
  atime : UInt64
  mtime : UInt64
  ctime : UInt64

structure Dirent where
  name : Bytes
  inum : Inum
  deriving DecidableEq

namespace YfsClient

variable (vars : Locals)

/-- The constructor. -/
def init : Action Unit := do
  call (.acquire 1)
  let _ ← call (.put 1 [])
  call (.release 1)

/-- `isfile`, `issymlink` and `isdir`, which differ in the type they ask for. -/
def isType (type : ExtentType) (inum : Inum) : Action Bool := do
  let (ret, a) ← call (.getattr inum vars.attr)
  if ret ≠ .OK then return false
  return a.type = type.code

def isfile (inum : Inum) : Action Bool := isType vars .T_FILE inum

def issymlink (inum : Inum) : Action Bool := isType vars .T_SYMLK inum

def isdir (inum : Inum) : Action Bool := isType vars .T_DIR inum

/-- `getfile`, `getsymlink` and `getdir`, which differ in what they take of the attributes.
The output argument stays untouched, here `none`, on failure. -/
def getInfo {Info : Type} (info : Attr → Info) (inum : Inum) : Action (ℤ × Option Info) := do
  call (.acquire inum)
  let (ret, a) ← call (.getattr inum vars.attr)
  if ret ≠ .OK then
    call (.release inum)
    return (Result.IOERR, none)
  call (.release inum)
  return (Result.OK, some (info a))

def getfile (inum : Inum) : Action (ℤ × Option FileInfo) :=
  getInfo vars (fun a => ⟨a.size.toUInt64, a.atime.toUInt64, a.mtime.toUInt64, a.ctime.toUInt64⟩) inum

def getsymlink (inum : Inum) : Action (ℤ × Option SymlinkInfo) :=
  getInfo vars (fun a => ⟨a.size.toUInt64, a.atime.toUInt64, a.mtime.toUInt64, a.ctime.toUInt64⟩) inum

def getdir (inum : Inum) : Action (ℤ × Option DirInfo) :=
  getInfo vars (fun a => ⟨a.atime.toUInt64, a.mtime.toUInt64, a.ctime.toUInt64⟩) inum

def setattr (ino : Inum) (size : ℕ) : Action ℤ := do
  call (.acquire ino)
  let (ret, a) ← call (.getattr ino vars.attr)
  if ret ≠ .OK then
    call (.release ino)
    return statusCode ret
  let (_, buf) ← call (.get ino [])
  let buf :=
    if a.size.toNat < size then buf ++ List.replicate (size - a.size.toNat) 0
    else if size < a.size.toNat then buf.take size
    else buf
  let _ ← call (.put ino buf)
  call (.release ino)
  return Result.OK

def addfile (parent : Inum) (name : Bytes) (inoOut : Inum) (t : ExtentType) : Action (ℤ × Inum) := do
  call (.acquire parent)
  let (_, inoOut) ← call (.create t.code inoOut)
  let (_, buf) ← call (.get parent [])
  let buf := buf ++ (encode name ++ [32] ++ filename inoOut ++ [32])
  let _ ← call (.put parent buf)
  call (.release parent)
  return (Result.OK, inoOut)

def create (parent : Inum) (name : Bytes) (inoOut : Inum) : Action (ℤ × Inum) :=
  addfile parent name inoOut .T_FILE

def mkdir (parent : Inum) (name : Bytes) (inoOut : Inum) : Action (ℤ × Inum) :=
  addfile parent name inoOut .T_DIR

/-- `found` is untouched if the parent is no directory. -/
def find (parent : Inum) (name : Bytes) (found : Bool) (inoOut : Inum) : Action (ℤ × Bool × Inum) := do
  let (_, attr) ← call (.getattr parent vars.attr)
  if attr.type ≠ ExtentType.T_DIR.code then return (Result.EXIST, found, inoOut)
  let (_, buf) ← call (.get parent [])
  match (tokens buf).find? fun pass => uncode pass.1 = name with
  | some pass => return (Result.OK, true, n2i vars.finum pass.2)
  | none => return (Result.IOERR, false, inoOut)

def lookup (parent : Inum) (name : Bytes) (found : Bool) (inoOut : Inum) :
    Action (ℤ × Bool × Inum) := do
  call (.acquire parent)
  let result ← find vars parent name found inoOut
  call (.release parent)
  return result

def readdir (dir : Inum) (list : List Dirent) : Action (ℤ × List Dirent) := do
  call (.acquire dir)
  let directory ← isdir vars dir
  if !directory then
    call (.release dir)
    return (Result.EXIST, list)
  let (_, buf) ← call (.get dir [])
  let list := list ++ (tokens buf).map fun pass => ⟨uncode pass.1, n2i vars.finum pass.2⟩
  call (.release dir)
  return (Result.OK, list)

def read (ino : Inum) (size off : ℕ) (data : Bytes) : Action (ℤ × Bytes) := do
  call (.acquire ino)
  let (_, data) ← call (.get ino data)
  let data :=
    if off ≤ data.length then
      if off + size ≤ data.length then (data.drop off).take size
      else (data.drop off).take (data.length - off)
    else []
  call (.release ino)
  return (Result.OK, data)

/-- `data` are the `size` bytes to write. -/
def write (ino : Inum) (off : ℕ) (data : Bytes) : Action (ℤ × ℕ) := do
  let size := data.length
  call (.acquire ino)
  let (_, buf) ← call (.get ino [])
  let buf := if buf.length < size + off then resize buf (off + size) else buf
  let buf := buf.take off ++ data ++ buf.drop (off + size)
  let _ ← call (.put ino buf)
  let _ ← call (.flush ino)
  call (.release ino)
  return (Result.OK, size)

/-- The passes of `unlink` over a directory: the flag, and the text that is kept. -/
def unlinkPasses (name : Bytes) : List (Bytes × Bytes) → Bool → Bytes → Action (Bool × Bytes)
  | [], flag, result => return (flag, result)
  | (fileName, node) :: rest, flag, result => do
    if uncode fileName = name then
      let _ ← call (.remove (n2i vars.finum node))
      unlinkPasses name rest true result
    else unlinkPasses name rest flag (result ++ (fileName ++ [32] ++ node ++ [32]))

/-- What `unlink` does behind the loop. -/
def unlinkFinish (parent : Inum) (flag : Bool) (result : Bytes) : Action ℤ := do
  if !flag then
    call (.release parent)
    return Result.ENOENT
  let _ ← call (.put parent result)
  call (.release parent)
  return Result.OK

def unlink (parent : Inum) (name : Bytes) : Action ℤ := do
  call (.acquire parent)
  let (_, buf) ← call (.get parent [])
  let (flag, result) ← unlinkPasses vars name (tokens buf) false []
  unlinkFinish parent flag result

def symlink (parent : Inum) (link name : Bytes) (ino : Inum) : Action (ℤ × Inum) := do
  let (r, ino) ← addfile parent name ino .T_SYMLK
  call (.acquire ino)
  let _ ← call (.put ino link)
  let _ ← call (.flush ino)
  call (.release ino)
  return (r, ino)

def readlink (ino : Inum) (result : Bytes) : Action (ℤ × Bytes) := do
  call (.acquire ino)
  let (_, result) ← call (.get ino result)
  call (.release ino)
  return (Result.OK, result)

end YfsClient

end NaiveFileSystem.Yfs
