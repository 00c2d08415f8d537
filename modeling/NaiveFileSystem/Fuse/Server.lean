import Mathlib.Data.List.TakeWhile
import NaiveFileSystem.Yfs.Client

/-!
# The FUSE server

The handlers of `fuse.cc` as programs over the calls of `yfs_client`, each of which sends
one reply. The layout of directory records is that of the FUSE library.
-/

namespace NaiveFileSystem.Fuse

open Extent Cache Yfs Program

/-- The bytes of a C string, without the terminating NUL. -/
structure CString where
  bytes : Bytes
  noNul : 0 ∉ bytes
  deriving DecidableEq

@[ext] theorem CString.ext {first second : CString} (same : first.bytes = second.bytes) :
    first = second := by
  cases first
  cases second
  cases same
  rfl

/-- `text.c_str()`, which a C function reads up to the first NUL. -/
def cStr (text : Bytes) : CString where
  bytes := text.takeWhile (· ≠ 0)
  noNul inside := by simpa using List.mem_takeWhile_imp inside

@[simp] theorem cStr_bytes (text : CString) : cStr text.bytes = text := by
  ext1
  apply List.takeWhile_eq_self_iff.mpr
  intro byte inside
  have other : byte ≠ 0 := fun zero => text.noNul (zero ▸ inside)
  simpa using other

def S_IFDIR : UInt32 := 0o040000
def S_IFREG : UInt32 := 0o100000
def S_IFLNK : UInt32 := 0o120000

/-- `struct stat`, as far as it is filled in. -/
structure Stat where
  ino : Inum
  mode : UInt32
  nlink : UInt64
  size : UInt64
  atime : UInt64
  mtime : UInt64
  ctime : UInt64
  deriving DecidableEq

/-- `bzero`, and the inum. -/
def Stat.cleared (inum : Inum) : Stat := ⟨inum, 0, 0, 0, 0, 0, 0⟩

/-- `struct fuse_entry_param`. The timeouts are in seconds. -/
structure EntryParam where
  ino : Inum
  generation : UInt64
  attr : Stat
  attrTimeout : ℕ
  entryTimeout : ℕ
  deriving DecidableEq

/-- In yfs, timeouts and generations are always 0. -/
def entryParam (ino : Inum) (attr : Stat) : EntryParam := ⟨ino, 0, attr, 0, 0⟩

inductive Errno
  | ENOENT | EEXIST | ENOTDIR | ENOSYS | ENOTEMPTY
  deriving DecidableEq

/-- The bits of `to_set` that are looked at. -/
structure ToSet where
  size : Bool
  atime : Bool
  mtime : Bool
  deriving DecidableEq

/-- The requests of the kernel. -/
inductive Request
  | getattr (ino : Inum)
  | setattr (ino : Inum) (size : ℕ) (toSet : ToSet)
  | read (ino : Inum) (size off : ℕ)
  | write (ino : Inum) (buf : Bytes) (off : ℕ)
  | create (parent : Inum) (name : CString)
  | mknod (parent : Inum) (name : CString)
  | mkdir (parent : Inum) (name : CString)
  | lookup (parent : Inum) (name : CString)
  | readdir (ino : Inum) (size off : ℕ)
  | open_ (ino : Inum)
  | unlink (parent : Inum) (name : CString)
  | symlink (link : CString) (parent : Inum) (name : CString)
  | readlink (ino : Inum)
  | statfs
  deriving DecidableEq

/-- The replies; `done` is `fuse_reply_err(req, 0)`. -/
inductive Reply
  | err (errno : Errno)
  | done
  | attr (st : Stat)
  | buf (data : Bytes)
  | write (count : ℕ)
  | create (e : EntryParam)
  | entry (e : EntryParam)
  | opened
  | readlink (link : CString)
  | statfs (namemax bsize : ℕ)
  deriving DecidableEq

/-- `fuse_dirent_size`, and the record that `fuse_add_dirent` writes of a name, an inum and
the offset of the next record. -/
structure Library where
  direntSize : ℕ → ℕ
  addDirent : CString → Inum → ℕ → Bytes

structure Dirbuf where
  p : Bytes
  size : ℕ

def dirbufAdd (lib : Library) (b : Dirbuf) (name : CString) (ino : Inum) : Dirbuf :=
  let size := b.size + lib.direntSize name.bytes.length
  ⟨b.p ++ lib.addDirent name ino size, size⟩

def replyBufLimited (b : Dirbuf) (off maxsize : ℕ) : Reply :=
  if off < b.size then .buf ((b.p.drop off).take (min (b.size - off) maxsize))
  else .buf []

section Handlers

variable (lib : Library) (vars : Yfs.Locals)

def getattr (inum : Inum) : Action (ℤ × Stat) := do
  let st := Stat.cleared inum
  -- The message asks as well.
  let _ ← YfsClient.isfile vars inum
  let file ← YfsClient.isfile vars inum
  if file then
    let (ret, info) ← YfsClient.getfile vars inum
    if ret ≠ Result.OK then return (ret, st)
    return (Result.OK, info.elim st fun info =>
      ⟨inum, S_IFREG ||| 0o666, 1, info.size, info.atime, info.mtime, info.ctime⟩)
  let symlink ← YfsClient.issymlink vars inum
  if symlink then
    let (ret, info) ← YfsClient.getsymlink vars inum
    if ret ≠ Result.OK then return (ret, st)
    return (Result.OK, info.elim st fun info =>
      ⟨inum, S_IFLNK ||| 0o777, 1, info.size, info.atime, info.mtime, info.ctime⟩)
  let dir ← YfsClient.isdir vars inum
  if dir then
    let (ret, info) ← YfsClient.getdir vars inum
    if ret ≠ Result.OK then return (ret, st)
    return (Result.OK, info.elim st fun info =>
      ⟨inum, S_IFDIR ||| 0o777, 2, 0, info.atime, info.mtime, info.ctime⟩)
  return (Result.OK, st)

def fuseserverGetattr (ino : Inum) : Action Reply := do
  let (ret, st) ← getattr vars ino
  if ret ≠ Result.OK then return .err .ENOENT
  return .attr st

def fuseserverSetattr (ino : Inum) (size : ℕ) (toSet : ToSet) : Action Reply := do
  if toSet.size || toSet.atime || toSet.mtime then
    if toSet.size then
      let _ ← YfsClient.setattr vars ino size
      let (_, st) ← getattr vars ino
      return .attr st
    let (_, st) ← getattr vars ino
    return .attr st
  return .err .ENOSYS

def fuseserverRead (ino : Inum) (size off : ℕ) : Action Reply := do
  let (r, buf) ← YfsClient.read ino size off []
  if r = Result.OK then return .buf buf
  return .err .ENOENT

def fuseserverWrite (ino : Inum) (buf : Bytes) (off : ℕ) : Action Reply := do
  let (r, size) ← YfsClient.write ino off buf
  if r = Result.OK then return .write size
  return .err .ENOENT

/-- `inum` is what its variable holds, and `e` what is in the output argument. -/
def fuseserverCreatehelper (parent : Inum) (name : CString) (type : ExtentType) (inum : Inum)
    (e : EntryParam) : Action (ℤ × EntryParam) := do
  let make := if type = .T_FILE then YfsClient.create else YfsClient.mkdir
  let (ret, inum) ← make parent name.bytes inum
  if ret ≠ Result.OK then return (ret, { e with generation := 0, attrTimeout := 0, entryTimeout := 0 })
  let (ret, attr) ← getattr vars inum
  return (ret, entryParam inum attr)

/-- What `create`, `mknod` and `mkdir` make of the helper's status. -/
def createReply (reply : EntryParam → Reply) (result : ℤ × EntryParam) : Reply :=
  if result.1 = Result.OK then reply result.2
  else if result.1 = Result.EXIST then .err .EEXIST
  else .err .ENOENT

def fuseserverCreate (parent : Inum) (name : CString) (inum : Inum) (e : EntryParam) :
    Action Reply := do
  let result ← fuseserverCreatehelper vars parent name .T_FILE inum e
  return createReply .create result

def fuseserverMknod (parent : Inum) (name : CString) (inum : Inum) (e : EntryParam) :
    Action Reply := do
  let result ← fuseserverCreatehelper vars parent name .T_FILE inum e
  return createReply .entry result

def fuseserverMkdir (parent : Inum) (name : CString) (inum : Inum) (e : EntryParam) :
    Action Reply := do
  let result ← fuseserverCreatehelper vars parent name .T_DIR inum e
  return createReply .entry result

def fuseserverLookup (parent : Inum) (name : CString) (ino : Inum) : Action Reply := do
  let (_, found, ino) ← YfsClient.lookup vars parent name.bytes false ino
  if found then
    let (_, attr) ← getattr vars ino
    return .entry (entryParam ino attr)
  return .err .ENOENT

def fuseserverReaddir (ino : Inum) (size off : ℕ) : Action Reply := do
  let dir ← YfsClient.isdir vars ino
  if !dir then return .err .ENOTDIR
  let (_, entries) ← YfsClient.readdir vars ino []
  let b := entries.foldl (fun b entry => dirbufAdd lib b (cStr entry.name) entry.inum) ⟨[], 0⟩
  return replyBufLimited b off size

def fuseserverUnlink (parent : Inum) (name : CString) : Action Reply := do
  let r ← YfsClient.unlink vars parent name.bytes
  if r = Result.OK then return .done
  if r = Result.ENOENT then return .err .ENOENT
  return .err .ENOTEMPTY

def fuseserverSymlink (link : CString) (parent : Inum) (name : CString) (ino : Inum) :
    Action Reply := do
  let (r, ino) ← YfsClient.symlink parent link.bytes name.bytes ino
  if r = Result.OK then
    let (_, attr) ← getattr vars ino
    return .entry (entryParam ino attr)
  if r = Result.ENOENT then return .err .ENOENT
  if r = Result.EXIST then return .err .EEXIST
  return .err .ENOTEMPTY

def fuseserverReadlink (ino : Inum) : Action Reply := do
  let (r, link) ← YfsClient.readlink ino []
  if r = Result.OK then return .readlink (cStr link)
  if r = Result.ENOENT then return .err .ENOENT
  return .err .ENOTEMPTY

/-- What uninitialised variables of the handlers hold. -/
structure Locals where
  yfs : Yfs.Locals
  inum : Inum
  e : EntryParam

/-- `fuse_session_loop` calls one handler after the other. -/
def serve (vars : Locals) : Request → Action Reply
  | .getattr ino => fuseserverGetattr vars.yfs ino
  | .setattr ino size toSet => fuseserverSetattr vars.yfs ino size toSet
  | .read ino size off => fuseserverRead ino size off
  | .write ino buf off => fuseserverWrite ino buf off
  | .create parent name => fuseserverCreate vars.yfs parent name vars.inum vars.e
  | .mknod parent name => fuseserverMknod vars.yfs parent name vars.inum vars.e
  | .mkdir parent name => fuseserverMkdir vars.yfs parent name vars.inum vars.e
  | .lookup parent name => fuseserverLookup vars.yfs parent name vars.inum
  | .readdir ino size off => fuseserverReaddir lib vars.yfs ino size off
  | .open_ _ => return .opened
  | .unlink parent name => fuseserverUnlink vars.yfs parent name
  | .symlink link parent name => fuseserverSymlink vars.yfs link parent name vars.inum
  | .readlink ino => fuseserverReadlink ino
  | .statfs => return .statfs 255 512

end Handlers

end NaiveFileSystem.Fuse
