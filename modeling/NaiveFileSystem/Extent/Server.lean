import NaiveFileSystem.Extent.Inode

/-!
# The extent server

The handlers of the five requests. An id is masked to 31 bits before it is used
as an inode number, and every handler that returns answers `OK`.
-/

namespace NaiveFileSystem.Extent

/-- `extent_protocol::xxstatus`; a `status` is an `int`, which may also be a code
of the RPC library. -/
inductive Status
  | OK | RPCERR | NOENT | IOERR
  | library (code : ℤ)
  deriving DecidableEq, Repr

/-- `extent_protocol::types`. -/
inductive ExtentType
  | T_DIR | T_FILE | T_SYMLK
  deriving DecidableEq, Repr

def ExtentType.code : ExtentType → UInt32
  | .T_DIR => 1
  | .T_FILE => 2
  | .T_SYMLK => 3

namespace ExtentServer

def create (im : InodeManager) (type now : UInt32) :
    Except Fault (InodeManager × Status × ℕ) := do
  let (im, id) ← im.allocInode type now
  .ok (im, .OK, id)

def put (im : InodeManager) (id : ℕ) (buf : List UInt8) (now : UInt32) :
    Except Fault (InodeManager × Status) := do
  let id := id &&& 0x7fffffff
  let size := UInt32.ofNat buf.length
  let im ← im.writeFile id buf size now
  .ok (im, .OK)

def get (im : InodeManager) (id : ℕ) (now : UInt32) :
    Except Fault (InodeManager × Status × List UInt8) := do
  let id := id &&& 0x7fffffff
  let (im, cbuf, size) ← im.readFile id now
  .ok (im, .OK, if size = 0 then [] else cbuf.take size.toNat)

def getattr (im : InodeManager) (id : ℕ) : Status × InodeManager.Attr :=
  let id := id &&& 0x7fffffff
  (.OK, im.getattr id ⟨0, 0, 0, 0, 0⟩)

def remove (im : InodeManager) (id : ℕ) : Except Fault (InodeManager × Status) := do
  let id := id &&& 0x7fffffff
  let im ← im.removeFile id
  .ok (im, .OK)

end ExtentServer

inductive Request
  | create (type : ExtentType)
  | put (id : ℕ) (buf : List UInt8)
  | get (id : ℕ)
  | getattr (id : ℕ)
  | remove (id : ℕ)

inductive Reply
  | created (ret : Status) (id : ℕ)
  | data (ret : Status) (buf : List UInt8)
  | attr (ret : Status) (a : InodeManager.Attr)
  | done (ret : Status)

/-- One request at the time `now`. -/
def ExtentServer.serve (im : InodeManager) (now : UInt32) :
    Request → Except Fault (InodeManager × Reply)
  | .create type => do
    let (im, ret, id) ← create im type.code now
    .ok (im, .created ret id)
  | .put id buf => do
    let (im, ret) ← put im id buf now
    .ok (im, .done ret)
  | .get id => do
    let (im, ret, buf) ← get im id now
    .ok (im, .data ret buf)
  | .getattr id => .ok (im, .attr (getattr im id).1 (getattr im id).2)
  | .remove id => do
    let (im, ret) ← remove im id
    .ok (im, .done ret)

end NaiveFileSystem.Extent
