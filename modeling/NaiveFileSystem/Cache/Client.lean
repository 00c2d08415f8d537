import NaiveFileSystem.Extent.Store

/-!
# The write-back cache of a client

`extent_client_cache` over the remote calls it makes. An entry holds attributes
only, the content as the server has it, a content not written back yet, or a
removal not sent yet. A call may fail and leave its output argument untouched;
a fresh entry starts with whatever its attributes happen to hold.
-/

namespace NaiveFileSystem.Cache

open Extent

abbrev ExtentId := UInt64

abbrev Bytes := List UInt8

abbrev Attr := InodeManager.Attr

/-- `cl->call`: the server's state after a call, its status, and what is stored in
the output argument. The `remove` of `flush` passes no argument, since its only
one is taken for the reply. -/
structure Rpc (σ : Type) where
  create : σ → UInt32 → σ × Status × Option ExtentId
  put : σ → ExtentId → Bytes → σ × Status
  get : σ → ExtentId → σ × Status × Option Bytes
  getattr : σ → ExtentId → σ × Status × Option Attr
  removeBare : σ → σ × Status × Option ExtentId

/-- The clock, and what uninitialised attributes hold. -/
structure Ambient where
  now : UInt32
  junk : Attr

inductive EntryState
  | NONE | UPDATE | MODIFIED | REMOVED
  deriving DecidableEq, Repr

/-- `extent_client_cache::extent`. -/
structure Entry where
  data : Bytes
  mState : EntryState
  attr : Attr

abbrev Table := ExtentId → Option Entry

/-- `extent_cache_table[id]`, which makes an entry where there is none. -/
def Table.entry (cache : Table) (env : Ambient) (id : ExtentId) : Entry :=
  (cache id).getD ⟨[], .NONE, env.junk⟩

namespace ExtentClientCache

variable {σ : Type}

/-- What `create` does to the table once the call is back. -/
def recordCreated (env : Ambient) (type : UInt32) (id : ExtentId) (cache : Table) : Table :=
  let entry := cache.entry env id
  Function.update cache id (some { entry with
    mState := .NONE, attr := { entry.attr with atime := env.now, type := type, size := 0 } })

def create (rpc : Rpc σ) (env : Ambient) (type : UInt32) (id : ExtentId) (cache : Table)
    (server : σ) : (Table × σ) × Status × ExtentId :=
  let (server, ret, reply) := rpc.create server type
  let id := reply.getD id
  ((recordCreated env type id cache, server), ret, id)

def get (rpc : Rpc σ) (env : Ambient) (eid : ExtentId) (buf : Bytes) (cache : Table)
    (server : σ) : (Table × σ) × Status × Bytes :=
  match cache eid with
  | some entry =>
    match entry.mState with
    | .UPDATE | .MODIFIED =>
      ((Function.update cache eid (some { entry with attr := { entry.attr with atime := env.now } }),
        server), .OK, entry.data)
    | .NONE =>
      let (server, ret, reply) := rpc.get server eid
      let buf := reply.getD buf
      if ret = .OK then
        ((Function.update cache eid (some { data := buf, mState := .UPDATE, attr :=
          { entry.attr with atime := env.now, size := .ofNat buf.length } }), server), ret, buf)
      else ((cache, server), ret, buf)
    | .REMOVED => ((cache, server), .NOENT, buf)
  | none =>
    let (server, _, reply) := rpc.get server eid
    let buf := reply.getD buf
    -- The status of the first call is lost.
    let (server, ret, reply) := rpc.getattr server eid
    let attr := reply.getD env.junk
    if ret = .OK then
      ((Function.update cache eid (some { data := buf, mState := .UPDATE, attr :=
        { attr with atime := env.now } }), server), ret, buf)
    else ((cache, server), ret, buf)

/-- What `getattr` does to the table once the call is back. -/
def recordAttr (eid : ExtentId) (attr : Attr) (cache : Table) : Table :=
  Function.update cache eid (some ⟨((cache eid).map Entry.data).getD [], .NONE, attr⟩)

def getattr (rpc : Rpc σ) (eid : ExtentId) (attr : Attr) (cache : Table) (server : σ) :
    (Table × σ) × Status × Attr :=
  match cache eid with
  | some entry =>
    match entry.mState with
    | .UPDATE | .MODIFIED | .NONE => ((cache, server), .OK, entry.attr)
    | .REMOVED => ((cache, server), .NOENT, attr)
  | none =>
    let (server, ret, reply) := rpc.getattr server eid
    let attr := reply.getD attr
    if ret = .OK then ((recordAttr eid attr cache, server), ret, attr)
    else ((cache, server), ret, attr)

def put (env : Ambient) (eid : ExtentId) (buf : Bytes) (cache : Table) : Table × Status :=
  let entry := cache.entry env eid
  if entry.mState = .REMOVED then (cache, .NOENT)
  else
    (Function.update cache eid (some { data := buf, mState := .MODIFIED, attr :=
      { entry.attr with mtime := env.now, ctime := env.now, size := .ofNat buf.length } }), .OK)

def remove (env : Ambient) (eid : ExtentId) (cache : Table) : Table × Status :=
  let entry := cache.entry env eid
  if entry.mState = .REMOVED then (cache, .NOENT)
  else (Function.update cache eid (some { entry with mState := .REMOVED }), .OK)

def flush (rpc : Rpc σ) (eid : ExtentId) (cache : Table) (server : σ) : (Table × σ) × Status :=
  match cache eid with
  | some entry =>
    match entry.mState with
    | .MODIFIED =>
      let (server, ret) := rpc.put server eid entry.data
      ((Function.update cache eid none, server), ret)
    | .REMOVED =>
      let (server, ret, reply) := rpc.removeBare server
      ((Function.update cache (reply.getD eid) none, server), ret)
    | .NONE | .UPDATE => ((Function.update cache eid none, server), .OK)
  | none => ((cache, server), .NOENT)

end ExtentClientCache

end NaiveFileSystem.Cache
