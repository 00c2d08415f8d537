import NaiveFileSystem.Cache.Faithful

/-!
# The uncached client

`extent_client`, which sends every call to the server, and one type for the calls
of either client. The cached client answers a call from its table where it can;
the uncached one has no flush.
-/

namespace NaiveFileSystem.Cache

open Extent

/-- The remote calls of `extent_client`: its `remove` passes the reply argument that
`flush` leaves out. -/
structure DirectRpc (σ : Type) extends Rpc σ where
  remove : σ → ExtentId → σ × Status

inductive Call
  | create (type : ExtentType) (id : ExtentId)
  | get (eid : ExtentId) (buf : Bytes)
  | getattr (eid : ExtentId) (attr : Attr)
  | put (eid : ExtentId) (buf : Bytes)
  | remove (eid : ExtentId)
  | flush (eid : ExtentId)

inductive Answer
  | created (ret : Status) (id : ExtentId)
  | data (ret : Status) (buf : Bytes)
  | attr (ret : Status) (attr : Attr)
  | done (ret : Status)

namespace ExtentClient

variable {σ : Type}

def create (rpc : Rpc σ) (type : UInt32) (id : ExtentId) (server : σ) : σ × Status × ExtentId :=
  let (server, ret, reply) := rpc.create server type
  (server, ret, reply.getD id)

def get (rpc : Rpc σ) (eid : ExtentId) (buf : Bytes) (server : σ) : σ × Status × Bytes :=
  let (server, ret, reply) := rpc.get server eid
  (server, ret, reply.getD buf)

def getattr (rpc : Rpc σ) (eid : ExtentId) (attr : Attr) (server : σ) : σ × Status × Attr :=
  let (server, ret, reply) := rpc.getattr server eid
  (server, ret, reply.getD attr)

def put (rpc : Rpc σ) (eid : ExtentId) (buf : Bytes) (server : σ) : σ × Status :=
  rpc.put server eid buf

def remove (rpc : DirectRpc σ) (eid : ExtentId) (server : σ) : σ × Status :=
  rpc.remove server eid

/-- One call; a flush is left out. -/
def call (rpc : DirectRpc σ) (server : σ) : Call → σ × Option Answer
  | .create type id =>
    let (server, ret, id) := create rpc.toRpc type.code id server
    (server, some (.created ret id))
  | .get eid buf =>
    let (server, ret, buf) := get rpc.toRpc eid buf server
    (server, some (.data ret buf))
  | .getattr eid attr =>
    let (server, ret, attr) := getattr rpc.toRpc eid attr server
    (server, some (.attr ret attr))
  | .put eid buf =>
    let (server, ret) := put rpc.toRpc eid buf server
    (server, some (.done ret))
  | .remove eid =>
    let (server, ret) := remove rpc eid server
    (server, some (.done ret))
  | .flush _ => (server, none)

end ExtentClient

def ExtentClientCache.call {σ : Type} (rpc : Rpc σ) (env : Ambient) (cache : Table) (server : σ) :
    Call → (Table × σ) × Answer
  | .create type id =>
    let (result, ret, id) := create rpc env type.code id cache server
    (result, .created ret id)
  | .get eid buf =>
    let (result, ret, buf) := get rpc env eid buf cache server
    (result, .data ret buf)
  | .getattr eid attr =>
    let (result, ret, attr) := getattr rpc eid attr cache server
    (result, .attr ret attr)
  | .put eid buf =>
    let (cache, ret) := put env eid buf cache
    ((cache, server), .done ret)
  | .remove eid =>
    let (cache, ret) := remove env eid cache
    ((cache, server), .done ret)
  | .flush eid =>
    let (result, ret) := flush rpc eid cache server
    (result, .done ret)

/-- Which id a create hands out depends on which inodes are live alone. -/
def Uniform (rpc : Rpc Contents) : Prop :=
  ∀ one other type, (∀ eid, one eid = none ↔ other eid = none) →
    (rpc.create one type).2 = (rpc.create other type).2

def Creates (rpc : Rpc Contents) (contents : Contents) (type : ExtentType) (id : ExtentId) : Prop :=
  (rpc.create contents type.code).2 = (.OK, some id) ∧ contents id = none

theorem Creates.run {rpc : Rpc Contents} (faithful : Faithful rpc) {contents : Contents}
    {type : ExtentType} {id : ExtentId} (creates : Creates rpc contents type id) :
    rpc.create contents type.code =
      (Function.update contents id (some ⟨type, []⟩), .OK, some id) := by
  have answered : rpc.create contents type.code =
      ((rpc.create contents type.code).1, .OK, some id) := Prod.ext rfl creates.1
  rw [answered, faithful.create contents type _ id answered]

theorem Creates.congr {rpc : Rpc Contents} (uniform : Uniform rpc) {one other : Contents}
    {type : ExtentType} {id : ExtentId} (creates : Creates rpc one type id)
    (same : ∀ eid, one eid = none ↔ other eid = none) : Creates rpc other type id := by
  refine ⟨?_, (same id).mp creates.2⟩
  rw [← uniform one other type.code same]
  exact creates.1

def plainDirect (pick : ExtentId) : DirectRpc Contents where
  toRpc := plain pick
  remove contents id := (Function.update contents id none, .OK)

def rooted : Contents := fun id => if id = 1 then some ⟨.T_DIR, []⟩ else none

/-- More bytes than an inode's direct blocks hold. -/
@[irreducible] def many : Bytes := List.replicate 51201 97

theorem uniform_plain (pick : ExtentId) : Uniform (plain pick) := fun _ _ _ _ => rfl

end NaiveFileSystem.Cache
