import NaiveFileSystem.Cache.Faithful
import NaiveFileSystem.Yfs.Client

/-!
# One client at work

The calls of a single client, whose locks are all free, on its cache and the
server. As long as the server is faithful, a call on one extent leaves the slots
of the others alone.
-/

namespace NaiveFileSystem.Yfs

open Extent Cache

def handle {σ : Type} (rpc : Rpc σ) (env : Ambient) :
    (op : Op) → Table × σ → (Table × σ) × op.Reply
  | .create type id, (cache, server) => ExtentClientCache.create rpc env type id cache server
  | .get eid buf, (cache, server) => ExtentClientCache.get rpc env eid buf cache server
  | .getattr eid attr, (cache, server) => ExtentClientCache.getattr rpc eid attr cache server
  | .put eid buf, (cache, server) =>
    let (cache, ret) := ExtentClientCache.put env eid buf cache
    ((cache, server), ret)
  | .remove eid, (cache, server) =>
    let (cache, ret) := ExtentClientCache.remove env eid cache
    ((cache, server), ret)
  | .flush eid, (cache, server) => ExtentClientCache.flush rpc eid cache server
  | .acquire _, state | .release _, state => (state, ())

@[simp] theorem handle_acquire {σ : Type} (rpc : Rpc σ) (env : Ambient) (lid : UInt64)
    (state : Table × σ) : handle rpc env (.acquire lid) state = (state, ()) := rfl

@[simp] theorem handle_release {σ : Type} (rpc : Rpc σ) (env : Ambient) (lid : UInt64)
    (state : Table × σ) : handle rpc env (.release lid) state = (state, ()) := rfl

/-- The server hands out `id`. -/
def Hands (rpc : Rpc Contents) (id : Inum) : Prop :=
  ∀ contents type, ∃ next, rpc.create contents (ExtentType.code type) = (next, .OK, some id)

theorem hands_plain (id : Inum) : Hands (plain id) id := fun _ _ => ⟨_, rfl⟩

/-- The client reads `data` from the directory `dir`, and finds its type. -/
structure Holds (dir : Inum) (data : Bytes) (state : Table × Contents) : Prop where
  reads : Reads (state.1 dir) (state.2 dir) data
  typed : ∀ entry, state.1 dir = some entry → entry.attr.type = ExtentType.T_DIR.code
  file : state.1 dir = none → ∀ file, state.2 dir = some file → file.type = .T_DIR

/-- What calls leave of a directory: the client reads `data`, and finds the type as before. -/
structure Rewrites (dir : Inum) (data : Bytes) (state next : Table × Contents) : Prop where
  reads : Reads (next.1 dir) (next.2 dir) data
  holds : ∀ {old}, Holds dir old state → Holds dir data next

structure OnlyAt (eid : ExtentId) (state next : Table × Contents) : Prop where
  table : ∀ other, other ≠ eid → next.1 other = state.1 other
  server : next.2 = state.2

section Calls

variable {rpc : Rpc Contents} {dir eid : Inum} {data : Bytes} {state next : Table × Contents}

theorem Holds.congr (holds : Holds dir data state) (table : next.1 dir = state.1 dir)
    (server : next.2 dir = state.2 dir) : Holds dir data next := by
  obtain ⟨reads, typed, file⟩ := holds
  exact ⟨by rwa [table, server], by rwa [table], by rwa [table, server]⟩

theorem Holds.of_entry {cache : Table} {server : Contents} {entry : Entry}
    (reads : Reads (some entry) (server dir) data)
    (type : entry.attr.type = ExtentType.T_DIR.code) :
    Holds dir data (Function.update cache dir (some entry), server) where
  reads := by
    show Reads (Function.update cache dir (some entry) dir) (server dir) data
    rwa [Function.update_self]
  typed other here := by
    have same : Function.update cache dir (some entry) dir = some other := here
    rw [Function.update_self] at same
    rw [← Option.some.inj same, type]
  file none := by
    have same : Function.update cache dir (some entry) dir = Option.none := none
    rw [Function.update_self] at same
    cases same

theorem OnlyAt.of_update {cache : Table} {server : Contents} (slot : Option Entry) :
    OnlyAt eid (cache, server) (Function.update cache eid slot, server) where
  table _ different := Function.update_of_ne different _ _
  server := rfl

theorem OnlyAt.trans {last : Table × Contents} (first : OnlyAt eid state next)
    (second : OnlyAt eid next last) : OnlyAt eid state last where
  table other different := (second.table other different).trans (first.table other different)
  server := second.server.trans first.server

theorem Rewrites.of_same (reads : Reads (state.1 dir) (state.2 dir) data)
    (table : next.1 dir = state.1 dir) (server : next.2 dir = state.2 dir) :
    Rewrites dir data state next where
  reads := by rwa [table, server]
  holds := fun ⟨_, typed, file⟩ => Holds.congr ⟨reads, typed, file⟩ table server

theorem Rewrites.of_entry {entry : Entry} (reads : Reads (some entry) (state.2 dir) data)
    (type : ∀ {old}, Holds dir old state → entry.attr.type = ExtentType.T_DIR.code) :
    Rewrites dir data state (Function.update state.1 dir (some entry), state.2) where
  reads := by
    show Reads (Function.update state.1 dir (some entry) dir) (state.2 dir) data
    rwa [Function.update_self]
  holds holds := .of_entry reads (type holds)

theorem Rewrites.trans {before : Bytes} {last : Table × Contents}
    (first : Rewrites dir before state next) (second : Rewrites dir data next last) :
    Rewrites dir data state last where
  reads := second.reads
  holds holds := second.holds (first.holds holds)

theorem get_rewrites (faithful : Faithful rpc) (env : Ambient) (buf : Bytes)
    (reads : Reads (state.1 dir) (state.2 dir) data) :
    ∃ next, handle rpc env (.get dir buf) state = (next, .OK, data) ∧
      Rewrites dir data state next ∧ next.1 dir ≠ none ∧ OnlyAt dir state next := by
  obtain ⟨entry, ran, fetched⟩ := ExtentClientCache.get_ok faithful env buf reads
  refine ⟨_, ran, .of_entry fetched.reads fun holds => ?_, by simp, .of_update _⟩
  cases slot : state.1 dir with
  | some old => rw [fetched.type old slot, holds.typed old slot]
  | none =>
    obtain ⟨file, found, _⟩ := Option.map_eq_some_iff.mp (reads.held slot)
    rw [fetched.newType slot file found, holds.file slot file found]

theorem get_holds (faithful : Faithful rpc) (env : Ambient) (buf : Bytes)
    (holds : Holds dir data state) :
    ∃ next, handle rpc env (.get dir buf) state = (next, .OK, data) ∧ Holds dir data next ∧
      OnlyAt dir state next := by
  obtain ⟨next, got, rewrites, _, only⟩ := get_rewrites faithful env buf holds.reads
  exact ⟨next, got, rewrites.holds holds, only⟩

theorem getattr_holds (faithful : Faithful rpc) (env : Ambient) (attr : Attr)
    (holds : Holds dir data state) :
    ∃ next a, handle rpc env (.getattr dir attr) state = (next, .OK, a) ∧
      a.type = ExtentType.T_DIR.code ∧ Holds dir data next ∧ OnlyAt dir state next := by
  rcases ExtentClientCache.getattr_cases faithful attr with
    ⟨entry, ret, reply, here, ran, answer⟩ | ⟨absent, reply, ran, matching⟩
  · obtain ⟨rfl, rfl⟩ := answer (holds.reads.not_removed entry here)
    exact ⟨state, entry.attr, ran, holds.typed entry here, holds, fun _ _ => rfl, rfl⟩
  · have held := holds.reads.held absent
    obtain ⟨file, found, _⟩ := Option.map_eq_some_iff.mp held
    have type : reply.type = ExtentType.T_DIR.code := by
      rw [(matching file found).1, holds.file absent file found]
    refine ⟨_, reply, ran, type, .of_entry (.inr (.inr ⟨fun entry here => ?_, held⟩)) type,
      .of_update _⟩
    rw [← Option.some.inj here]

/-- Behind a get the entry is there, so the type survives a put. -/
theorem put_rewrites (rpc : Rpc Contents) (env : Ambient) (buf : Bytes)
    (reads : Reads (state.1 dir) (state.2 dir) data) (present : state.1 dir ≠ none) :
    ∃ next, handle rpc env (.put dir buf) state = (next, .OK) ∧ Rewrites dir buf state next ∧
      OnlyAt dir state next := by
  obtain ⟨attr, ran, _, type⟩ := ExtentClientCache.put_ok env buf reads.not_removed
  obtain ⟨entry, here⟩ := Option.ne_none_iff_exists'.mp present
  refine ⟨(Function.update state.1 dir (some ⟨buf, .MODIFIED, attr⟩), state.2), ?_,
    .of_entry (.inl ⟨_, rfl, rfl, rfl⟩) fun holds => ?_, .of_update _⟩
  · simp only [handle, ran]
  · rw [type, Table.entry, here]
    exact holds.typed entry here

theorem create_made (faithful : Faithful rpc) (env : Ambient) {id : Inum} {type : ExtentType}
    {contents : Contents} (made : rpc.create state.2 type.code = (contents, .OK, some id))
    (inoOut : Inum) : handle rpc env (.create type.code inoOut) state =
      ((ExtentClientCache.recordCreated env type.code id state.1,
        Function.update state.2 id (some ⟨type, []⟩)), .OK, id) := by
  have contents := faithful.create _ _ _ _ made
  simp only [handle, ExtentClientCache.create, made, Option.getD_some, contents]

theorem putFlush_other (faithful : Faithful rpc) (env : Ambient) (buf : Bytes)
    (stays : ∀ entry, state.1 eid = some entry → entry.mState ≠ .REMOVED)
    (live : state.2 eid ≠ none) :
    ∃ written flushed ret, handle rpc env (.put eid buf) state = (written, .OK) ∧
      handle rpc env (.flush eid) written = (flushed, ret) ∧
      (∀ other, other ≠ eid → flushed.1 other = state.1 other ∧ flushed.2 other = state.2 other) ∧
      flushed.1 eid = none ∧ flushed.2 eid = (state.2 eid).map fun file => ⟨file.type, buf⟩ := by
  obtain ⟨attr, put, _⟩ := @ExtentClientCache.put_ok state.1 eid env buf stays
  have reads : Reads (Function.update state.1 eid (some ⟨buf, .MODIFIED, attr⟩) eid) (state.2 eid)
      buf := .inl ⟨_, Function.update_self .., rfl, rfl⟩
  obtain ⟨ret, flushed⟩ := ExtentClientCache.flush_ok faithful reads live
  refine ⟨(Function.update state.1 eid (some ⟨buf, .MODIFIED, attr⟩), state.2), _, ret, ?_, flushed,
    fun other different => ?_, ?_, ?_⟩
  · simp only [handle, put]
  · simp [different]
  · exact Function.update_self _ _ _
  · exact Function.update_self _ _ _

end Calls

end NaiveFileSystem.Yfs
