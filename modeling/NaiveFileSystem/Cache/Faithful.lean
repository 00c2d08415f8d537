import NaiveFileSystem.Cache.Client

/-!
# A cache over a faithful server

What each call of the cache does when the server stores and returns contents
faithfully. An entry reads as a content when the client's next `get` returns it:
from the entry itself, or from the server behind an attribute-only entry.
-/

namespace NaiveFileSystem.Cache

open Extent

/-- What the extent server holds. -/
abbrev Contents := ExtentId → Option File

/-- The calls on existing extents succeed, on the contents as they are, and a create
that succeeds makes an empty one. -/
structure Faithful (rpc : Rpc Contents) : Prop where
  create : ∀ contents type next id,
    rpc.create contents (ExtentType.code type) = (next, .OK, some id) →
      next = Function.update contents id (some ⟨type, []⟩)
  put : ∀ contents id file data, contents id = some file →
    rpc.put contents id data = (Function.update contents id (some ⟨file.type, data⟩), .OK)
  get : ∀ contents id file, contents id = some file →
    rpc.get contents id = (contents, .OK, some file.data)
  getattr : ∀ contents id, ∃ attr, rpc.getattr contents id = (contents, .OK, some attr) ∧
    ∀ file, contents id = some file →
      attr.type = file.type.code ∧ attr.size = .ofNat file.data.length

def typeOf (code : UInt32) : ExtentType :=
  if code = 1 then .T_DIR else if code = 2 then .T_FILE else .T_SYMLK

theorem typeOf_code (type : ExtentType) : typeOf type.code = type := by cases type <;> rfl

/-- A faithful server that hands out the id `pick`. -/
def plain (pick : ExtentId) : Rpc Contents where
  create contents type :=
    (Function.update contents pick (some ⟨typeOf type, []⟩), .OK, some pick)
  put contents id data :=
    (Function.update contents id ((contents id).map fun file => ⟨file.type, data⟩), .OK)
  get contents id := (contents, .OK, (contents id).map File.data)
  getattr contents id := (contents, .OK, some (match contents id with
    | some file => ⟨file.type.code, 0, 0, 0, .ofNat file.data.length⟩
    | none => ⟨0, 0, 0, 0, 0⟩))
  removeBare contents := (contents, .library (-2), none)

theorem faithful_plain (pick : ExtentId) : Faithful (plain pick) where
  create contents type next id ran := by
    simp only [plain, typeOf_code, Prod.mk.injEq, Option.some.injEq, true_and] at ran
    rw [← ran.1, ran.2]
  put contents id file data found := by simp [plain, found]
  get contents id file found := by simp [plain, found]
  getattr contents id := by
    refine ⟨_, rfl, fun file found => ?_⟩
    simp [found]

/-- The entry holds no content: it is absent or attribute-only. -/
def Bare (slot : Option Entry) : Prop := ∀ entry, slot = some entry → entry.mState = .NONE

/-- The client reads `data`, from its entry or from the server. -/
def Reads (slot : Option Entry) (file : Option File) (data : Bytes) : Prop :=
  (∃ entry, slot = some entry ∧ entry.mState = .MODIFIED ∧ entry.data = data) ∨
  (∃ entry, slot = some entry ∧ entry.mState = .UPDATE ∧ entry.data = data ∧
    file.map File.data = some data) ∨
  (Bare slot ∧ file.map File.data = some data)

structure Fetched (slot : Option Entry) (file : Option File) (data : Bytes) (entry : Entry) :
    Prop where
  content : entry.data = data
  state : entry.mState = .MODIFIED ∨ (entry.mState = .UPDATE ∧ file.map File.data = some data)
  type : ∀ old, slot = some old → entry.attr.type = old.attr.type
  newType : slot = none → ∀ found, file = some found → entry.attr.type = found.type.code
  size : (∀ old, slot = some old → old.mState ≠ .NONE → old.attr.size = .ofNat old.data.length) →
    entry.attr.size = .ofNat data.length

theorem Fetched.of_some {slot : Option Entry} {file : Option File} {data : Bytes}
    {old entry : Entry} (here : slot = some old) (content : entry.data = data)
    (state : entry.mState = .MODIFIED ∨ (entry.mState = .UPDATE ∧ file.map File.data = some data))
    (type : entry.attr.type = old.attr.type)
    (size : (old.mState ≠ .NONE → old.attr.size = .ofNat old.data.length) →
      entry.attr.size = .ofNat data.length) : Fetched slot file data entry where
  content := content
  state := state
  type other same := by
    cases here.symm.trans same
    exact type
  newType none := by cases here.symm.trans none
  size sized := size (sized old here)

theorem Fetched.reads {slot : Option Entry} {file : Option File} {data : Bytes} {entry : Entry}
    (fetched : Fetched slot file data entry) : Reads (some entry) file data := by
  rcases fetched.state with modified | ⟨copied, held⟩
  · exact .inl ⟨entry, rfl, modified, fetched.content⟩
  · exact .inr (.inl ⟨entry, rfl, copied, fetched.content, held⟩)

theorem bare_none : Bare none := fun _ missing => by cases missing

theorem Bare.not_removed {slot : Option Entry} (bare : Bare slot) (entry : Entry)
    (here : slot = some entry) : entry.mState ≠ .REMOVED := by
  simp [bare entry here]

theorem Bare.cases {slot : Option Entry} (bare : Bare slot) :
    slot = none ∨ ∃ entry, slot = some entry ∧ entry.mState = .NONE := by
  cases slot with
  | none => exact .inl rfl
  | some entry => exact .inr ⟨entry, rfl, bare entry rfl⟩

theorem Reads.not_removed {slot : Option Entry} {file : Option File} {data : Bytes}
    (reads : Reads slot file data) (entry : Entry) (here : slot = some entry) :
    entry.mState ≠ .REMOVED := by
  rcases reads with ⟨other, same, state, _⟩ | ⟨other, same, state, _⟩ | ⟨bare, _⟩
  · cases same.symm.trans here
    simp [state]
  · cases same.symm.trans here
    simp [state]
  · simp [bare entry here]

theorem Reads.held_bare {slot : Option Entry} {file : Option File} {data : Bytes}
    (reads : Reads slot file data) (bare : Bare slot) : file.map File.data = some data := by
  rcases reads with ⟨entry, here, state, _⟩ | ⟨entry, here, state, _⟩ | ⟨_, held⟩
  · cases (bare entry here).symm.trans state
  · cases (bare entry here).symm.trans state
  · exact held

theorem Reads.held {slot : Option Entry} {file : Option File} {data : Bytes}
    (reads : Reads slot file data) (absent : slot = none) : file.map File.data = some data :=
  reads.held_bare (absent ▸ bare_none)

theorem Table.erase_absent {cache : Table} {eid : ExtentId} (absent : cache eid = none) :
    Function.update cache eid none = cache := by
  rw [← absent]
  exact Function.update_eq_self eid cache

namespace ExtentClientCache

variable {rpc : Rpc Contents} {cache : Table} {server : Contents} {eid : ExtentId}

theorem bare_recordCreated (env : Ambient) (type : UInt32) (id : ExtentId) :
    Bare (recordCreated env type id cache id) := by
  intro entry here
  rw [recordCreated, Function.update_self] at here
  rw [← Option.some.inj here]

theorem recordAttr_absent (absent : cache eid = none) (attr : Attr) :
    recordAttr eid attr cache = Function.update cache eid (some ⟨[], .NONE, attr⟩) := by
  rw [recordAttr, absent]
  rfl

theorem recordCreated_of_ne (env : Ambient) (type : UInt32) {id other : ExtentId}
    (different : other ≠ id) : recordCreated env type id cache other = cache other :=
  Function.update_of_ne different _ _

theorem get_ok (faithful : Faithful rpc) (env : Ambient) (buf : Bytes) {data : Bytes}
    (reads : Reads (cache eid) (server eid) data) :
    ∃ entry, get rpc env eid buf cache server =
        ((Function.update cache eid (some entry), server), .OK, data) ∧
      Fetched (cache eid) (server eid) data entry := by
  rcases reads with ⟨entry, here, state, same⟩ | ⟨entry, here, state, same, held⟩ | ⟨bare, held⟩
  · refine ⟨{ entry with attr := { entry.attr with atime := env.now } }, ?_, 
      .of_some here same (.inl state) rfl fun sized => by rw [sized (by simp [state]), same]⟩
    simp only [get, here, state, same]
  · refine ⟨{ entry with attr := { entry.attr with atime := env.now } }, ?_, 
      .of_some here same (.inr ⟨state, held⟩) rfl fun sized => by
        rw [sized (by simp [state]), same]⟩
    simp only [get, here, state, same]
  · obtain ⟨file, found, rfl⟩ := Option.map_eq_some_iff.mp held
    have replied := faithful.get server eid file found
    rcases bare.cases with none | ⟨entry, here, state⟩
    · obtain ⟨attr, answered, matching⟩ := faithful.getattr server eid
      refine ⟨⟨file.data, .UPDATE, { attr with atime := env.now }⟩, ?_, rfl, .inr ⟨rfl, held⟩,
        fun old here => ?_, fun _ _ found => (matching _ found).1, fun _ => (matching file found).2⟩
      · simp only [get, none, replied, answered, Option.getD_some, if_true]
      · cases none.symm.trans here
    · refine ⟨⟨file.data, .UPDATE,
        { entry.attr with atime := env.now, size := .ofNat file.data.length }⟩, ?_,
        .of_some here rfl (.inr ⟨rfl, held⟩) rfl fun _ => rfl⟩
      simp only [get, here, state, replied, Option.getD_some, if_true]

theorem getattr_cases (faithful : Faithful rpc) (attr : Attr) :
    (∃ entry ret reply, cache eid = some entry ∧
      getattr rpc eid attr cache server = ((cache, server), ret, reply) ∧
      (entry.mState ≠ .REMOVED → ret = .OK ∧ reply = entry.attr)) ∨
    (cache eid = none ∧ ∃ reply, getattr rpc eid attr cache server =
        ((Function.update cache eid (some ⟨[], .NONE, reply⟩), server), .OK, reply) ∧
      ∀ file, server eid = some file →
        reply.type = file.type.code ∧ reply.size = .ofNat file.data.length) := by
  cases here : cache eid with
  | none =>
    obtain ⟨reply, answered, matching⟩ := faithful.getattr server eid
    refine .inr ⟨rfl, reply, ?_, matching⟩
    simp only [getattr, here, answered, Option.getD_some, if_true, recordAttr_absent here]
  | some entry =>
    left
    cases state : entry.mState with
    | REMOVED =>
      refine ⟨entry, .NOENT, attr, rfl, ?_, fun kept => absurd state kept⟩
      simp only [getattr, here, state]
    | NONE | UPDATE | MODIFIED =>
      refine ⟨entry, _, _, rfl, ?_, fun _ => ⟨rfl, rfl⟩⟩
      simp only [getattr, here, state]

theorem getattr_status (faithful : Faithful rpc) (attr : Attr)
    (kept : ∀ entry, cache eid = some entry → entry.mState ≠ .REMOVED) :
    ∃ result reply, getattr rpc eid attr cache server = (result, .OK, reply) := by
  rcases getattr_cases faithful attr with ⟨entry, ret, reply, here, ran, answer⟩ | ⟨_, reply, ran, _⟩
  · rw [(answer (kept entry here)).1] at ran
    exact ⟨_, reply, ran⟩
  · exact ⟨_, reply, ran⟩

theorem put_ok (env : Ambient) (buf : Bytes)
    (kept : ∀ entry, cache eid = some entry → entry.mState ≠ .REMOVED) :
    ∃ attr, put env eid buf cache =
      (Function.update cache eid (some ⟨buf, .MODIFIED, attr⟩), .OK) ∧
      attr.size = .ofNat buf.length ∧ attr.type = (cache.entry env eid).attr.type := by
  have stays : (cache.entry env eid).mState ≠ .REMOVED := by
    cases here : cache eid with
    | none => simp [Table.entry, here]
    | some entry => simpa [Table.entry, here] using kept entry here
  refine ⟨{ (cache.entry env eid).attr with
    mtime := env.now, ctime := env.now, size := .ofNat buf.length }, ?_, rfl, rfl⟩
  rw [put, if_neg stays]

/-- A flush leaves the server with what the client read, and the client with no
entry. -/
theorem flush_ok (faithful : Faithful rpc) {data : Bytes}
    (reads : Reads (cache eid) (server eid) data) (live : server eid ≠ none) :
    ∃ ret, flush rpc eid cache server = ((Function.update cache eid none,
      Function.update server eid ((server eid).map fun file => ⟨file.type, data⟩)), ret) := by
  obtain ⟨file, found⟩ := Option.ne_none_iff_exists'.mp live
  have same : ∀ {data}, (server eid).map File.data = some data →
      Function.update server eid ((server eid).map fun file => ⟨file.type, data⟩) = server := by
    intro data held
    rw [found] at held ⊢
    rw [← Option.some.inj held]
    exact Function.update_eq_self_iff.mpr found.symm
  rcases reads with ⟨entry, here, state, rfl⟩ | ⟨entry, here, state, _, held⟩ | ⟨bare, held⟩
  · refine ⟨.OK, ?_⟩
    simp only [flush, here, state, faithful.put server eid file _ found, found, Option.map_some]
  · refine ⟨.OK, ?_⟩
    simp only [flush, here, state, same held]
  · rcases bare.cases with none | ⟨entry, here, state⟩
    · refine ⟨.NOENT, ?_⟩
      simp only [flush, none, same held, Table.erase_absent none]
    · refine ⟨.OK, ?_⟩
      simp only [flush, here, state, same held]

theorem flush_bare (bare : Bare (cache eid)) :
    ∃ ret, flush rpc eid cache server = ((Function.update cache eid none, server), ret) := by
  rcases bare.cases with none | ⟨entry, here, state⟩
  · refine ⟨.NOENT, ?_⟩
    simp only [flush, none, Table.erase_absent none]
  · refine ⟨.OK, ?_⟩
    simp only [flush, here, state]

end ExtentClientCache

end NaiveFileSystem.Cache
