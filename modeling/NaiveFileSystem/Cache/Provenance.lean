import NaiveFileSystem.Cache.Direct
import NaiveFileSystem.Lib.Transition

/-!
# Where cached content comes from

One client over any server, each of whose calls may fail. The content of a successful
`get` of the server and the content of the client's last put are kept beside the
table. A clean entry has the first and a modified one the second, as long as no `get`
of an absent entry fails on the server before its attributes arrive.
-/

namespace NaiveFileSystem.Cache

open Extent Transition

variable {σ : Type}

/-- A call that fails leaves its output argument untouched, any other stores in it. -/
structure Lossy (rpc : Rpc σ) : Prop where
  create : ∀ server type, (rpc.create server type).2.1 = .OK ↔ (rpc.create server type).2.2 ≠ none
  get : ∀ server eid, (rpc.get server eid).2.1 = .OK ↔ (rpc.get server eid).2.2 ≠ none
  getattr : ∀ server eid,
    (rpc.getattr server eid).2.1 = .OK ↔ (rpc.getattr server eid).2.2 ≠ none

/-- The client, the server, the last content that each extent was fetched with, and
the last content put into it. -/
structure Provenance (σ : Type) where
  table : Table
  server : σ
  fetched : ExtentId → Option Bytes
  lastPut : ExtentId → Option Bytes

/-- The content that a successful `get` of the server returns, where the call makes one. -/
def Provenance.obtained (state : Provenance σ) (rpc : Rpc σ) (eid : ExtentId) : Option Bytes :=
  match (state.table eid).map Entry.mState with
  | none | some .NONE =>
    if (rpc.get state.server eid).2.1 = .OK then (rpc.get state.server eid).2.2 else none
  | _ => none

def Provenance.fetchedAfter (state : Provenance σ) (rpc : Rpc σ) : Call → ExtentId → Option Bytes
  | .get eid _ =>
    match state.obtained rpc eid with
    | some data => Function.update state.fetched eid (some data)
    | none => state.fetched
  | _ => state.fetched

def Provenance.lastPutAfter (state : Provenance σ) : Call → Answer → ExtentId → Option Bytes
  | .put eid buf, .done .OK => Function.update state.lastPut eid (some buf)
  | _, _ => state.lastPut

def Provenance.Step (state : Provenance σ) (rpc : Rpc σ) (call : Call) (answer : Answer)
    (next : Provenance σ) : Prop :=
  ∃ env, ExtentClientCache.call rpc env state.table state.server call =
      ((next.table, next.server), answer) ∧
    next.fetched = state.fetchedAfter rpc call ∧ next.lastPut = state.lastPutAfter call answer

def Provenance.Loses (state : Provenance σ) (rpc : Rpc σ) : Call → Prop
  | .get eid _ => state.table eid = none ∧ (rpc.get state.server eid).2.1 ≠ .OK ∧
      (rpc.getattr (rpc.get state.server eid).1 eid).2.1 = .OK
  | _ => False

/-- Any calls, over a server whose calls may fail. -/
def fetching : System (Provenance σ) Call where
  init state := ∀ eid, state.table eid = none
  step state call next := ∃ rpc answer, Lossy rpc ∧ state.Step rpc call answer next

/-- Those runs in which no status of a `get` is lost. -/
def fetchingCarefully : System (Provenance σ) Call where
  init := (fetching (σ := σ)).init
  step state call next := ∃ rpc answer, Lossy rpc ∧ ¬ state.Loses rpc call ∧
    state.Step rpc call answer next

def Provenance.Clean (state : Provenance σ) : Prop :=
  ∀ eid entry, state.table eid = some entry → entry.mState = .UPDATE →
    state.fetched eid = some entry.data

/-- A `get` answers with what was fetched or put last, and not at all if the server
fails to answer it. -/
def Provenance.Truthful (state : Provenance σ) (rpc : Rpc σ) (answer : Answer)
    (next : Provenance σ) : Call → Prop
  | .get eid _ =>
    (∀ data, answer = .data .OK data → next.fetched eid = some data ∨ next.lastPut eid = some data) ∧
    (state.table eid = none → (rpc.get state.server eid).2.1 ≠ .OK →
      (∃ ret data, answer = .data ret data ∧ ret ≠ .OK) ∧ next.table = state.table)
  | _ => True

structure Sourced (fetched lastPut : Option Bytes) (entry : Entry) : Prop where
  clean : entry.mState = .UPDATE → fetched = some entry.data
  modified : entry.mState = .MODIFIED → lastPut = some entry.data

def Provenance.Kept (state : Provenance σ) : Prop :=
  ∀ eid entry, state.table eid = some entry → Sourced (state.fetched eid) (state.lastPut eid) entry

section Steps

variable {state next : Provenance σ} {rpc : Rpc σ} {eid : ExtentId}

theorem Provenance.Kept.clean (kept : state.Kept) : state.Clean :=
  fun eid entry here clean => (kept eid entry here).clean clean

theorem Sourced.of_none {fetched lastPut : Option Bytes} {entry : Entry}
    (bare : entry.mState = .NONE ∨ entry.mState = .REMOVED) : Sourced fetched lastPut entry := by
  refine ⟨fun clean => ?_, fun modified => ?_⟩
  · rcases bare with none | removed
    · cases none.symm.trans clean
    · cases removed.symm.trans clean
  · rcases bare with none | removed
    · cases none.symm.trans modified
    · cases removed.symm.trans modified

theorem Provenance.Kept.step (kept : state.Kept) {slot : Option Entry}
    (table : next.table = Function.update state.table eid slot)
    (others : ∀ other, other ≠ eid →
      next.fetched other = state.fetched other ∧ next.lastPut other = state.lastPut other)
    (here : ∀ entry, slot = some entry → Sourced (next.fetched eid) (next.lastPut eid) entry) :
    next.Kept := by
  intro other entry inside
  rw [table] at inside
  by_cases same : other = eid
  · subst same
    rw [Function.update_self] at inside
    exact here entry inside
  · rw [Function.update_of_ne same] at inside
    rw [(others other same).1, (others other same).2]
    exact kept other entry inside

inductive GetOutcome (rpc : Rpc σ) (cache : Table) (server : σ) (eid : ExtentId) :
    (Table × σ) × Status × Bytes → Prop
  | cached {entry touched : Entry} {after : σ} : cache eid = some entry →
      entry.mState = .UPDATE ∨ entry.mState = .MODIFIED →
      touched.mState = entry.mState → touched.data = entry.data → GetOutcome rpc cache server eid
        ((Function.update cache eid (some touched), after), .OK, entry.data)
  | fetched {data : Bytes} {attr : Attr} {after : σ} : Bare (cache eid) →
      (rpc.get server eid).2 = (.OK, some data) → GetOutcome rpc cache server eid
        ((Function.update cache eid (some ⟨data, .UPDATE, attr⟩), after), .OK, data)
  | refused {ret : Status} {data : Bytes} {after : σ} : ret ≠ .OK →
      GetOutcome rpc cache server eid ((cache, after), ret, data)
  | lost {result : (Table × σ) × Status × Bytes} : cache eid = none →
      (rpc.get server eid).2.1 ≠ .OK → (rpc.getattr (rpc.get server eid).1 eid).2.1 = .OK →
      GetOutcome rpc cache server eid result

theorem get_outcome (lossy : Lossy rpc) (env : Ambient) (cache : Table) (server : σ)
    (eid : ExtentId) (buf : Bytes) :
    GetOutcome rpc cache server eid (ExtentClientCache.get rpc env eid buf cache server) := by
  rcases got : rpc.get server eid with ⟨middle, ret, reply⟩
  rcases asked : rpc.getattr middle eid with ⟨after, ret', attr⟩
  have stored : ret = .OK → ∃ data, reply = some data := by
    intro fine
    have stores := (lossy.get server eid).mp (by rw [got]; exact fine)
    rw [got] at stores
    exact Option.ne_none_iff_exists'.mp stores
  cases here : cache eid with
  | none =>
    have bare : Bare (cache eid) := here ▸ bare_none
    by_cases answered : ret' = .OK
    · by_cases fine : ret = .OK
      · obtain ⟨data, rfl⟩ := stored fine
        simp only [ExtentClientCache.get, here, got, asked, answered, if_true, Option.getD_some]
        exact .fetched bare (by rw [got, fine])
      · exact .lost here (by rw [got]; exact fine) (by rw [got, asked]; exact answered)
    · simp only [ExtentClientCache.get, here, got, asked, if_neg answered]
      exact .refused answered
  | some entry =>
    cases kind : entry.mState with
    | NONE =>
      by_cases fine : ret = .OK
      · obtain ⟨data, rfl⟩ := stored fine
        simp only [ExtentClientCache.get, here, kind, got, fine, if_true, Option.getD_some]
        refine .fetched ?_ (by rw [got, fine])
        rw [here]
        rintro other ⟨⟩
        exact kind
      · simp only [ExtentClientCache.get, here, kind, got, if_neg fine]
        exact .refused fine
    | UPDATE =>
      simp only [ExtentClientCache.get, here, kind]
      exact .cached here (.inl kind) kind.symm rfl
    | MODIFIED =>
      simp only [ExtentClientCache.get, here, kind]
      exact .cached here (.inr kind) kind.symm rfl
    | REMOVED =>
      simp only [ExtentClientCache.get, here, kind]
      exact .refused (by simp)

theorem Provenance.obtained_bare (bare : Bare (state.table eid)) {data : Bytes}
    (got : (rpc.get state.server eid).2 = (.OK, some data)) :
    state.obtained rpc eid = some data := by
  have asks : (state.table eid).map Entry.mState = none ∨
      (state.table eid).map Entry.mState = some .NONE := by
    rcases bare.cases with absent | ⟨entry, here, kind⟩
    · exact .inl (by rw [absent]; rfl)
    · exact .inr (by rw [here, Option.map_some, kind])
  unfold Provenance.obtained
  rcases asks with absent | attributes
  · simp [absent, got]
  · simp [attributes, got]

theorem Provenance.obtained_full {entry : Entry} (here : state.table eid = some entry)
    (full : entry.mState = .UPDATE ∨ entry.mState = .MODIFIED) : state.obtained rpc eid = none := by
  unfold Provenance.obtained
  rcases full with clean | modified
  · simp [here, clean]
  · simp [here, modified]

theorem Provenance.Kept.get (kept : state.Kept) (lossy : Lossy rpc) {buf : Bytes}
    {answer : Answer} (careful : ¬ state.Loses rpc (.get eid buf))
    (steps : state.Step rpc (.get eid buf) answer next) :
    next.Kept ∧ state.Truthful rpc answer next (.get eid buf) := by
  obtain ⟨env, ran, fetched, put⟩ := steps
  obtain ⟨table, server, nextFetched, lastPut⟩ := next
  simp only [ExtentClientCache.call, Provenance.lastPutAfter] at ran fetched put
  have outcome := get_outcome lossy env state.table state.server eid buf
  generalize ExtentClientCache.get rpc env eid buf state.table state.server = result at *
  have others : ∀ other, other ≠ eid →
      nextFetched other = state.fetched other ∧ lastPut other = state.lastPut other := by
    intro other different
    rw [fetched, put]
    refine ⟨?_, rfl⟩
    simp only [Provenance.fetchedAfter]
    cases state.obtained rpc eid with
    | none => rfl
    | some data => exact Function.update_of_ne different _ _
  cases outcome with
  | @cached entry touched after here full same bytes =>
    have sourced := kept eid entry here
    have none := @Provenance.obtained_full _ state rpc eid entry here full
    simp only [Provenance.fetchedAfter, none] at fetched
    cases ran
    refine ⟨kept.step rfl others fun other inside => ?_, fun data answered => ?_, fun absent => ?_⟩
    · cases inside
      simp only [fetched, put]
      exact ⟨fun clean => by rw [bytes]; exact sourced.clean (same.symm.trans clean),
        fun modified => by rw [bytes]; exact sourced.modified (same.symm.trans modified)⟩
    · cases answered
      simp only [fetched, put]
      exact full.imp sourced.clean sourced.modified
    · cases here.symm.trans absent
  | @fetched data attr after bare got =>
    have content := Provenance.obtained_bare bare got
    simp only [Provenance.fetchedAfter, content] at fetched
    cases ran
    have known : nextFetched eid = some data := by rw [fetched, Function.update_self]
    refine ⟨kept.step rfl others fun other inside => ?_, fun other answered => ?_,
      fun _ failed => absurd (congrArg Prod.fst got) failed⟩
    · cases inside
      exact ⟨fun _ => known, fun modified => by cases modified⟩
    · cases answered
      exact .inl known
  | @refused ret data after failed =>
    cases ran
    refine ⟨kept.step (Function.update_eq_self eid _).symm others fun entry inside => ?_,
      fun other answered => ?_, fun _ _ => ⟨⟨ret, data, rfl, failed⟩, rfl⟩⟩
    · -- What a refused call obtained all the same concerns no entry with a content.
      have unread : entry.mState = .UPDATE ∨ entry.mState = .MODIFIED →
          nextFetched = state.fetched := by
        intro full
        rw [fetched]
        simp only [Provenance.fetchedAfter,
          @Provenance.obtained_full _ state rpc eid entry inside full]
      have sourced := kept eid entry inside
      rw [put]
      exact ⟨fun clean => by rw [unread (.inl clean)]; exact sourced.clean clean, sourced.modified⟩
    · cases answered
      exact absurd rfl failed
  | lost absent failed answered => exact absurd ⟨absent, failed, answered⟩ careful

theorem getattr_table (arg : Attr) (cache : Table) (server : σ) :
    (ExtentClientCache.getattr rpc eid arg cache server).1.1 = cache ∨
      ∃ reply, (ExtentClientCache.getattr rpc eid arg cache server).1.1 =
        Function.update cache eid (some ⟨[], .NONE, reply⟩) := by
  cases here : cache eid with
  | none =>
    rcases got : rpc.getattr server eid with ⟨after, ret, reply⟩
    by_cases fine : ret = .OK
    · refine .inr ⟨reply.getD arg, ?_⟩
      simp only [ExtentClientCache.getattr, here, got, if_pos fine,
        ExtentClientCache.recordAttr_absent here]
    · exact .inl (by simp only [ExtentClientCache.getattr, here, got, if_neg fine])
  | some entry =>
    cases kind : entry.mState with
    | NONE | UPDATE | MODIFIED | REMOVED =>
      exact .inl (by simp only [ExtentClientCache.getattr, here, kind])

theorem flush_table (cache : Table) (server : σ) :
    (ExtentClientCache.flush rpc eid cache server).1.1 = cache ∨
      ∃ id, (ExtentClientCache.flush rpc eid cache server).1.1 = Function.update cache id none := by
  cases here : cache eid with
  | none => exact .inl (by simp only [ExtentClientCache.flush, here])
  | some entry =>
    cases kind : entry.mState with
    | NONE | UPDATE | MODIFIED =>
      exact .inr ⟨eid, by simp only [ExtentClientCache.flush, here, kind]⟩
    | REMOVED =>
      rcases got : rpc.removeBare server with ⟨after, ret, reply⟩
      exact .inr ⟨reply.getD eid, by simp only [ExtentClientCache.flush, here, kind, got]⟩

theorem Provenance.Kept.emptied (kept : state.Kept) {slot : Option Entry}
    (table : next.table = state.table ∨ next.table = Function.update state.table eid slot)
    (bare : ∀ entry, slot = some entry → entry.mState = .NONE ∨ entry.mState = .REMOVED)
    (fetched : next.fetched = state.fetched) (put : next.lastPut = state.lastPut) : next.Kept := by
  rcases table with same | changed
  · rw [Provenance.Kept, same, fetched, put]
    exact kept
  · refine kept.step changed (fun _ _ => ⟨congrFun fetched _, congrFun put _⟩)
      fun entry inside => ?_
    exact .of_none (bare entry inside)

theorem Provenance.Kept.call (kept : state.Kept) (lossy : Lossy rpc) {call : Call} {answer : Answer}
    (careful : ¬ state.Loses rpc call) (steps : state.Step rpc call answer next) :
    next.Kept ∧ state.Truthful rpc answer next call := by
  cases call with
  | get eid buf => exact kept.get lossy careful steps
  | create type arg =>
    obtain ⟨env, ran, fetched, put⟩ := steps
    have table := congrArg (·.1.1) ran
    refine ⟨kept.emptied (.inr table.symm) (fun entry inside => ?_) fetched put, trivial⟩
    cases inside
    exact .inl rfl
  | getattr eid arg =>
    obtain ⟨env, ran, fetched, put⟩ := steps
    have table : next.table = (ExtentClientCache.getattr rpc eid arg state.table state.server).1.1 :=
      (congrArg (·.1.1) ran).symm
    refine ⟨?_, trivial⟩
    rcases @getattr_table _ rpc eid arg state.table state.server with same | ⟨reply, filled⟩
    · exact @Provenance.Kept.emptied _ _ _ eid kept none (.inl (table.trans same)) (by simp)
        fetched put
    · refine kept.emptied (.inr (table.trans filled)) (fun entry inside => ?_) fetched put
      cases inside
      exact .inl rfl
  | put eid buf =>
    obtain ⟨env, ran, fetched, put⟩ := steps
    refine ⟨?_, trivial⟩
    by_cases gone : (state.table.entry env eid).mState = .REMOVED
    · simp only [ExtentClientCache.call, ExtentClientCache.put, if_pos gone] at ran
      obtain ⟨table, server, nextFetched, lastPut⟩ := next
      cases ran
      exact @Provenance.Kept.emptied _ _ _ eid kept none (.inl rfl) (by simp) fetched put
    · simp only [ExtentClientCache.call, ExtentClientCache.put, if_neg gone] at ran
      obtain ⟨table, server, nextFetched, lastPut⟩ := next
      cases ran
      have noted : lastPut = Function.update state.lastPut eid (some buf) := put
      refine kept.step rfl (fun other different => ⟨congrFun fetched other, ?_⟩)
        fun entry inside => ?_
      · simp only [noted, Function.update_of_ne different]
      · cases inside
        refine ⟨fun clean => (by cases clean), fun _ => ?_⟩
        simp only [noted, Function.update_self]
  | remove eid =>
    obtain ⟨env, ran, fetched, put⟩ := steps
    refine ⟨?_, trivial⟩
    by_cases gone : (state.table.entry env eid).mState = .REMOVED
    · simp only [ExtentClientCache.call, ExtentClientCache.remove, if_pos gone] at ran
      obtain ⟨table, server, nextFetched, lastPut⟩ := next
      cases ran
      exact @Provenance.Kept.emptied _ _ _ eid kept none (.inl rfl) (by simp) fetched put
    · simp only [ExtentClientCache.call, ExtentClientCache.remove, if_neg gone] at ran
      obtain ⟨table, server, nextFetched, lastPut⟩ := next
      cases ran
      refine kept.emptied (.inr rfl) (fun entry inside => ?_) fetched put
      cases inside
      exact .inr rfl
  | flush eid =>
    obtain ⟨env, ran, fetched, put⟩ := steps
    have table : next.table = (ExtentClientCache.flush rpc eid state.table state.server).1.1 :=
      (congrArg (·.1.1) ran).symm
    refine ⟨?_, trivial⟩
    rcases @flush_table _ rpc eid state.table state.server with same | ⟨id, erased⟩
    · exact @Provenance.Kept.emptied _ _ _ eid kept none (.inl (table.trans same)) (by simp)
        fetched put
    · exact kept.emptied (.inr (table.trans erased)) (by simp) fetched put

end Steps

/-- As long as no status of a `get` is lost, clean entries have the content that was
fetched, and every `get` is truthful. -/
theorem content_provenance {state : Provenance σ} (reachable : Reachable fetchingCarefully state) :
    state.Clean ∧ ∀ rpc call answer next, Lossy rpc → ¬ state.Loses rpc call →
      state.Step rpc call answer next → state.Truthful rpc answer next call := by
  have kept : state.Kept := by
    refine reachable.invariant (fun start begins eid entry here => ?_) ?_
    · cases (begins eid).symm.trans here
    · rintro earlier call later kept ⟨rpc, answer, lossy, careful, steps⟩
      exact (kept.call lossy careful steps).1
  exact ⟨kept.clean, fun _ _ _ _ lossy careful steps => (kept.call lossy careful steps).2⟩

def answering (ret : Status) (reply : Option Bytes) : Rpc Unit where
  create server _ := (server, .OK, some 2)
  put server _ _ := (server, .OK)
  get server _ := (server, ret, reply)
  getattr server _ := (server, .OK, some ⟨0, 0, 0, 0, 0⟩)
  removeBare server := (server, .OK, some 2)

theorem answering_lossy {ret : Status} {reply : Option Bytes} (stores : ret = .OK ↔ reply ≠ none) :
    Lossy (answering ret reply) := by
  refine ⟨fun _ _ => ?_, fun _ _ => stores, fun _ _ => ?_⟩
  · simp [answering]
  · simp [answering]

def uncached : Provenance Unit := ⟨fun _ => none, (), fun _ => none, fun _ => none⟩

def gotten (fetched : ExtentId → Option Bytes) (data : Bytes) : Provenance Unit :=
  ⟨Function.update (fun _ => none) 5 (some ⟨data, .UPDATE, ⟨0, 0, 0, 0, 0⟩⟩), (), fetched,
    fun _ => none⟩

theorem uncached_get {ret : Status} {reply : Option Bytes} (buf : Bytes) :
    uncached.Step (answering ret reply) (.get 5 buf) (.data .OK (reply.getD buf))
      (gotten (uncached.fetchedAfter (answering ret reply) (.get 5 buf)) (reply.getD buf)) := by
  refine ⟨⟨0, ⟨0, 0, 0, 0, 0⟩⟩, ?_, rfl, rfl⟩
  simp [ExtentClientCache.call, ExtentClientCache.get, uncached, answering, gotten]

theorem content_provenance_get :
    (gotten (Function.update (fun _ => none) 5 (some [104, 105])) [104, 105]).Clean := by
  have lossy : Lossy (answering .OK (some [104, 105])) := answering_lossy (by simp)
  have steps := @uncached_get .OK (some [104, 105]) []
  have begins : Reachable fetchingCarefully uncached := ⟨[], .start fun _ => rfl⟩
  have careful : ¬ uncached.Loses (answering .OK (some [104, 105])) (.get 5 []) :=
    fun loses => loses.2.1 rfl
  exact (content_provenance (begins.extend ⟨_, _, lossy, careful, steps⟩)).1

/-- The server fails on the content and answers with the attributes: the caller's
buffer is cached as if it had come from the server. -/
theorem content_invented :
    ¬ ∀ state : Provenance Unit, Reachable fetching state →
      state.Clean ∧ ∀ rpc call answer next, Lossy rpc → state.Step rpc call answer next →
        state.Truthful rpc answer next call := by
  intro claimed
  have lossy : Lossy (answering (.library (-1)) none) := answering_lossy (by simp)
  have steps := @uncached_get (.library (-1)) none [120]
  have begins : Reachable fetching uncached := ⟨[], .start fun _ => rfl⟩
  obtain ⟨⟨ret, data, answered, failed⟩, _⟩ :=
    ((claimed uncached begins).2 _ _ _ _ lossy steps).2 rfl (by simp [answering])
  cases answered
  exact failed rfl

end NaiveFileSystem.Cache
