import NaiveFileSystem.Cache.Faithful
import NaiveFileSystem.Lib.Transition

/-!
# Coherence of the caches

Any number of clients with a cache each, over one server. `Effect` is what the
calls do, `Allowed` the discipline of the lock layer: contents are read, written
and flushed by the owner of the lock, which flushes after its last use and before
it gives the lock up; attributes and creations need no lock. In every state the
owner of a lock reads what was put last.

A create, and a request for attributes that are not in the table, are two steps:
the server's answer, and the entry made of it. Other clients may write back between
the two. `create` takes no mutex, every other call takes the client's.
-/

namespace NaiveFileSystem.Cache

open Extent Transition

variable {κ : Type}

/-- The server and all caches; who owns which lock, and whether the owner used the
extent since its last flush; what was put last on each created extent. A create that
is answered but not recorded yet is pending, attributes that are answered but not in
the table yet are asked; the client's mutex is held for these. -/
structure State (κ : Type) where
  server : Contents
  table : κ → Table
  owner : ExtentId → Option κ
  used : ExtentId → Bool
  latest : ExtentId → Option Bytes
  pending : ExtentId → Option (κ × ExtentType)
  asked : κ → Option (ExtentId × Attr)

inductive Label (κ : Type)
  | request (client : κ) (type : ExtentType) (id : ExtentId)
  | record (client : κ) (type : ExtentType) (id : ExtentId)
  | getattr (client : κ) (eid : ExtentId) (ret : Status) (attr : Attr)
  | ask (client : κ) (eid : ExtentId) (attr : Attr)
  | note (client : κ) (eid : ExtentId) (attr : Attr)
  | get (client : κ) (eid : ExtentId) (ret : Status) (buf : Bytes)
  | put (client : κ) (eid : ExtentId) (buf : Bytes) (ret : Status)
  | flush (client : κ) (eid : ExtentId) (ret : Status)
  | grant (client : κ) (eid : ExtentId)
  | giveUp (client : κ) (eid : ExtentId)

section Effects

variable [DecidableEq κ]

def State.after (state : State κ) (client : κ) (result : Table × Contents) : State κ :=
  { state with
    table := Function.update state.table client result.1
    server := result.2 }

def State.use (state : State κ) (eid : ExtentId) (using_ : Bool) : State κ :=
  { state with used := Function.update state.used eid using_ }

inductive Effect : State κ → Label κ → State κ → Prop
  | request {state client type id rpc contents} : Faithful rpc →
      rpc.create state.server (ExtentType.code type) = (contents, .OK, some id) →
      state.server id = none →
      Effect state (.request client type id) { state with
        server := contents, pending := Function.update state.pending id (some (client, type)) }
  | record {state client type id} (env : Ambient) :
      Effect state (.record client type id) { state with
        table := Function.update state.table client
          (ExtentClientCache.recordCreated env type.code id (state.table client))
        latest := Function.update state.latest id (some [])
        pending := Function.update state.pending id none }
  | getattr {state client eid entry rpc result ret attr} (arg : Attr) : Faithful rpc →
      state.asked client = none → state.table client eid = some entry →
      ExtentClientCache.getattr rpc eid arg (state.table client) state.server =
        (result, ret, attr) →
      Effect state (.getattr client eid ret attr) (state.after client result)
  | ask {state client eid rpc contents attr} : Faithful rpc → state.asked client = none →
      state.table client eid = none →
      rpc.getattr state.server eid = (contents, .OK, some attr) →
      Effect state (.ask client eid attr) { state with
        server := contents, asked := Function.update state.asked client (some (eid, attr)) }
  | note {state client eid attr} : state.asked client = some (eid, attr) →
      Effect state (.note client eid attr) { state with
        table := Function.update state.table client
          (ExtentClientCache.recordAttr eid attr (state.table client))
        asked := Function.update state.asked client none }
  | get {state client eid rpc result ret buf} (env : Ambient) (arg : Bytes) : Faithful rpc →
      state.asked client = none →
      ExtentClientCache.get rpc env eid arg (state.table client) state.server =
        (result, ret, buf) →
      Effect state (.get client eid ret buf) ((state.after client result).use eid true)
  | put {state client eid buf cache ret} (env : Ambient) : state.asked client = none →
      ExtentClientCache.put env eid buf (state.table client) = (cache, ret) →
      Effect state (.put client eid buf ret) { (state.after client (cache, state.server)).use eid true
        with latest := Function.update state.latest eid (some buf) }
  | flush {state client eid rpc result ret} : Faithful rpc → state.asked client = none →
      ExtentClientCache.flush rpc eid (state.table client) state.server = (result, ret) →
      Effect state (.flush client eid ret) ((state.after client result).use eid false)
  | grant {state client eid} :
      Effect state (.grant client eid) { state with
        owner := Function.update state.owner eid (some client) }
  | giveUp {state client eid} :
      Effect state (.giveUp client eid) { state with owner := Function.update state.owner eid none }

/-- Contents are read and written under their lock, and of created extents only: a
create has returned and its entry is in the table (`latest` is some) before anyone
can name the extent. -/
def Allowed (state : State κ) : Label κ → Prop
  | .request _ _ _ | .getattr _ _ _ _ | .ask _ _ _ | .note _ _ _ => True
  | .record client type id => state.pending id = some (client, type)
  | .get client eid _ _ | .put client eid _ _ =>
    state.owner eid = some client ∧ state.latest eid ≠ none
  | .flush client eid _ => state.owner eid = some client
  | .grant _ eid => state.owner eid = none
  | .giveUp client eid => state.owner eid = some client ∧ state.used eid = false

/-- Clients start with empty tables over any contents. -/
def caching : System (State κ) (Label κ) where
  init state := (∀ client eid, state.table client eid = none) ∧
    (∀ eid, state.owner eid = none) ∧ (∀ eid, state.used eid = false) ∧
    (∀ eid, state.pending eid = none) ∧ (∀ client, state.asked client = none) ∧
    ∀ eid, state.latest eid = (state.server eid).map File.data
  step state label next := Allowed state label ∧ Effect state label next

end Effects

/-- Where the content of `eid` is, and what entries there are. -/
structure CoherentAt (state : State κ) (eid : ExtentId) : Prop where
  live : ∀ data, state.latest eid = some data → state.server eid ≠ none
  owned : state.used eid = true → state.owner eid ≠ none ∧ state.latest eid ≠ none
  settled : state.used eid = false → ∀ data, state.latest eid = some data →
    (state.server eid).map File.data = some data
  reads : state.used eid = true → ∀ client data, state.owner eid = some client →
    state.latest eid = some data → Reads (state.table client eid) (state.server eid) data
  bare : ∀ client, (state.used eid = false ∨ state.owner eid ≠ some client) →
    Bare (state.table client eid)
  pending : ∀ client type, state.pending eid = some (client, type) →
    state.server eid = some ⟨type, []⟩ ∧ state.latest eid = none

def Coherent (state : State κ) : Prop := ∀ eid, CoherentAt state eid

/-- An answer on its way goes where no content is. -/
def Awaited (state : State κ) : Prop := ∀ client eid attr,
  state.asked client = some (eid, attr) → Bare (state.table client eid)

section Steps

variable {state next : State κ} {client : κ} {eid other : ExtentId}

/-- The owner reads what was put last, whether it used the extent or not. -/
theorem CoherentAt.owner_reads (coherent : CoherentAt state eid) {data : Bytes}
    (owner : state.owner eid = some client) (latest : state.latest eid = some data) :
    Reads (state.table client eid) (state.server eid) data := by
  cases used : state.used eid with
  | true => exact coherent.reads used client data owner latest
  | false => exact .inr (.inr ⟨coherent.bare client (.inl used), coherent.settled used data latest⟩)

theorem CoherentAt.not_removed (coherent : CoherentAt state eid) (known : state.latest eid ≠ none)
    (entry : Entry) (here : state.table client eid = some entry) : entry.mState ≠ .REMOVED := by
  obtain ⟨data, latest⟩ := Option.ne_none_iff_exists'.mp known
  by_cases owner : state.owner eid = some client
  · exact (coherent.owner_reads owner latest).not_removed entry here
  · simp [coherent.bare client (.inr owner) entry here]

theorem CoherentAt.unknown (coherent : CoherentAt state eid) (missing : state.server eid = none) :
    state.latest eid = none := by
  cases latest : state.latest eid with
  | none => rfl
  | some data => exact absurd missing (coherent.live data latest)

theorem CoherentAt.idle (coherent : CoherentAt state eid) (unknown : state.latest eid = none) :
    state.used eid = false := by
  cases used : state.used eid with
  | false => rfl
  | true => exact absurd unknown (coherent.owned used).2

structure SameAt (state next : State κ) (eid : ExtentId) : Prop where
  server : next.server eid = state.server eid
  table : ∀ client, next.table client eid = state.table client eid
  owner : next.owner eid = state.owner eid
  used : next.used eid = state.used eid
  latest : next.latest eid = state.latest eid
  pending : next.pending eid = state.pending eid

theorem CoherentAt.congr (coherent : CoherentAt state eid) (same : SameAt state next eid) :
    CoherentAt next eid := by
  obtain ⟨server, table, owner, used, latest, pending⟩ := same
  refine ⟨?_, ?_, ?_, ?_, ?_, ?_⟩
  · rw [latest, server]
    exact coherent.live
  · rw [used, owner, latest]
    exact coherent.owned
  · rw [used, latest, server]
    exact coherent.settled
  · rw [used, owner, latest, server]
    intro inUse client
    rw [table]
    exact coherent.reads inUse client
  · rw [used, owner]
    intro client
    rw [table]
    exact coherent.bare client
  · rw [pending, server, latest]
    exact coherent.pending

theorem CoherentAt.handOver (coherent : CoherentAt state eid) (idle : state.used eid = false)
    (owner : Option κ) :
    CoherentAt { state with owner := Function.update state.owner eid owner } eid := by
  refine ⟨coherent.live, ?_, coherent.settled, ?_, fun client' _ => coherent.bare client' (.inl idle),
    coherent.pending⟩
  · simp [idle]
  · simp [idle]

theorem Coherent.handOver (coherent : Coherent state) (idle : state.used eid = false)
    (owner : Option κ) :
    Coherent { state with owner := Function.update state.owner eid owner } := by
  intro other
  by_cases same : other = eid
  · rw [same]
    exact (coherent eid).handOver idle owner
  · exact (coherent other).congr
      ⟨rfl, fun _ => rfl, Function.update_of_ne same _ _, rfl, rfl, rfl⟩

theorem CoherentAt.not_used (coherent : CoherentAt state eid) (free : state.owner eid = none) :
    state.used eid = false := by
  cases used : state.used eid with
  | false => rfl
  | true => exact absurd free (coherent.owned used).1

theorem Coherent.not_used (coherent : Coherent state) (free : state.owner eid = none) :
    state.used eid = false := (coherent eid).not_used free

/-- A client that does not own the lock of an extent has no content of it. -/
theorem CoherentAt.rival_bare (coherent : CoherentAt state eid) (owner : state.owner eid = some client)
    {rival : κ} (different : rival ≠ client) : Bare (state.table rival eid) :=
  coherent.bare rival (.inr fun same => different (Option.some.inj (same.symm.trans owner)))

theorem CoherentAt.request {id : ExtentId} (coherent : CoherentAt state id) {rpc : Rpc Contents}
    (faithful : Faithful rpc) {type : ExtentType} {contents : Contents}
    (ran : rpc.create state.server type.code = (contents, .OK, some id))
    (unknown : state.server id = none) : CoherentAt { state with
      server := contents, pending := Function.update state.pending id (some (client, type)) } id := by
  have made := faithful.create _ _ _ _ ran
  subst made
  have unused := coherent.unknown unknown
  have idle := coherent.idle unused
  refine ⟨?_, ?_, ?_, ?_, fun client' _ => coherent.bare client' (.inl idle), ?_⟩
  · simp [unused]
  · simp [idle]
  · simp [unused]
  · simp [idle]
  · intro client' type' here
    simp only [Function.update_self, Option.some.injEq, Prod.mk.injEq] at here ⊢
    exact ⟨by rw [here.2], unused⟩

variable [DecidableEq κ]

theorem slot_update (table : κ → Table) (client client' : κ) (eid other : ExtentId)
    (slot : Option Entry) :
    Function.update table client (Function.update (table client) eid slot) client' other =
      if client' = client ∧ other = eid then slot else table client' other := by
  by_cases same : client' = client
  · rw [same, Function.update_self]
    by_cases here : other = eid
    · rw [here, Function.update_self, if_pos ⟨rfl, rfl⟩]
    · rw [Function.update_of_ne here, if_neg fun both => here both.2]
  · rw [Function.update_of_ne same, if_neg fun both => same both.1]

theorem Coherent.step (coherent : Coherent state) (client : κ)
    (table : ∃ slot, next.table = Function.update state.table client
      (Function.update (state.table client) eid slot))
    (others : ∀ other, other ≠ eid → next.server other = state.server other ∧
      next.owner other = state.owner other ∧ next.used other = state.used other ∧
      next.latest other = state.latest other ∧ next.pending other = state.pending other)
    (here : CoherentAt next eid) : Coherent next := by
  intro other
  by_cases same : other = eid
  · rw [same]
    exact here
  · obtain ⟨slot, table⟩ := table
    obtain ⟨server, owner, used, latest, pending⟩ := others other same
    refine (coherent other).congr ⟨server, fun client' => ?_, owner, used, latest, pending⟩
    rw [table, slot_update, if_neg fun both => same both.2]

/-! Each call, at its own extent. -/

theorem CoherentAt.record {id : ExtentId} (coherent : CoherentAt state id) {type : ExtentType}
    (pending : state.pending id = some (client, type)) (env : Ambient) :
    CoherentAt { state with
      table := Function.update state.table client
        (ExtentClientCache.recordCreated env type.code id (state.table client))
      latest := Function.update state.latest id (some [])
      pending := Function.update state.pending id none } id := by
  obtain ⟨held, unused⟩ := coherent.pending client type pending
  have idle := coherent.idle unused
  refine ⟨?_, ?_, ?_, ?_, fun client' _ => ?_, ?_⟩
  · simp [held]
  · simp [idle]
  · simp [held]
  · simp [idle]
  · by_cases same : client' = client
    · simpa [same] using ExtentClientCache.bare_recordCreated env type.code id
    · simpa [same] using coherent.bare client' (.inl idle)
  · simp

theorem CoherentAt.bared (coherent : CoherentAt state eid) (bare : Bare (state.table client eid))
    {slot : Option Entry} (attributes : Bare slot) (asked : κ → Option (ExtentId × Attr)) :
    CoherentAt { state with
      table := Function.update state.table client (Function.update (state.table client) eid slot)
      asked := asked } eid := by
  refine ⟨coherent.live, coherent.owned, coherent.settled,
    fun used client' data owner latest => ?_, fun client' idle => ?_, coherent.pending⟩
  · have before := coherent.reads used client' data owner latest
    show Reads (Function.update state.table client _ client' eid) (state.server eid) data
    rw [slot_update]
    split
    next both =>
      rw [both.1] at before
      exact .inr (.inr ⟨attributes, before.held_bare bare⟩)
    next => exact before
  · show Bare (Function.update state.table client _ client' eid)
    rw [slot_update]
    split
    next => exact attributes
    next => exact coherent.bare client' idle

theorem CoherentAt.getattr (coherent : CoherentAt state eid) {rpc : Rpc Contents}
    (faithful : Faithful rpc) (arg : Attr) : CoherentAt (state.after client
      (ExtentClientCache.getattr rpc eid arg (state.table client) state.server).1) eid := by
  rcases ExtentClientCache.getattr_cases faithful arg with
    ⟨entry, ret, reply, _, ran, _⟩ | ⟨absent, reply, ran, _⟩
  · rw [ran]
    simpa [State.after] using coherent
  · rw [ran]
    refine coherent.bared (absent ▸ bare_none) (fun other same => ?_) state.asked
    rw [← Option.some.inj same]

theorem CoherentAt.note (coherent : CoherentAt state eid) (bare : Bare (state.table client eid))
    (attr : Attr) : CoherentAt { state with
      table := Function.update state.table client
        (ExtentClientCache.recordAttr eid attr (state.table client))
      asked := Function.update state.asked client none } eid :=
  coherent.bared bare (fun other same => by rw [← Option.some.inj same]) _

theorem CoherentAt.get (coherent : CoherentAt state eid) {rpc : Rpc Contents} (faithful : Faithful rpc)
    (owner : state.owner eid = some client) {data : Bytes} (latest : state.latest eid = some data)
    (env : Ambient) (arg : Bytes) : CoherentAt ((state.after client
      (ExtentClientCache.get rpc env eid arg (state.table client) state.server).1).use eid true)
      eid := by
  obtain ⟨entry, ran, fetched⟩ :=
    ExtentClientCache.get_ok faithful env arg (coherent.owner_reads owner latest)
  rw [ran]
  refine ⟨coherent.live, fun _ => ?_, ?_, fun _ client' data' owner' latest' => ?_,
    fun client' idle => ?_, coherent.pending⟩
  · simp [State.use, State.after, owner, latest]
  · simp [State.use]
  · show Reads (Function.update state.table client _ client' eid) (state.server eid) data'
    cases owner.symm.trans owner'
    cases latest.symm.trans latest'
    rw [slot_update, if_pos ⟨rfl, rfl⟩]
    exact fetched.reads
  · show Bare (Function.update state.table client _ client' eid)
    have other : client' ≠ client := by
      rintro rfl
      simp [State.use, State.after, owner] at idle
    rw [slot_update, if_neg fun both => other both.1]
    exact coherent.rival_bare owner other

theorem CoherentAt.put (coherent : CoherentAt state eid) (owner : state.owner eid = some client)
    {data : Bytes} (latest : state.latest eid = some data) (env : Ambient) (buf : Bytes) :
    CoherentAt { (state.after client ((ExtentClientCache.put env eid buf (state.table client)).1,
        state.server)).use eid true with
      latest := Function.update state.latest eid (some buf) } eid := by
  have reads := coherent.owner_reads owner latest
  obtain ⟨attr, ran, _, _⟩ := ExtentClientCache.put_ok env buf reads.not_removed
  rw [ran]
  refine ⟨fun _ _ => coherent.live data latest, fun _ => ?_, ?_,
    fun _ client' data' owner' latest' => ?_, fun client' idle => ?_, fun client' type here => ?_⟩
  · simp [State.use, State.after, owner]
  · simp [State.use]
  · show Reads (Function.update state.table client _ client' eid) (state.server eid) data'
    cases owner.symm.trans owner'
    rw [slot_update, if_pos ⟨rfl, rfl⟩]
    refine .inl ⟨_, rfl, rfl, ?_⟩
    simpa [State.use, State.after] using latest'
  · show Bare (Function.update state.table client _ client' eid)
    have other : client' ≠ client := by
      rintro rfl
      simp [State.use, State.after, owner] at idle
    rw [slot_update, if_neg fun both => other both.1]
    exact coherent.rival_bare owner other
  · have unused := (coherent.pending client' type here).2
    rw [latest] at unused
    cases unused

theorem CoherentAt.flush (coherent : CoherentAt state eid) {rpc : Rpc Contents}
    (faithful : Faithful rpc) (owner : state.owner eid = some client) :
    CoherentAt ((state.after client
      (ExtentClientCache.flush rpc eid (state.table client) state.server).1).use eid false) eid := by
  cases latest : state.latest eid with
  | none =>
    have idle := coherent.idle latest
    obtain ⟨ret, ran⟩ := @ExtentClientCache.flush_bare rpc _ state.server _
      (coherent.bare client (.inl idle))
    rw [ran]
    refine ⟨coherent.live, ?_, fun _ => coherent.settled idle, ?_, fun client' _ => ?_,
      coherent.pending⟩
    · simp [State.use]
    · simp [State.use]
    · show Bare (Function.update state.table client _ client' eid)
      rw [slot_update]
      split
      next => exact bare_none
      next => exact coherent.bare client' (.inl idle)
  | some data =>
    have live := coherent.live data latest
    obtain ⟨file, found⟩ := Option.ne_none_iff_exists'.mp live
    obtain ⟨ret, ran⟩ := ExtentClientCache.flush_ok faithful (coherent.owner_reads owner latest) live
    rw [ran]
    refine ⟨fun _ _ => ?_, ?_, fun _ data' latest' => ?_, ?_, fun client' _ => ?_,
      fun client' type here => ?_⟩
    · simp [State.use, State.after, found]
    · simp [State.use]
    · cases latest.symm.trans latest'
      simp [State.use, State.after, found]
    · simp [State.use]
    · show Bare (Function.update state.table client _ client' eid)
      rw [slot_update]
      split
      next => exact bare_none
      next different => exact coherent.rival_bare owner fun same => different ⟨same, rfl⟩
    · have unused := (coherent.pending client' type here).2
      rw [latest] at unused
      cases unused

/-! Each call, with the other extents. -/

theorem Coherent.request (coherent : Coherent state) {rpc : Rpc Contents} (faithful : Faithful rpc)
    {type : ExtentType} {id : ExtentId} {contents : Contents}
    (ran : rpc.create state.server type.code = (contents, .OK, some id))
    (unknown : state.server id = none) : Coherent { state with
      server := contents, pending := Function.update state.pending id (some (client, type)) } := by
  refine coherent.step client ⟨state.table client id, by simp⟩ (fun other different => ?_)
    ((coherent id).request faithful ran unknown)
  rw [faithful.create _ _ _ _ ran]
  exact ⟨Function.update_of_ne different _ _, rfl, rfl, rfl, Function.update_of_ne different _ _⟩

theorem Coherent.record (coherent : Coherent state) {type : ExtentType} {id : ExtentId}
    (pending : state.pending id = some (client, type)) (env : Ambient) :
    Coherent { state with
      table := Function.update state.table client
        (ExtentClientCache.recordCreated env type.code id (state.table client))
      latest := Function.update state.latest id (some [])
      pending := Function.update state.pending id none } :=
  coherent.step client ⟨_, rfl⟩ (fun _ different =>
    ⟨rfl, rfl, rfl, Function.update_of_ne different _ _, Function.update_of_ne different _ _⟩)
    ((coherent id).record pending env)

theorem State.getattr_same {entry : Entry} (here : state.table client eid = some entry)
    {rpc : Rpc Contents} {arg : Attr} {result : Table × Contents} {ret : Status} {attr : Attr}
    (ran : ExtentClientCache.getattr rpc eid arg (state.table client) state.server =
      (result, ret, attr)) : state.after client result = state := by
  have same : result = (state.table client, state.server) := by
    have kept := congrArg Prod.fst ran
    simp only [ExtentClientCache.getattr, here] at kept
    cases kind : entry.mState <;> simp only [kind] at kept <;> exact kept.symm
  rw [same]
  simp [State.after]

theorem Coherent.note (coherent : Coherent state) (bare : Bare (state.table client eid)) (attr : Attr) :
    Coherent { state with
      table := Function.update state.table client
        (ExtentClientCache.recordAttr eid attr (state.table client))
      asked := Function.update state.asked client none } :=
  coherent.step client ⟨_, rfl⟩ (fun _ _ => ⟨rfl, rfl, rfl, rfl, rfl⟩) ((coherent eid).note bare attr)

theorem Coherent.get (coherent : Coherent state) {rpc : Rpc Contents} (faithful : Faithful rpc)
    (owner : state.owner eid = some client) {data : Bytes} (latest : state.latest eid = some data)
    (env : Ambient) (arg : Bytes) : Coherent ((state.after client
      (ExtentClientCache.get rpc env eid arg (state.table client) state.server).1).use eid true) := by
  have here := (coherent eid).get faithful owner latest env arg
  obtain ⟨entry, ran, _⟩ :=
    ExtentClientCache.get_ok faithful env arg ((coherent eid).owner_reads owner latest)
  rw [ran] at here ⊢
  exact coherent.step client ⟨some entry, rfl⟩ (fun other different =>
    ⟨rfl, rfl, Function.update_of_ne different _ _, rfl, rfl⟩) here

theorem Coherent.put (coherent : Coherent state) (owner : state.owner eid = some client)
    {data : Bytes} (latest : state.latest eid = some data) (env : Ambient) (buf : Bytes) :
    Coherent { (state.after client ((ExtentClientCache.put env eid buf (state.table client)).1,
        state.server)).use eid true with
      latest := Function.update state.latest eid (some buf) } := by
  have here := (coherent eid).put owner latest env buf
  obtain ⟨attr, ran, _, _⟩ := ExtentClientCache.put_ok env buf
    ((coherent eid).owner_reads owner latest).not_removed
  rw [ran] at here ⊢
  exact coherent.step client ⟨some ⟨buf, .MODIFIED, attr⟩, rfl⟩ (fun other different => ⟨rfl, rfl,
    Function.update_of_ne different _ _, Function.update_of_ne different _ _, rfl⟩) here

theorem Coherent.flush (coherent : Coherent state) {rpc : Rpc Contents} (faithful : Faithful rpc)
    (owner : state.owner eid = some client) : Coherent ((state.after client
      (ExtentClientCache.flush rpc eid (state.table client) state.server).1).use eid false) := by
  have here := (coherent eid).flush faithful owner
  cases latest : state.latest eid with
  | none =>
    obtain ⟨ret, ran⟩ := @ExtentClientCache.flush_bare rpc _ state.server _
      ((coherent eid).bare client (.inl ((coherent eid).idle latest)))
    rw [ran] at here ⊢
    exact coherent.step client ⟨none, rfl⟩ (fun other different =>
      ⟨rfl, rfl, Function.update_of_ne different _ _, rfl, rfl⟩) here
  | some data =>
    obtain ⟨ret, ran⟩ := ExtentClientCache.flush_ok faithful
      ((coherent eid).owner_reads owner latest) ((coherent eid).live data latest)
    rw [ran] at here ⊢
    exact coherent.step client ⟨none, rfl⟩ (fun other different =>
      ⟨Function.update_of_ne different _ _, rfl, Function.update_of_ne different _ _, rfl, rfl⟩) here

theorem Coherent.kept (coherent : Coherent state) (awaited : Awaited state) {label : Label κ}
    (allowed : Allowed state label) (effect : Effect state label next) : Coherent next := by
  cases effect with
  | request faithful ran unknown => exact coherent.request faithful ran unknown
  | record env => exact coherent.record allowed env
  | getattr arg _ _ here ran =>
    rw [State.getattr_same here ran]
    exact coherent
  | ask faithful _ _ ran =>
    obtain ⟨attr, answered, _⟩ := faithful.getattr state.server _
    cases answered.symm.trans ran
    exact fun eid => (coherent eid).congr ⟨rfl, fun _ => rfl, rfl, rfl, rfl, rfl⟩
  | note here => exact coherent.note (awaited _ _ _ here) _
  | get env arg faithful _ ran =>
    obtain ⟨owner, live⟩ := allowed
    obtain ⟨data, latest⟩ := Option.ne_none_iff_exists'.mp live
    have after := coherent.get faithful owner latest env arg
    rwa [ran] at after
  | @put _ _ buf _ _ env _ ran =>
    obtain ⟨owner, live⟩ := allowed
    obtain ⟨data, latest⟩ := Option.ne_none_iff_exists'.mp live
    have after := coherent.put owner latest env buf
    rwa [ran] at after
  | flush faithful _ ran =>
    have after := coherent.flush faithful allowed
    rwa [ran] at after
  | grant => exact coherent.handOver (coherent.not_used allowed) _
  | giveUp => exact coherent.handOver allowed.2 _

/-- While a client waits for an answer, its mutex keeps its table; a create, which takes
none, leaves attributes only. -/
theorem Awaited.kept (awaited : Awaited state) {label : Label κ} (effect : Effect state label next) :
    Awaited next := by
  have others : ∀ {client : κ} (cache : Table), state.asked client = none →
      ∀ other eid attr, state.asked other = some (eid, attr) →
      Bare (Function.update state.table client cache other eid) := by
    intro client cache idle other eid attr here
    have different : other ≠ client := by
      rintro rfl
      cases idle.symm.trans here
    rw [Function.update_of_ne different]
    exact awaited other eid attr here
  cases effect with
  | request _ _ _ | grant | giveUp => exact awaited
  | @record client type id env =>
    intro other eid attr here
    show Bare (Function.update state.table client _ other eid)
    by_cases same : other = client
    · subst same
      rw [Function.update_self]
      by_cases target : eid = id
      · rw [target]
        exact ExtentClientCache.bare_recordCreated env type.code id
      · rw [ExtentClientCache.recordCreated_of_ne env _ target]
        exact awaited other eid attr here
    · rw [Function.update_of_ne same]
      exact awaited other eid attr here
  | getattr _ _ _ here ran =>
    rw [State.getattr_same here ran]
    exact awaited
  | @ask client id _ _ answer _ _ absent =>
    intro other eid attr here
    by_cases same : other = client
    · subst same
      obtain ⟨rfl, rfl⟩ : id = eid ∧ answer = attr := by simpa using here
      show Bare (state.table other id)
      exact absent ▸ bare_none
    · exact awaited other eid attr ((Function.update_of_ne same _ _).symm.trans here)
  | @note client id answer _ =>
    intro other eid attr here
    by_cases same : other = client
    · subst same
      simp at here
    · show Bare (Function.update state.table client _ other eid)
      rw [Function.update_of_ne same]
      exact awaited other eid attr ((Function.update_of_ne same _ _).symm.trans here)
  | get _ _ _ idle | put _ idle | flush _ idle => exact others _ idle

theorem coherent_of_init (begins : caching.init state) : Coherent state := by
  obtain ⟨tables, owners, used, pending, _, latest⟩ := begins
  intro eid
  refine ⟨fun data here => ?_, fun inUse => ?_, fun _ data here => ?_, fun inUse => ?_,
    fun client _ => ?_, fun client type here => ?_⟩
  · rw [latest] at here
    intro missing
    simp [missing] at here
  · rw [used] at inUse
    cases inUse
  · rw [← latest]
    exact here
  · rw [used] at inUse
    cases inUse
  · rw [tables]
    exact bare_none
  · rw [pending] at here
    cases here

theorem awaited_of_init (begins : caching.init state) : Awaited state := by
  intro client eid attr here
  obtain ⟨_, _, _, _, asked, _⟩ := begins
  cases (asked client).symm.trans here

theorem coherent_of_reachable (reachable : Reachable caching state) :
    Coherent state ∧ Awaited state := by
  refine @Reachable.invariant _ _ _ (fun state => Coherent state ∧ Awaited state) ?_ ?_ _ reachable
  · exact fun state begins => ⟨coherent_of_init begins, awaited_of_init begins⟩
  · exact fun state label next ⟨coherent, awaited⟩ step =>
      ⟨coherent.kept awaited step.1 step.2, awaited.kept step.2⟩

/-- The owner of the lock gets what was put last by any client. -/
theorem get_returns_latest (reachable : Reachable caching state) {data : Bytes}
    (owner : state.owner eid = some client) (latest : state.latest eid = some data)
    {rpc : Rpc Contents} (faithful : Faithful rpc) (env : Ambient) (buf : Bytes) :
    ∃ result, ExtentClientCache.get rpc env eid buf (state.table client) state.server =
      (result, .OK, data) := by
  obtain ⟨entry, ran, _⟩ := ExtentClientCache.get_ok faithful env buf
    (((coherent_of_reachable reachable).1 eid).owner_reads owner latest)
  exact ⟨_, ran⟩

end Steps

theorem get_returns_latest_handed_over : ∃ (state : State Bool) (result : Table × Contents),
    Reachable caching state ∧ state.owner 1 = some false ∧
    ExtentClientCache.get (plain 2) ⟨0, ⟨0, 0, 0, 0, 0⟩⟩ 1 [] (state.table false) state.server =
      (result, .OK, [104, 105]) := by
  let contents : Contents := fun id => if id = 1 then some ⟨.T_DIR, []⟩ else none
  let start : State Bool := ⟨contents, fun _ _ => none, fun _ => none, fun _ => false,
    fun eid => (contents eid).map File.data, fun _ => none, fun _ => none⟩
  have begins : Reachable caching start := ⟨[], .start
    ⟨fun _ _ => rfl, fun _ => rfl, fun _ => rfl, fun _ => rfl, fun _ => rfl, fun _ => rfl⟩⟩
  let env : Ambient := ⟨0, ⟨0, 0, 0, 0, 0⟩⟩
  have granted := begins.extend (show caching.step start (.grant true 1) _ from ⟨rfl, .grant⟩)
  have written := granted.extend (show caching.step _ (.put true 1 [104, 105] .OK) _ from
    ⟨⟨rfl, by simp [start, contents]⟩, .put env rfl rfl⟩)
  have flushed := written.extend (show caching.step _ (.flush true 1 .OK) _ from
    ⟨rfl, .flush (faithful_plain 2) rfl rfl⟩)
  have free := flushed.extend (show caching.step _ (.giveUp true 1) _ from ⟨⟨rfl, rfl⟩, .giveUp⟩)
  have taken := free.extend (show caching.step _ (.grant false 1) _ from ⟨rfl, .grant⟩)
  obtain ⟨result, ran⟩ := @get_returns_latest Bool _ false 1 _ taken [104, 105] rfl rfl _
    (faithful_plain 2) env []
  exact ⟨_, result, taken, rfl, ran⟩

end NaiveFileSystem.Cache
