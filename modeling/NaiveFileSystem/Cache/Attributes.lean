import NaiveFileSystem.Cache.Coherence

/-!
# Sizes in the caches

An attribute-only entry has the size that the server's content had when the server
answered, and leaves the table only with a flush by its own client. As long as nobody
writes back a content of another length beside such an entry, or such an answer on
its way, every entry has the size that its client reads.
-/

namespace NaiveFileSystem.Cache

open Extent

variable {κ : Type}

/-- What a client was told of the size of an extent, in its table or on the way there. -/
inductive ToldSize (state : State κ) (eid : ExtentId) : κ → UInt32 → Prop
  | entry {client entry} : state.table client eid = some entry → entry.mState = .NONE →
      ToldSize state eid client entry.attr.size
  | answer {client attr} : state.asked client = some (eid, attr) →
      ToldSize state eid client attr.size

/-- A put is not too long for an `unsigned int`, and a write-back leaves every client
that was told a size of the extent, and has no content of it, with the size of the
content written. -/
def Spares (state : State κ) : Label κ → Prop
  | .put _ _ buf _ => buf.length < 2 ^ 32
  | .flush client eid _ => ∀ entry, state.table client eid = some entry → entry.mState = .MODIFIED →
    ∀ other size, ToldSize state eid other size → size = .ofNat entry.data.length
  | _ => True

/-- Attributes are only asked of created extents. -/
def Known (state : State κ) : Label κ → Prop
  | .ask _ eid _ => state.latest eid ≠ none
  | _ => True

def SlotSized (slot : Option Entry) (file : Option File) : Prop :=
  ∀ entry, slot = some entry →
    (entry.mState = .NONE → ∀ found, file = some found →
      entry.attr.size = .ofNat found.data.length) ∧
    (entry.mState ≠ .NONE → entry.attr.size = .ofNat entry.data.length)

structure SizedAt (state : State κ) (eid : ExtentId) : Prop where
  known : ∀ client, state.latest eid = none → state.table client eid = none
  slots : ∀ client, SlotSized (state.table client eid) (state.server eid)
  asked : ∀ client attr, state.asked client = some (eid, attr) → state.latest eid ≠ none ∧
    ∀ found, state.server eid = some found → attr.size = .ofNat found.data.length
  short : ∀ data, state.latest eid = some data → data.length < 2 ^ 32

def Sized (state : State κ) : Prop := ∀ eid, SizedAt state eid

theorem slotSized_none (file : Option File) : SlotSized none file := fun _ none => by cases none

theorem SlotSized.full {entry : Entry} (file : Option File) (full : entry.mState ≠ .NONE)
    (size : entry.attr.size = .ofNat entry.data.length) : SlotSized (some entry) file := by
  intro other same
  rw [← Option.some.inj same]
  exact ⟨fun bare => absurd bare full, fun _ => size⟩

theorem SlotSized.attributes {entry : Entry} {file : Option File} (bare : entry.mState = .NONE)
    (size : ∀ found, file = some found → entry.attr.size = .ofNat found.data.length) :
    SlotSized (some entry) file := by
  intro other same
  rw [← Option.some.inj same]
  exact ⟨fun _ => size, fun full => absurd bare full⟩

section Steps

variable [DecidableEq κ] {state next : State κ} {client : κ} {eid : ExtentId}

theorem Sized.step (sized : Sized state) (client : κ) (slot : Option Entry)
    (table : next.table = Function.update state.table client
      (Function.update (state.table client) eid slot))
    (others : ∀ other, other ≠ eid → next.server other = state.server other ∧
      next.latest other = state.latest other)
    (asked : ∀ client' id attr, next.asked client' = some (id, attr) →
      state.asked client' = some (id, attr))
    (answers : ∀ client' attr, state.asked client' = some (eid, attr) → next.latest eid ≠ none ∧
      ∀ found, next.server eid = some found → attr.size = .ofNat found.data.length)
    (known : next.latest eid = none → state.latest eid = none ∧ slot = none)
    (own : SlotSized slot (next.server eid))
    (rivals : ∀ rival, rival ≠ client → SlotSized (state.table rival eid) (next.server eid))
    (short : ∀ data, next.latest eid = some data → data.length < 2 ^ 32) : Sized next := by
  intro other
  by_cases same : other = eid
  · rw [same]
    refine ⟨fun client' none => ?_, fun client' => ?_,
      fun client' attr here => answers client' attr (asked client' eid attr here), short⟩
    · obtain ⟨unknown, empty⟩ := known none
      rw [table, slot_update]
      split
      next => exact empty
      next => exact (sized eid).known client' unknown
    · rw [table, slot_update]
      split
      next => exact own
      next different => exact rivals client' fun same => different ⟨same, rfl⟩
  · obtain ⟨server, latest⟩ := others other same
    have kept : ∀ client', next.table client' other = state.table client' other := fun client' => by
      rw [table, slot_update, if_neg fun both => same both.2]
    refine ⟨fun client' => ?_, fun client' => ?_, fun client' attr here => ?_, ?_⟩
    · rw [latest, kept]
      exact (sized other).known client'
    · rw [kept, server]
      exact (sized other).slots client'
    · rw [latest, server]
      exact (sized other).asked client' attr (asked client' other attr here)
    · rw [latest]
      exact (sized other).short

theorem Sized.request (sized : Sized state) (coherent : Coherent state) {rpc : Rpc Contents}
    (faithful : Faithful rpc) {type : ExtentType} {id : ExtentId} {contents : Contents}
    (ran : rpc.create state.server type.code = (contents, .OK, some id))
    (unknown : state.server id = none) : Sized { state with
      server := contents, pending := Function.update state.pending id (some (client, type)) } := by
  have made := faithful.create _ _ _ _ ran
  subst made
  have unused := (coherent id).unknown unknown
  have empty : ∀ client', state.table client' id = none := fun client' =>
    (sized id).known client' unused
  refine sized.step client none ?_ (fun other different =>
    ⟨Function.update_of_ne different _ _, rfl⟩) (fun _ _ _ here => here)
    (fun client' attr here => absurd unused ((sized id).asked client' attr here).1)
    (fun _ => ⟨unused, rfl⟩) (slotSized_none _) (fun rival _ => ?_) (sized id).short
  · rw [Table.erase_absent (empty client), Function.update_eq_self]
  · rw [empty]
    exact slotSized_none _

theorem Sized.record (sized : Sized state) (coherent : Coherent state) {type : ExtentType}
    {id : ExtentId} (pending : state.pending id = some (client, type)) (env : Ambient) :
    Sized { state with
      table := Function.update state.table client
        (ExtentClientCache.recordCreated env type.code id (state.table client))
      latest := Function.update state.latest id (some [])
      pending := Function.update state.pending id none } := by
  obtain ⟨held, unused⟩ := (coherent id).pending client type pending
  refine sized.step client _ rfl (fun other different =>
    ⟨rfl, Function.update_of_ne different _ _⟩) (fun _ _ _ here => here)
    (fun client' attr here => absurd unused ((sized id).asked client' attr here).1)
    (fun none => ?_) (.attributes rfl fun found here => ?_)
    (fun rival _ => (sized id).slots rival) fun data here => ?_
  · simp at none
  · rw [held] at here
    rw [← Option.some.inj here]
    rfl
  · have empty : [] = data := by simpa using here
    rw [← empty]
    decide

theorem Sized.ask (sized : Sized state) {rpc : Rpc Contents} (faithful : Faithful rpc)
    (known : state.latest eid ≠ none) {contents : Contents} {attr : Attr}
    (ran : rpc.getattr state.server eid = (contents, .OK, some attr)) : Sized { state with
      server := contents, asked := Function.update state.asked client (some (eid, attr)) } := by
  obtain ⟨reply, answered, matching⟩ := faithful.getattr state.server eid
  cases answered.symm.trans ran
  intro other
  refine ⟨(sized other).known, (sized other).slots, fun client' attr' here => ?_, (sized other).short⟩
  by_cases same : client' = client
  · subst same
    obtain ⟨rfl, rfl⟩ : eid = other ∧ attr = attr' := by simpa using here
    exact ⟨known, fun found held => (matching found held).2⟩
  · exact (sized other).asked client' attr' ((Function.update_of_ne same _ _).symm.trans here)

theorem Sized.note (sized : Sized state) {attr : Attr} (here : state.asked client = some (eid, attr)) :
    Sized { state with
      table := Function.update state.table client
        (ExtentClientCache.recordAttr eid attr (state.table client))
      asked := Function.update state.asked client none } := by
  obtain ⟨known, size⟩ := (sized eid).asked client attr here
  refine sized.step client _ rfl (fun _ _ => ⟨rfl, rfl⟩) (fun client' id attr' asked => ?_)
    (sized eid).asked (fun none => absurd none known) (.attributes rfl size)
    (fun rival _ => (sized eid).slots rival) (sized eid).short
  by_cases same : client' = client
  · subst same
    simp at asked
  · exact (Function.update_of_ne same _ _).symm.trans asked

theorem Sized.get (sized : Sized state) (coherent : Coherent state) {rpc : Rpc Contents}
    (faithful : Faithful rpc) (owner : state.owner eid = some client) {data : Bytes}
    (latest : state.latest eid = some data) (env : Ambient) (arg : Bytes) : Sized ((state.after client
      (ExtentClientCache.get rpc env eid arg (state.table client) state.server).1).use eid true) := by
  obtain ⟨entry, ran, fetched⟩ :=
    ExtentClientCache.get_ok faithful env arg ((coherent eid).owner_reads owner latest)
  rw [ran]
  refine sized.step client (some entry) rfl (fun _ _ => ⟨rfl, rfl⟩) (fun _ _ _ here => here)
    (sized eid).asked (fun none => ?_) (.full _ ?_ ?_) (fun rival _ => (sized eid).slots rival) (sized eid).short
  · cases latest.symm.trans none
  · rcases fetched.state with modified | ⟨copied, _⟩
    · simp [modified]
    · simp [copied]
  · rw [fetched.content]
    exact fetched.size fun old here full => ((sized eid).slots client old here).2 full

theorem Sized.put (sized : Sized state) (coherent : Coherent state)
    (owner : state.owner eid = some client) {data : Bytes} (latest : state.latest eid = some data)
    (env : Ambient) {buf : Bytes} (short : buf.length < 2 ^ 32) :
    Sized { (state.after client ((ExtentClientCache.put env eid buf (state.table client)).1,
        state.server)).use eid true with
      latest := Function.update state.latest eid (some buf) } := by
  have reads := (coherent eid).owner_reads owner latest
  obtain ⟨attr, ran, size, _⟩ := ExtentClientCache.put_ok env buf reads.not_removed
  rw [ran]
  refine sized.step client (some ⟨buf, .MODIFIED, attr⟩) rfl
    (fun other different => ⟨rfl, Function.update_of_ne different _ _⟩) (fun _ _ _ here => here)
    (fun client' attr' here => ⟨?_, ((sized eid).asked client' attr' here).2⟩) (fun none => ?_)
    (.full _ (by simp) size) (fun rival _ => (sized eid).slots rival) fun data here => ?_
  · simp
  · simp at none
  · have written : buf = data := by simpa using here
    rwa [← written]

/-- The step that what other clients were told must survive. -/
theorem Sized.flush (sized : Sized state) (coherent : Coherent state) {rpc : Rpc Contents}
    (faithful : Faithful rpc) (owner : state.owner eid = some client) {ret : Status}
    (spares : Spares state (.flush client eid ret)) : Sized ((state.after client
      (ExtentClientCache.flush rpc eid (state.table client) state.server).1).use eid false) := by
  cases latest : state.latest eid with
  | none =>
    obtain ⟨_, ran⟩ := @ExtentClientCache.flush_bare rpc _ state.server _
      ((coherent eid).bare client (.inl ((coherent eid).idle latest)))
    rw [ran]
    exact sized.step client none rfl (fun _ _ => ⟨rfl, rfl⟩) (fun _ _ _ here => here)
      (sized eid).asked (fun none => ⟨none, rfl⟩) (slotSized_none _)
      (fun rival _ => (sized eid).slots rival) (sized eid).short
  | some data =>
    have live := (coherent eid).live data latest
    have reads := (coherent eid).owner_reads owner latest
    obtain ⟨_, ran⟩ := ExtentClientCache.flush_ok faithful reads live
    rw [ran]
    obtain ⟨file, held⟩ := Option.ne_none_iff_exists'.mp live
    -- What is written back is the client's modified content, or what is there already.
    have spared : ∀ other size, ToldSize state eid other size →
        (∀ found, state.server eid = some found → size = .ofNat found.data.length) →
        size = .ofNat data.length := by
      intro other size told right
      rcases reads with ⟨entry, own, modified, rfl⟩ | ⟨_, _, _, _, same⟩ | ⟨_, same⟩
      · exact spares entry own modified other size told
      all_goals
        rw [held] at same
        rw [← Option.some.inj same]
        exact right file held
    have written : ∀ {found}, ((state.after client (Function.update (state.table client) eid none,
        Function.update state.server eid ((state.server eid).map fun file => ⟨file.type, data⟩))).use
          eid false).server eid = some found → found = ⟨file.type, data⟩ := by
      intro found after
      simpa [State.use, State.after, held] using after.symm
    refine sized.step client none rfl (fun other different => ⟨Function.update_of_ne different _ _, rfl⟩)
      (fun _ _ _ here => here) (fun other attr here => ?_) (fun none => ⟨none, rfl⟩)
      (slotSized_none _) (fun rival different => ?_) (sized eid).short
    · obtain ⟨known, size⟩ := (sized eid).asked other attr here
      refine ⟨known, fun found after => ?_⟩
      rw [written after]
      exact spared other attr.size (.answer here) size
    · intro bare here
      have attributes := (coherent eid).rival_bare owner different bare here
      refine ⟨fun _ found after => ?_, fun full => absurd attributes full⟩
      rw [written after]
      exact spared rival bare.attr.size (.entry here attributes)
        (((sized eid).slots rival bare here).1 attributes)

theorem Sized.kept (sized : Sized state) (coherent : Coherent state) {label : Label κ}
    (allowed : Allowed state label) (known : Known state label) (spares : Spares state label)
    (effect : Effect state label next) : Sized next := by
  cases effect with
  | request faithful ran unknown => exact sized.request coherent faithful ran unknown
  | record env => exact sized.record coherent allowed env
  | getattr arg _ _ here ran =>
    rw [State.getattr_same here ran]
    exact sized
  | ask faithful _ _ ran => exact sized.ask faithful known ran
  | note here => exact sized.note here
  | get env arg faithful _ ran =>
    obtain ⟨owner, live⟩ := allowed
    obtain ⟨data, latest⟩ := Option.ne_none_iff_exists'.mp live
    have after := sized.get coherent faithful owner latest env arg
    rwa [ran] at after
  | put env _ ran =>
    obtain ⟨owner, live⟩ := allowed
    obtain ⟨data, latest⟩ := Option.ne_none_iff_exists'.mp live
    have after := sized.put coherent owner latest env spares
    rwa [ran] at after
  | flush faithful _ ran =>
    have after := sized.flush coherent faithful allowed spares
    rwa [ran] at after
  | grant | giveUp =>
    exact fun eid => ⟨(sized eid).known, (sized eid).slots, (sized eid).asked, (sized eid).short⟩

end Steps

theorem Sized.answer_size {state : State κ} {client : κ} {eid : ExtentId} (sized : Sized state)
    (coherent : Coherent state) (awaited : Awaited state) (owner : state.owner eid = some client)
    {data : Bytes} (latest : state.latest eid = some data) {attr : Attr}
    (here : state.asked client = some (eid, attr)) : attr.size.toNat = data.length := by
  obtain ⟨file, found, same⟩ := Option.map_eq_some_iff.mp
    (((coherent eid).owner_reads owner latest).held_bare (awaited client eid attr here))
  have short := (sized eid).short data latest
  rw [((sized eid).asked client attr here).2 file found, same, UInt32.toNat_ofNat']
  exact Nat.mod_eq_of_lt short

/-- The owner of a lock finds the size of what it reads. -/
theorem Sized.owner_size {state : State κ} {client : κ} {eid : ExtentId} (sized : Sized state)
    (coherent : Coherent state) (owner : state.owner eid = some client) {data : Bytes}
    (latest : state.latest eid = some data) {rpc : Rpc Contents} (faithful : Faithful rpc)
    (arg : Attr) :
    ∃ result attr, ExtentClientCache.getattr rpc eid arg (state.table client) state.server =
      (result, .OK, attr) ∧ attr.size.toNat = data.length := by
  have reads := (coherent eid).owner_reads owner latest
  have short := (sized eid).short data latest
  have length : (UInt32.ofNat data.length).toNat = data.length := by
    rw [UInt32.toNat_ofNat']
    exact Nat.mod_eq_of_lt short
  rcases ExtentClientCache.getattr_cases faithful arg with
    ⟨entry, ret, reply, here, ran, answer⟩ | ⟨absent, reply, ran, matching⟩
  · obtain ⟨rfl, rfl⟩ := answer (reads.not_removed entry here)
    refine ⟨_, _, ran, ?_⟩
    obtain ⟨bare, full⟩ := (sized eid).slots client entry here
    rcases reads with ⟨other, same, modified, rfl⟩ | ⟨other, same, copied, rfl, _⟩ | ⟨attributes, held⟩
    · cases here.symm.trans same
      rw [full (by simp [modified]), length]
    · cases here.symm.trans same
      rw [full (by simp [copied]), length]
    · obtain ⟨file, found, rfl⟩ := Option.map_eq_some_iff.mp held
      rw [bare (attributes entry here) file found, length]
  · obtain ⟨file, found, rfl⟩ := Option.map_eq_some_iff.mp (reads.held absent)
    exact ⟨_, reply, ran, by rw [(matching file found).2, length]⟩

end NaiveFileSystem.Cache
