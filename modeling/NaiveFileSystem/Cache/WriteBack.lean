import NaiveFileSystem.Cache.Direct
import NaiveFileSystem.Lib.Transition

/-!
# What the cache writes back

One client works on its cache, and every create, put and remove it accepts is also
sent directly to a second server. At the end all entries are flushed. The puts
arrive. The removals do not, since `flush` passes no extent id with its `remove` and
the request is rejected.
-/

namespace NaiveFileSystem.Cache

open Extent Transition

/-- A faithful server that removes an inode, if the request has all its arguments. -/
structure FaithfulDirect (rpc : DirectRpc Contents) : Prop extends Faithful rpc.toRpc where
  remove : ∀ contents id, contents id ≠ none →
    rpc.remove contents id = (Function.update contents id none, .OK)
  rejects : ∀ contents, ∃ ret, ret ≠ .OK ∧ rpc.removeBare contents = (contents, ret, none)

theorem faithful_plainDirect (pick : ExtentId) : FaithfulDirect (plainDirect pick) where
  toFaithful := faithful_plain pick
  remove _ _ _ := rfl
  rejects _ := ⟨.library (-2), by simp, rfl⟩

def Answer.status : Answer → Status
  | .created ret _ | .data ret _ | .attr ret _ | .done ret => ret

def Call.writes : Call → Bool
  | .create .. | .put .. | .remove .. => true
  | .get .. | .getattr .. | .flush .. => false

/-- A client's cache and server, and the server that gets its writes directly. -/
structure Buffered where
  table : Table
  server : Contents
  direct : Contents

/-- The ids are those of created extents, and none is removed twice. Both servers
hand out the same id. -/
def Buffered.Allows (state : Buffered) (rpc : Rpc Contents) : Call → Prop
  | .create type _ => ∃ id, Creates rpc state.server type id ∧ Creates rpc state.direct type id
  | .get eid _ | .getattr eid _ | .put eid _ => state.server eid ≠ none
  | .remove eid => state.direct eid ≠ none
  | .flush _ => False

def buffering : System Buffered Call where
  init state := (∀ eid, state.table eid = none) ∧ state.server = state.direct
  step state call next := ∃ (rpc : DirectRpc Contents) (env : Ambient) (answer : Answer),
    FaithfulDirect rpc ∧ state.Allows rpc.toRpc call ∧
    ExtentClientCache.call rpc.toRpc env state.table state.server call =
      ((next.table, next.server), answer) ∧
    next.direct = if call.writes ∧ answer.status = .OK then (ExtentClient.call rpc state.direct call).1
      else state.direct

/-- `flush(e)` for one extent after the other. -/
def flushAll (rpc : Rpc Contents) : List ExtentId → Table × Contents → Table × Contents
  | [], state => state
  | eid :: rest, state => flushAll rpc rest (ExtentClientCache.flush rpc eid state.1 state.2).1

/-- The same live inodes, with the same bytes. -/
def SameBytes (one other : Contents) : Prop :=
  ∀ eid, (one eid).map File.data = (other eid).map File.data

/-! ## Flushing everything -/

section Flush

variable {rpc : DirectRpc Contents} {state : Table × Contents} {eid other : ExtentId}

def Backed (state : Table × Contents) : Prop := ∀ eid, state.1 eid ≠ none → state.2 eid ≠ none

theorem flush_slot (faithful : FaithfulDirect rpc) (backed : Backed state) (eid : ExtentId) :
    ∃ slot, (ExtentClientCache.flush rpc.toRpc eid state.1 state.2).1 =
        (Function.update state.1 eid none, Function.update state.2 eid slot) ∧
      (state.1 eid = none → slot = state.2 eid) ∧ (state.2 eid ≠ none → slot ≠ none) ∧
      ∀ data, Reads (state.1 eid) (state.2 eid) data → slot.map File.data = some data := by
  have same : Function.update state.2 eid (state.2 eid) = state.2 := Function.update_eq_self eid _
  cases here : state.1 eid with
  | none =>
    refine ⟨state.2 eid, ?_, fun _ => rfl, id, fun data reads => reads.held rfl⟩
    simp only [ExtentClientCache.flush, here, same, Table.erase_absent here]
  | some entry =>
    obtain ⟨file, found⟩ := Option.ne_none_iff_exists'.mp (backed eid (by simp [here]))
    cases kind : entry.mState with
    | MODIFIED =>
      refine ⟨some ⟨file.type, entry.data⟩, ?_, by simp, by simp, fun data reads => ?_⟩
      · simp only [ExtentClientCache.flush, here, kind, faithful.put _ _ _ entry.data found]
      · rcases reads with ⟨other, own, _, content⟩ | ⟨other, own, copied, _⟩ | ⟨bare, _⟩
        · cases own
          rw [← content]
          rfl
        · cases own
          simp [kind] at copied
        · have plain := bare entry rfl
          simp [kind] at plain
    | REMOVED =>
      obtain ⟨ret, _, rejected⟩ := faithful.rejects state.2
      refine ⟨state.2 eid, ?_, by simp, id, fun data reads => ?_⟩
      · simp only [ExtentClientCache.flush, here, kind, rejected, same, Option.getD_none]
      · exact absurd kind (reads.not_removed entry rfl)
    | NONE | UPDATE =>
      refine ⟨state.2 eid, ?_, by simp, id, fun data reads => ?_⟩
      · simp only [ExtentClientCache.flush, here, kind, same]
      · rcases reads with ⟨other, own, modified, _⟩ | ⟨_, _, _, _, held⟩ | ⟨_, held⟩
        · cases own
          simp [kind] at modified
        · exact held
        · exact held

/-- What flushes leave: no new entries or inodes, and whatever the client read. -/
structure Settles (state after : Table × Contents) : Prop where
  backed : Backed after
  erased : ∀ eid, state.1 eid = none → after.1 eid = none
  live : ∀ eid, state.2 eid ≠ none → after.2 eid ≠ none
  missing : ∀ eid, state.1 eid = none → state.2 eid = none → after.2 eid = none
  reads : ∀ eid data, Reads (state.1 eid) (state.2 eid) data →
    Reads (after.1 eid) (after.2 eid) data

theorem Settles.refl (backed : Backed state) : Settles state state :=
  ⟨backed, fun _ => id, fun _ => id, fun _ _ => id, fun _ _ => id⟩

theorem Settles.trans {middle after : Table × Contents} (first : Settles state middle)
    (second : Settles middle after) : Settles state after where
  backed := second.backed
  erased eid none := second.erased eid (first.erased eid none)
  live eid some := second.live eid (first.live eid some)
  missing eid empty none := second.missing eid (first.erased eid empty) (first.missing eid empty none)
  reads eid data held := second.reads eid data (first.reads eid data held)

theorem flush_settles (faithful : FaithfulDirect rpc) (backed : Backed state) (eid : ExtentId) :
    (ExtentClientCache.flush rpc.toRpc eid state.1 state.2).1.1 eid = none ∧
      Settles state (ExtentClientCache.flush rpc.toRpc eid state.1 state.2).1 := by
  obtain ⟨slot, ran, absent, live, content⟩ := flush_slot faithful backed eid
  have other_eq : ∀ other, other ≠ eid → Function.update state.1 eid none other = state.1 other ∧
      Function.update state.2 eid slot other = state.2 other := fun other different =>
    ⟨Function.update_of_ne different _ _, Function.update_of_ne different _ _⟩
  rw [ran]
  refine ⟨Function.update_self _ _ _, fun other present => ?_, fun other none => ?_,
    fun other some => ?_, fun other empty none => ?_, fun other data held => ?_⟩
  all_goals by_cases same : other = eid
  · simp [same] at present
  · simp only [other_eq other same] at present ⊢
    exact backed other present
  · simp [same]
  · simpa only [other_eq other same] using none
  · subst same
    simpa using live some
  · simpa only [other_eq other same] using some
  · subst same
    simpa [absent empty] using none
  · simpa only [other_eq other same] using none
  · subst same
    simp only [Function.update_self]
    exact .inr (.inr ⟨bare_none, content data held⟩)
  · simpa only [other_eq other same] using held

theorem flushAll_settles (faithful : FaithfulDirect rpc) (backed : Backed state)
    (order : List ExtentId) : (∀ eid ∈ order, (flushAll rpc.toRpc order state).1 eid = none) ∧
      Settles state (flushAll rpc.toRpc order state) := by
  induction order generalizing state with
  | nil => exact ⟨by simp, .refl backed⟩
  | cons first rest ih =>
    obtain ⟨erased, settles⟩ := flush_settles faithful backed first
    obtain ⟨all, rest_settles⟩ := ih settles.backed
    refine ⟨fun eid member => ?_, settles.trans rest_settles⟩
    rcases List.mem_cons.mp member with rfl | later
    · exact rest_settles.erased eid erased
    · exact all eid later

end Flush

/-! ## Runs -/

/-- Where the cache and the direct server differ: an extent whose removal was
accepted is gone there and still on the client's server. -/
structure BufferedAt (trace : List Call) (state : Buffered) (eid : ExtentId) : Prop where
  removed : .remove eid ∈ trace → state.direct eid = none ∧ state.server eid ≠ none ∧
    ∃ entry, state.table eid = some entry ∧ entry.mState = .REMOVED
  missing : .remove eid ∉ trace → state.direct eid = none →
    state.server eid = none ∧ state.table eid = none
  held : ∀ file, state.direct eid = some file → (∃ data, state.server eid = some ⟨file.type, data⟩) ∧
    Reads (state.table eid) (state.server eid) file.data

section Runs

variable {trace : List Call} {state next : Buffered} {eid : ExtentId}

theorem BufferedAt.backed (buffered : BufferedAt trace state eid)
    (present : state.table eid ≠ none) : state.server eid ≠ none := by
  by_cases removed : .remove eid ∈ trace
  · exact (buffered.removed removed).2.1
  · cases found : state.direct eid with
    | none => exact absurd (buffered.missing removed found).2 present
    | some file =>
      obtain ⟨data, here⟩ := (buffered.held file found).1
      simp [here]

theorem BufferedAt.fresh (buffered : BufferedAt trace state eid) (missing : state.server eid = none) :
    .remove eid ∉ trace ∧ state.direct eid = none ∧ state.table eid = none := by
  have kept : .remove eid ∉ trace := fun removed => (buffered.removed removed).2.1 missing
  have absent : state.direct eid = none := by
    cases found : state.direct eid with
    | none => rfl
    | some file =>
      obtain ⟨data, here⟩ := (buffered.held file found).1
      cases missing.symm.trans here
  exact ⟨kept, absent, (buffered.missing kept absent).2⟩

theorem BufferedAt.kept (buffered : BufferedAt trace state eid) {call : Call}
    (other : call ≠ .remove eid) (table : next.table eid = state.table eid)
    (server : next.server eid = state.server eid) (direct : next.direct eid = state.direct eid) :
    BufferedAt (trace ++ [call]) next eid := by
  have member : .remove eid ∈ trace ++ [call] ↔ .remove eid ∈ trace := by
    rw [List.mem_append, List.mem_singleton]
    exact or_iff_left fun same => other same.symm
  obtain ⟨removed, missing, held⟩ := buffered
  constructor
  · rwa [member, table, server, direct]
  · rwa [member, table, server, direct]
  · rwa [table, server, direct]

theorem BufferedAt.live (file : File) {call : Call} (kept : .remove eid ∉ trace)
    (other : call ≠ .remove eid) (direct : next.direct eid = some file)
    (server : ∃ data, next.server eid = some ⟨file.type, data⟩)
    (reads : Reads (next.table eid) (next.server eid) file.data) :
    BufferedAt (trace ++ [call]) next eid where
  removed member := by
    rcases List.mem_append.mp member with early | last
    · exact absurd early kept
    · exact absurd (List.mem_singleton.mp last).symm other
  missing _ none := by cases direct.symm.trans none
  held found here := by
    cases direct.symm.trans here
    exact ⟨server, reads⟩

def BufferedAll (trace : List Call) (state : Buffered) : Prop := ∀ eid, BufferedAt trace state eid

theorem BufferedAll.step (buffered : BufferedAll trace state) {call : Call} (eid : ExtentId)
    (here : BufferedAt (trace ++ [call]) next eid) (target : ∀ other, other ≠ eid → call ≠ .remove other)
    (others : ∀ other, other ≠ eid → next.table other = state.table other ∧
      next.server other = state.server other ∧ next.direct other = state.direct other) :
    BufferedAll (trace ++ [call]) next := by
  intro other
  by_cases same : other = eid
  · exact same ▸ here
  · obtain ⟨table, server, direct⟩ := others other same
    exact (buffered other).kept (target other same) table server direct

theorem BufferedAt.cases (buffered : BufferedAt trace state eid) (live : state.server eid ≠ none) :
    (∃ entry, state.table eid = some entry ∧ entry.mState = .REMOVED) ∨
      (.remove eid ∉ trace ∧ ∃ file, state.direct eid = some file) := by
  by_cases removed : .remove eid ∈ trace
  · exact .inl (buffered.removed removed).2.2
  · cases found : state.direct eid with
    | none => exact absurd (buffered.missing removed found).1 live
    | some file => exact .inr ⟨removed, file, rfl⟩

theorem BufferedAll.create (buffered : BufferedAll trace state) (env : Ambient) {type : ExtentType}
    {id arg : ExtentId} (missing : state.server id = none) :
    BufferedAll (trace ++ [.create type arg]) {
      table := ExtentClientCache.recordCreated env type.code id state.table
      server := Function.update state.server id (some ⟨type, []⟩)
      direct := Function.update state.direct id (some ⟨type, []⟩) } := by
  obtain ⟨kept, _, _⟩ := (buffered id).fresh missing
  refine buffered.step id (.live ⟨type, []⟩ kept (by simp) (Function.update_self _ _ _)
    ⟨[], Function.update_self _ _ _⟩ ?_) (fun _ _ => by simp) fun other different =>
    ⟨Function.update_of_ne different _ _, Function.update_of_ne different _ _,
      Function.update_of_ne different _ _⟩
  exact .inr (.inr ⟨ExtentClientCache.bare_recordCreated env _ id, by simp⟩)

theorem BufferedAll.stays (buffered : BufferedAll trace state) {call : Call}
    (reads : ∀ eid, call ≠ .remove eid) : BufferedAll (trace ++ [call]) state :=
  fun eid => (buffered eid).kept (reads eid) rfl rfl rfl

theorem BufferedAll.get (buffered : BufferedAll trace state) {rpc : Rpc Contents}
    (faithful : Faithful rpc) (env : Ambient) (live : state.server eid ≠ none) (buf : Bytes) :
    ∃ table ret data, ExtentClientCache.get rpc env eid buf state.table state.server =
      ((table, state.server), ret, data) ∧
      BufferedAll (trace ++ [.get eid buf]) { state with table := table } := by
  rcases (buffered eid).cases live with ⟨entry, here, gone⟩ | ⟨kept, file, found⟩
  · refine ⟨state.table, .NOENT, buf, ?_, buffered.stays (by simp)⟩
    simp only [ExtentClientCache.get, here, gone]
  · obtain ⟨server, reads⟩ := (buffered eid).held file found
    obtain ⟨entry, ran, fetched⟩ := ExtentClientCache.get_ok faithful env buf reads
    refine ⟨_, _, _, ran, buffered.step eid (.live file kept (by simp) found server ?_)
      (fun _ _ => by simp) fun other different => ⟨Function.update_of_ne different _ _, rfl, rfl⟩⟩
    simpa using fetched.reads

theorem BufferedAll.getattr (buffered : BufferedAll trace state) {rpc : Rpc Contents}
    (faithful : Faithful rpc) (live : state.server eid ≠ none) (arg : Attr) :
    ∃ table ret reply, ExtentClientCache.getattr rpc eid arg state.table state.server =
      ((table, state.server), ret, reply) ∧
      BufferedAll (trace ++ [.getattr eid arg]) { state with table := table } := by
  rcases ExtentClientCache.getattr_cases faithful arg with
    ⟨_, ret, reply, _, ran, _⟩ | ⟨absent, reply, ran, _⟩
  · exact ⟨_, ret, reply, ran, buffered.stays (by simp)⟩
  · rcases (buffered eid).cases live with ⟨entry, here, _⟩ | ⟨kept, file, found⟩
    · cases absent.symm.trans here
    · obtain ⟨server, reads⟩ := (buffered eid).held file found
      refine ⟨_, _, reply, ran, buffered.step eid (.live file kept (by simp) found server ?_)
        (fun _ _ => by simp) fun other different => ⟨Function.update_of_ne different _ _, rfl, rfl⟩⟩
      refine .inr (.inr ⟨fun entry here => ?_, reads.held absent⟩)
      have attributes : (⟨[], .NONE, reply⟩ : Entry) = entry := by simpa using here
      rw [← attributes]

theorem BufferedAll.put (buffered : BufferedAll trace state) {rpc : DirectRpc Contents}
    (faithful : Faithful rpc.toRpc) (env : Ambient) (live : state.server eid ≠ none) (buf : Bytes) :
    ∃ table ret, ExtentClientCache.put env eid buf state.table = (table, ret) ∧
      BufferedAll (trace ++ [.put eid buf]) { state with
        table := table
        direct := if ret = .OK then (rpc.put state.direct eid buf).1 else state.direct } := by
  rcases (buffered eid).cases live with ⟨entry, here, gone⟩ | ⟨kept, file, found⟩
  · refine ⟨state.table, .NOENT, ?_, buffered.stays (by simp)⟩
    simp [ExtentClientCache.put, Table.entry, here, gone]
  · obtain ⟨server, reads⟩ := (buffered eid).held file found
    obtain ⟨attr, ran, _⟩ := ExtentClientCache.put_ok env buf reads.not_removed
    refine ⟨_, _, ran, ?_⟩
    rw [if_pos rfl, faithful.put _ _ _ buf found]
    refine buffered.step eid (.live ⟨file.type, buf⟩ kept (by simp) (Function.update_self _ _ _)
      server ?_) (fun _ _ => by simp) fun other different =>
      ⟨Function.update_of_ne different _ _, rfl, Function.update_of_ne different _ _⟩
    exact .inl ⟨_, Function.update_self _ _ _, rfl, rfl⟩

theorem BufferedAll.remove (buffered : BufferedAll trace state) {rpc : DirectRpc Contents}
    (faithful : FaithfulDirect rpc) (env : Ambient) (live : state.direct eid ≠ none) :
    ∃ table, ExtentClientCache.remove env eid state.table = (table, .OK) ∧
      BufferedAll (trace ++ [.remove eid]) { state with
        table := table
        direct := (rpc.remove state.direct eid).1 } := by
  obtain ⟨file, found⟩ := Option.ne_none_iff_exists'.mp live
  obtain ⟨⟨data, server⟩, reads⟩ := (buffered eid).held file found
  have stays : (state.table.entry env eid).mState ≠ .REMOVED := by
    cases here : state.table eid with
    | none => simp [Table.entry, here]
    | some entry => simpa [Table.entry, here] using reads.not_removed entry here
  refine ⟨_, by rw [ExtentClientCache.remove, if_neg stays], ?_⟩
  rw [faithful.remove _ _ live]
  refine buffered.step eid ⟨fun _ => ⟨Function.update_self _ _ _, by simp [server],
    _, Function.update_self _ _ _, rfl⟩, fun kept => ?_, fun other here => ?_⟩
    (fun other different same => different (Call.remove.inj same).symm) fun other different =>
    ⟨Function.update_of_ne different _ _, rfl, Function.update_of_ne different _ _⟩
  · exact absurd (List.mem_append_right _ (List.mem_singleton_self _)) kept
  · simp at here

theorem BufferedAll.initial (begins : buffering.init state) : BufferedAll [] state := by
  obtain ⟨empty, same⟩ := begins
  intro eid
  refine ⟨by simp, fun _ none => ⟨same ▸ none, empty eid⟩, fun file found => ⟨⟨file.data, ?_⟩, ?_⟩⟩
  · rw [same, found]
  · rw [empty eid, same, found]
    exact .inr (.inr ⟨bare_none, rfl⟩)

theorem BufferedAll.call (buffered : BufferedAll trace state) {call : Call}
    (steps : buffering.step state call next) : BufferedAll (trace ++ [call]) next := by
  obtain ⟨rpc, env, answer, faithful, allowed, ran, sent⟩ := steps
  obtain ⟨table, server, direct⟩ := next
  simp only at ran sent
  subst sent
  cases call with
  | create type arg =>
    obtain ⟨id, creates, beside⟩ := allowed
    simp only [ExtentClientCache.call, ExtentClientCache.create, creates.run faithful.toFaithful] at ran
    cases ran
    simpa [Call.writes, Answer.status, ExtentClient.call, ExtentClient.create,
      beside.run faithful.toFaithful] using buffered.create env creates.2
  | get eid buf =>
    obtain ⟨after, ret, data, got, kept⟩ := buffered.get faithful.toFaithful env allowed buf
    simp only [ExtentClientCache.call, got] at ran
    cases ran
    simpa [Call.writes] using kept
  | getattr eid arg =>
    obtain ⟨after, ret, reply, got, kept⟩ := buffered.getattr faithful.toFaithful allowed arg
    simp only [ExtentClientCache.call, got] at ran
    cases ran
    simpa [Call.writes] using kept
  | put eid buf =>
    obtain ⟨after, ret, put, kept⟩ := buffered.put faithful.toFaithful env allowed buf
    simp only [ExtentClientCache.call, put] at ran
    cases ran
    simpa [Call.writes, Answer.status, ExtentClient.call, ExtentClient.put] using kept
  | remove eid =>
    obtain ⟨after, removed, kept⟩ := buffered.remove faithful env allowed
    simp only [ExtentClientCache.call, removed] at ran
    cases ran
    simpa [Call.writes, Answer.status, ExtentClient.call, ExtentClient.remove] using kept
  | flush eid => exact False.elim allowed

theorem BufferedAll.of_run (run : Run buffering trace state) : BufferedAll trace state :=
  run.invariant (fun _ begins => .initial begins) fun _ _ _ _ buffered steps => buffered.call steps

end Runs

/-- After all entries are flushed, the server has what the direct one has exactly
if no remove was accepted. -/
theorem write_back_iff {trace : List Call} {state : Buffered} (run : Run buffering trace state)
    {rpc : DirectRpc Contents} (faithful : FaithfulDirect rpc) (order : List ExtentId)
    (all : ∀ eid, state.table eid ≠ none → eid ∈ order) :
    SameBytes (flushAll rpc.toRpc order (state.table, state.server)).2 state.direct ↔
      ∀ eid, .remove eid ∉ trace := by
  have buffered := BufferedAll.of_run run
  obtain ⟨erased, settles⟩ := @flushAll_settles rpc (state.table, state.server) faithful
    (fun eid present => (buffered eid).backed present) order
  constructor
  · intro same eid removed
    obtain ⟨gone, live, _⟩ := (buffered eid).removed removed
    have kept := settles.live eid live
    have bytes := same eid
    rw [gone, Option.map_none, Option.map_eq_none_iff] at bytes
    exact kept bytes
  · intro none eid
    cases found : state.direct eid with
    | none =>
      obtain ⟨missing, empty⟩ := (buffered eid).missing (none eid) found
      rw [settles.missing eid empty missing]
    | some file =>
      have reads := settles.reads eid file.data ((buffered eid).held file found).2
      apply reads.held
      cases present : state.table eid with
      | none => exact settles.erased eid present
      | some entry => exact erased eid (all eid (by simp [present]))

section Removal

def idle : Buffered := ⟨fun _ => none, rooted, rooted⟩

def made : Buffered where
  table := ExtentClientCache.recordCreated ⟨0, ⟨0, 0, 0, 0, 0⟩⟩ 2 2 fun _ => none
  server := Function.update rooted 2 (some ⟨.T_FILE, []⟩)
  direct := Function.update rooted 2 (some ⟨.T_FILE, []⟩)

def dropped : Buffered where
  table := (ExtentClientCache.remove ⟨0, ⟨0, 0, 0, 0, 0⟩⟩ 2 made.table).1
  server := made.server
  direct := Function.update made.direct 2 none

theorem made_run : Run buffering ([] ++ [Call.create .T_FILE 0]) made := by
  have start : Run buffering [] idle := .start ⟨fun _ => rfl, rfl⟩
  refine .extend start ⟨plainDirect 2, ⟨0, ⟨0, 0, 0, 0, 0⟩⟩, .created .OK 2, faithful_plainDirect 2,
    ⟨2, ⟨rfl, rfl⟩, rfl, rfl⟩, rfl, rfl⟩

theorem dropped_run : Run buffering ([] ++ [Call.create .T_FILE 0] ++ [.remove 2]) dropped := by
  refine .extend made_run ⟨plainDirect 2, ⟨0, ⟨0, 0, 0, 0, 0⟩⟩, .done .OK, faithful_plainDirect 2, ?_,
    rfl, rfl⟩
  simp [Buffered.Allows, made]

theorem made_entries (eid : ExtentId) (present : made.table eid ≠ none) : eid ∈ [(2 : ExtentId)] := by
  by_contra other
  have different : eid ≠ 2 := by simpa using other
  exact present (@ExtentClientCache.recordCreated_of_ne (fun _ => none) ⟨0, ⟨0, 0, 0, 0, 0⟩⟩ 2 2 eid
    different)

theorem dropped_entries (eid : ExtentId) (present : dropped.table eid ≠ none) :
    eid ∈ [(2 : ExtentId)] := by
  by_contra other
  have different : eid ≠ 2 := by simpa using other
  have removed : dropped.table = Function.update made.table 2 (dropped.table 2) := rfl
  rw [removed, Function.update_of_ne different] at present
  exact other (made_entries eid present)

/-- It created a second file, put both and read the longer one. -/
theorem write_back_iff_two_files : ∃ trace state, Run buffering trace state ∧
    state.server 2 = some ⟨.T_FILE, []⟩ ∧ (state.direct 2).map File.data = some many ∧
    (state.direct 3).map File.data = some [104, 105] ∧
    SameBytes (flushAll (plainDirect 3).toRpc [1, 2, 3] (state.table, state.server)).2
      state.direct := by
  let env : Ambient := ⟨0, ⟨0, 0, 0, 0, 0⟩⟩
  have server := faithful_plainDirect 3
  have both := made_run.extend (show buffering.step made (.create .T_FILE 0) ⟨_, _, _⟩ from
    ⟨plainDirect 3, env, .created .OK 3, server, ⟨3, ⟨rfl, rfl⟩, rfl, rfl⟩, rfl, rfl⟩)
  have long := both.extend (show buffering.step _ (.put 2 many) ⟨_, _, _⟩ from
    ⟨plainDirect 3, env, .done .OK, server, Option.some_ne_none _, rfl, rfl⟩)
  have last := long.extend (show buffering.step _ (.put 3 [104, 105]) ⟨_, _, _⟩ from
    ⟨plainDirect 3, env, .done .OK, server, Option.some_ne_none _, rfl, rfl⟩)
  have read := last.extend (show buffering.step _ (.get 2 []) ⟨_, _, _⟩ from
    ⟨plainDirect 3, env, .data .OK many, server, Option.some_ne_none _, rfl, rfl⟩)
  refine ⟨_, _, read, rfl, rfl, rfl, (write_back_iff read server [1, 2, 3] fun eid present => ?_).mpr
    (by simp)⟩
  by_contra other
  simp only [List.mem_cons, List.not_mem_nil, or_false, not_or] at other
  refine present ((BufferedAll.of_run read eid).missing (by simp) ?_).2
  simp [ExtentClient.call, ExtentClient.put, ExtentClient.create, plainDirect, plain, made, rooted,
    other]

/-- A file that was created and removed stays live on the server. -/
theorem removal_lost : ∃ trace state order, Run buffering trace state ∧
    (∀ eid, state.table eid ≠ none → eid ∈ order) ∧
    ¬ SameBytes (flushAll (plainDirect 2).toRpc order (state.table, state.server)).2 state.direct := by
  refine ⟨_, dropped, [2], dropped_run, dropped_entries, fun same => ?_⟩
  have live : (flushAll (plainDirect 2).toRpc [2] (dropped.table, dropped.server)).2 2 =
      some ⟨.T_FILE, []⟩ := rfl
  have gone : dropped.direct 2 = none := rfl
  have bytes := same 2
  rw [live, gone] at bytes
  cases bytes

end Removal

end NaiveFileSystem.Cache
