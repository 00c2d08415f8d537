import NaiveFileSystem.Cache.Direct
import NaiveFileSystem.Lib.Transition

/-!
# Accepted modifications

One client whose remote calls may fail. The last put or remove that the cache
accepted for an extent is due until another one is accepted. It is in the entry or
on the server, as long as no flush drops an entry that the server did not take, and
no create takes the entry of a modified extent for a fresh one.
-/

namespace NaiveFileSystem.Cache

open Extent Transition

/-- What a server may do, whether its answers arrive or not: a call that fails may
still have been carried out. A `remove` without an id is rejected. -/
structure Honest (rpc : Rpc Contents) : Prop where
  create : ∀ contents type next ret reply, rpc.create contents (ExtentType.code type) =
    (next, ret, reply) → next = contents ∨
      ∃ id, contents id = none ∧ next = Function.update contents id (some ⟨type, []⟩)
  put : ∀ contents id data next ret, rpc.put contents id data = (next, ret) →
    (∀ other, other ≠ id → next other = contents other) ∧
      (ret = .OK → (next id).map File.data = some data)
  get : ∀ contents id, ∃ ret reply, rpc.get contents id = (contents, ret, reply)
  getattr : ∀ contents id, ∃ ret reply, rpc.getattr contents id = (contents, ret, reply)
  removeBare : ∀ contents, ∃ ret, ret ≠ .OK ∧ rpc.removeBare contents = (contents, ret, none)

inductive Modification
  | content (data : Bytes)
  | removal

/-- The client, the server, and what was accepted last for each extent. -/
structure Ledger where
  table : Table
  server : Contents
  due : ExtentId → Option Modification

def Ledger.dueAfter (state : Ledger) : Call → Answer → ExtentId → Option Modification
  | .put eid buf, .done .OK => Function.update state.due eid (some (.content buf))
  | .remove eid, .done .OK => Function.update state.due eid (some .removal)
  | _, _ => state.due

def Entry.Holds (entry : Entry) : Modification → Prop
  | .content data => entry.mState = .MODIFIED ∧ entry.data = data
  | .removal => entry.mState = .REMOVED

def Applied (file : Option File) : Modification → Prop
  | .content data => file.map File.data = some data
  | .removal => file = none

/-- No accepted modification is dropped. -/
def Ledger.Safe (state : Ledger) : Prop :=
  ∀ eid change, state.due eid = some change →
    (∃ entry, state.table eid = some entry ∧ entry.Holds change) ∨ Applied (state.server eid) change

/-- The call erases or reuses an entry whose modification the server did not take. -/
def Ledger.Drops (state : Ledger) (rpc : Rpc Contents) : Call → Prop
  | .flush eid => ∃ entry, state.table eid = some entry ∧ (entry.mState = .REMOVED ∨
      (entry.mState = .MODIFIED ∧ (rpc.put state.server eid entry.data).2 ≠ .OK))
  | .create type id => ∃ entry,
      state.table ((rpc.create state.server type.code).2.2.getD id) = some entry ∧
        (entry.mState = .MODIFIED ∨ entry.mState = .REMOVED)
  | _ => False

def Ledger.Step (state : Ledger) (rpc : Rpc Contents) (call : Call) (next : Ledger) : Prop :=
  ∃ env answer, ExtentClientCache.call rpc env state.table state.server call =
      ((next.table, next.server), answer) ∧ next.due = state.dueAfter call answer

/-- Any calls, over a server whose calls may fail. -/
def modifying : System Ledger Call where
  init state := (∀ eid, state.table eid = none) ∧ ∀ eid, state.due eid = none
  step state call next := ∃ rpc, Honest rpc ∧ state.Step rpc call next

/-- Those runs whose steps drop nothing. -/
def modifyingSafely : System Ledger Call where
  init := modifying.init
  step state call next := ∃ rpc, Honest rpc ∧ ¬ state.Drops rpc call ∧ state.Step rpc call next

def Plain (slot : Option Entry) : Prop :=
  ∀ entry, slot = some entry → entry.mState = .NONE ∨ entry.mState = .UPDATE

inductive Mild : Option Entry → Option Entry → Prop
  | plain {slot after} : Plain slot → Plain after → Mild slot after
  | touched {entry after : Entry} : after.mState = entry.mState → after.data = entry.data →
      Mild (some entry) (some after)

/-- An entry with a modification holds the one that is due, and a removal stays in
the cache. -/
structure LedgerAt (state : Ledger) (eid : ExtentId) : Prop where
  modified : ∀ entry, state.table eid = some entry → entry.mState = .MODIFIED →
    state.due eid = some (.content entry.data)
  removed : ∀ entry, state.table eid = some entry → entry.mState = .REMOVED →
    state.due eid = some .removal
  content : ∀ data, state.due eid = some (.content data) →
    (∃ entry, state.table eid = some entry ∧ entry.mState = .MODIFIED ∧ entry.data = data) ∨
      (state.server eid).map File.data = some data
  removal : state.due eid = some .removal →
    ∃ entry, state.table eid = some entry ∧ entry.mState = .REMOVED

def Ledger.Kept (state : Ledger) : Prop := ∀ eid, LedgerAt state eid

section Steps

variable {state next : Ledger} {eid : ExtentId}

theorem Ledger.Kept.safe (kept : state.Kept) : state.Safe := by
  intro eid change owed
  cases change with
  | content data => exact (kept eid).content data owed
  | removal => exact .inl ((kept eid).removal owed)

theorem plain_none : Plain none := fun _ none => by cases none

theorem Plain.not_modified {slot : Option Entry} (plain : Plain slot) {entry : Entry}
    (here : slot = some entry) : entry.mState ≠ .MODIFIED ∧ entry.mState ≠ .REMOVED := by
  rcases plain entry here with bare | copied
  · simp [bare]
  · simp [copied]

theorem Mild.refl (slot : Option Entry) : Mild slot slot := by
  cases slot with
  | none => exact .plain plain_none plain_none
  | some entry => exact .touched rfl rfl

theorem LedgerAt.mild (kept : LedgerAt state eid) (mild : Mild (state.table eid) (next.table eid))
    (server : ∀ file, state.server eid = some file → next.server eid = some file)
    (due : next.due eid = state.due eid) : LedgerAt next eid := by
  obtain ⟨modified, removed, content, removal⟩ := kept
  have stays : ∀ data, (state.server eid).map File.data = some data →
      (next.server eid).map File.data = some data := by
    intro data held
    obtain ⟨file, found, rfl⟩ := Option.map_eq_some_iff.mp held
    rw [server file found]
    rfl
  generalize before : state.table eid = slot at *
  generalize after : next.table eid = slot' at *
  cases mild with
  | plain plain plain' =>
    refine ⟨fun entry here kind => ?_, fun entry here kind => ?_, fun data owed => .inr ?_,
      fun owed => ?_⟩
    · exact absurd kind (plain'.not_modified (after.symm.trans here)).1
    · exact absurd kind (plain'.not_modified (after.symm.trans here)).2
    · rcases content data (due ▸ owed) with ⟨entry, here, kind, _⟩ | held
      · exact absurd kind (plain.not_modified here).1
      · exact stays data held
    · obtain ⟨entry, here, kind⟩ := removal (due ▸ owed)
      exact absurd kind (plain.not_modified here).2
  | @touched entry touched kind same =>
    refine ⟨fun other here state => ?_, fun other here state => ?_, fun data owed => ?_,
      fun owed => ?_⟩
    · cases after.symm.trans here
      rw [due, same]
      exact modified entry rfl (kind ▸ state)
    · cases after.symm.trans here
      rw [due]
      exact removed entry rfl (kind ▸ state)
    · rcases content data (due ▸ owed) with ⟨other, here, state, bytes⟩ | held
      · cases here
        exact .inl ⟨touched, after, kind.trans state, same.trans bytes⟩
      · exact .inr (stays data held)
    · obtain ⟨other, here, state⟩ := removal (due ▸ owed)
      cases here
      exact ⟨touched, after, kind.trans state⟩

theorem Ledger.Kept.step (kept : state.Kept) (here : LedgerAt next eid)
    (others : ∀ other, other ≠ eid → next.table other = state.table other ∧
      next.due other = state.due other ∧
      ∀ file, state.server other = some file → next.server other = some file) : next.Kept := by
  intro other
  by_cases same : other = eid
  · exact same ▸ here
  · obtain ⟨table, due, server⟩ := others other same
    exact (kept other).mild (table ▸ .refl _) server due

theorem update_same (cache : Table) (eid : ExtentId) :
    cache = Function.update cache eid (cache eid) := (Function.update_eq_self eid cache).symm

theorem get_mild {rpc : Rpc Contents} (honest : Honest rpc) (env : Ambient) (eid : ExtentId)
    (buf : Bytes) (cache : Table) (server : Contents) :
    ∃ slot ret reply, ExtentClientCache.get rpc env eid buf cache server =
      ((Function.update cache eid slot, server), ret, reply) ∧ Mild (cache eid) slot := by
  obtain ⟨ret, reply, got⟩ := honest.get server eid
  obtain ⟨ret', attr, answered⟩ := honest.getattr server eid
  cases here : cache eid with
  | none =>
    by_cases fine : ret' = .OK
    · refine ⟨some ⟨reply.getD buf, .UPDATE, { attr.getD env.junk with atime := env.now }⟩, ret',
        reply.getD buf, ?_, .plain plain_none ?_⟩
      · simp only [ExtentClientCache.get, here, got, answered, if_pos fine]
      · rintro entry ⟨⟩
        exact .inr rfl
    · refine ⟨cache eid, ret', reply.getD buf, ?_, here ▸ .refl _⟩
      rw [← update_same]
      simp only [ExtentClientCache.get, here, got, answered, if_neg fine]
  | some entry =>
    cases kind : entry.mState with
    | NONE =>
      by_cases fine : ret = .OK
      · refine ⟨some ⟨reply.getD buf, .UPDATE,
          { entry.attr with atime := env.now, size := .ofNat (reply.getD buf).length }⟩, ret,
          reply.getD buf, ?_, .plain ?_ ?_⟩
        · simp only [ExtentClientCache.get, here, kind, got, if_pos fine]
        · rintro other ⟨⟩
          exact .inl kind
        · rintro other ⟨⟩
          exact .inr rfl
      · refine ⟨cache eid, ret, reply.getD buf, ?_, here ▸ .refl _⟩
        rw [← update_same]
        simp only [ExtentClientCache.get, here, kind, got, if_neg fine]
    | UPDATE | MODIFIED =>
      refine ⟨some { entry with attr := { entry.attr with atime := env.now } }, .OK, entry.data, ?_,
        .touched rfl rfl⟩
      simp only [ExtentClientCache.get, here, kind]
    | REMOVED =>
      refine ⟨cache eid, .NOENT, buf, ?_, here ▸ .refl _⟩
      rw [← update_same]
      simp only [ExtentClientCache.get, here, kind]

theorem getattr_mild {rpc : Rpc Contents} (honest : Honest rpc) (eid : ExtentId) (arg : Attr)
    (cache : Table) (server : Contents) :
    ∃ slot ret reply, ExtentClientCache.getattr rpc eid arg cache server =
      ((Function.update cache eid slot, server), ret, reply) ∧ Mild (cache eid) slot := by
  obtain ⟨ret, reply, answered⟩ := honest.getattr server eid
  cases here : cache eid with
  | none =>
    by_cases fine : ret = .OK
    · refine ⟨some ⟨[], .NONE, reply.getD arg⟩, ret, reply.getD arg, ?_, .plain plain_none ?_⟩
      · simp only [ExtentClientCache.getattr, here, answered, if_pos fine,
          ExtentClientCache.recordAttr_absent here]
      · rintro entry ⟨⟩
        exact .inl rfl
    · refine ⟨cache eid, ret, reply.getD arg, ?_, here ▸ .refl _⟩
      rw [← update_same]
      simp only [ExtentClientCache.getattr, here, answered, if_neg fine]
  | some entry =>
    cases kind : entry.mState with
    | NONE | UPDATE | MODIFIED =>
      refine ⟨cache eid, .OK, entry.attr, ?_, here ▸ .refl _⟩
      rw [← update_same]
      simp only [ExtentClientCache.getattr, here, kind]
    | REMOVED =>
      refine ⟨cache eid, .NOENT, arg, ?_, here ▸ .refl _⟩
      rw [← update_same]
      simp only [ExtentClientCache.getattr, here, kind]

theorem Ledger.Kept.create (kept : state.Kept) {rpc : Rpc Contents} (honest : Honest rpc)
    {type : ExtentType} {arg : ExtentId} (careful : ¬ state.Drops rpc (.create type arg))
    (env : Ambient) (due : ExtentId → Option Modification) (same : due = state.due) :
    Ledger.Kept ⟨ExtentClientCache.recordCreated env type.code
      ((rpc.create state.server type.code).2.2.getD arg) state.table,
      (rpc.create state.server type.code).1, due⟩ := by
  subst same
  have grows : ∀ eid file, state.server eid = some file →
      (rpc.create state.server type.code).1 eid = some file := by
    intro eid file found
    rcases honest.create state.server type _ _ _ rfl with unchanged | ⟨id, fresh, made⟩
    · rw [unchanged, found]
    · have different : eid ≠ id := by
        rintro rfl
        cases fresh.symm.trans found
      rw [made, Function.update_of_ne different, found]
  refine kept.step ((kept _).mild (.plain ?_ ?_) (grows _) rfl) fun other different =>
    ⟨ExtentClientCache.recordCreated_of_ne env _ different, rfl, grows other⟩
  · intro entry here
    cases kind : entry.mState with
    | NONE => exact .inl rfl
    | UPDATE => exact .inr rfl
    | MODIFIED => exact absurd ⟨entry, here, .inl kind⟩ careful
    | REMOVED => exact absurd ⟨entry, here, .inr kind⟩ careful
  · exact fun entry here => .inl (ExtentClientCache.bare_recordCreated env _ _ entry here)

theorem LedgerAt.put (buf : Bytes) {entry : Entry} (table : next.table eid = some entry)
    (kind : entry.mState = .MODIFIED) (data : entry.data = buf)
    (due : next.due eid = some (.content buf)) : LedgerAt next eid where
  modified other here _ := by
    cases table.symm.trans here
    rw [due, data]
  removed other here gone := by
    cases table.symm.trans here
    cases kind.symm.trans gone
  content other owed := by
    cases due.symm.trans owed
    exact .inl ⟨entry, table, kind, data⟩
  removal owed := by cases due.symm.trans owed

theorem LedgerAt.remove {entry : Entry} (table : next.table eid = some entry)
    (kind : entry.mState = .REMOVED) (due : next.due eid = some .removal) : LedgerAt next eid where
  modified other here modified := by
    cases table.symm.trans here
    cases kind.symm.trans modified
  removed other here _ := due
  content other owed := by cases due.symm.trans owed
  removal _ := ⟨entry, table, kind⟩

/-- The server took the modification, so the entry may go. -/
theorem LedgerAt.written (kept : LedgerAt state eid) {entry : Entry}
    (here : state.table eid = some entry) (kind : entry.mState = .MODIFIED)
    (table : next.table eid = none) (server : (next.server eid).map File.data = some entry.data)
    (due : next.due eid = state.due eid) : LedgerAt next eid := by
  have owed := kept.modified entry here kind
  refine ⟨fun other there => ?_, fun other there => ?_, fun data other => ?_, fun other => ?_⟩
  · cases table.symm.trans there
  · cases table.symm.trans there
  · rw [due, owed] at other
    cases other
    exact .inr server
  · rw [due, owed] at other
    cases other

theorem Ledger.Kept.flush (kept : state.Kept) {rpc : Rpc Contents} (honest : Honest rpc)
    (careful : ¬ state.Drops rpc (.flush eid)) :
    Ledger.Kept ⟨(ExtentClientCache.flush rpc eid state.table state.server).1.1,
      (ExtentClientCache.flush rpc eid state.table state.server).1.2, state.due⟩ := by
  have erased : ∀ other, other ≠ eid → Function.update state.table eid none other =
      state.table other := fun other different => Function.update_of_ne different _ _
  cases here : state.table eid with
  | none =>
    simp only [ExtentClientCache.flush, here]
    exact kept
  | some entry =>
    cases kind : entry.mState with
    | NONE | UPDATE =>
      simp only [ExtentClientCache.flush, here, kind]
      refine kept.step ((kept eid).mild (.plain ?_ ?_) (fun _ => id) rfl) fun other different =>
        ⟨erased other different, rfl, fun _ => id⟩
      · intro other same
        cases here.symm.trans same
        simp [kind]
      · intro other same
        simp at same
    | MODIFIED =>
      simp only [ExtentClientCache.flush, here, kind]
      obtain ⟨others, taken⟩ := honest.put state.server eid entry.data _ _ rfl
      refine kept.step ((kept eid).written here kind (Function.update_self _ _ _) (taken ?_) rfl)
        fun other different => ⟨erased other different, rfl, fun file found => ?_⟩
      · by_contra failed
        exact careful ⟨entry, here, .inr ⟨kind, failed⟩⟩
      · exact (others other different).trans found
    | REMOVED => exact absurd ⟨entry, here, .inl kind⟩ careful

theorem Ledger.Kept.call (kept : state.Kept) {rpc : Rpc Contents} (honest : Honest rpc)
    {call : Call} (careful : ¬ state.Drops rpc call) (steps : state.Step rpc call next) :
    next.Kept := by
  obtain ⟨env, answer, ran, due⟩ := steps
  obtain ⟨table, server, owed⟩ := next
  simp only at ran due
  subst due
  cases call with
  | create type arg =>
    simp only [ExtentClientCache.call, ExtentClientCache.create] at ran
    cases ran
    exact kept.create honest careful env _ rfl
  | get eid buf =>
    obtain ⟨slot, ret, reply, got, mild⟩ := get_mild honest env eid buf state.table state.server
    simp only [ExtentClientCache.call, got] at ran
    cases ran
    refine kept.step ((kept eid).mild ?_ (fun _ => id) rfl) fun other different =>
      ⟨Function.update_of_ne different _ _, rfl, fun _ => id⟩
    simpa using mild
  | getattr eid arg =>
    obtain ⟨slot, ret, reply, got, mild⟩ := getattr_mild honest eid arg state.table state.server
    simp only [ExtentClientCache.call, got] at ran
    cases ran
    refine kept.step ((kept eid).mild ?_ (fun _ => id) rfl) fun other different =>
      ⟨Function.update_of_ne different _ _, rfl, fun _ => id⟩
    simpa using mild
  | put eid buf =>
    by_cases gone : (state.table.entry env eid).mState = .REMOVED
    · simp only [ExtentClientCache.call, ExtentClientCache.put, if_pos gone] at ran
      cases ran
      exact kept
    · simp only [ExtentClientCache.call, ExtentClientCache.put, if_neg gone] at ran
      cases ran
      refine kept.step (.put buf (Function.update_self _ _ _) rfl rfl (Function.update_self _ _ _))
        fun other different => ⟨Function.update_of_ne different _ _,
          Function.update_of_ne different _ _, fun _ => id⟩
  | remove eid =>
    by_cases gone : (state.table.entry env eid).mState = .REMOVED
    · simp only [ExtentClientCache.call, ExtentClientCache.remove, if_pos gone] at ran
      cases ran
      exact kept
    · simp only [ExtentClientCache.call, ExtentClientCache.remove, if_neg gone] at ran
      cases ran
      refine kept.step (.remove (Function.update_self _ _ _) rfl (Function.update_self _ _ _))
        fun other different => ⟨Function.update_of_ne different _ _,
          Function.update_of_ne different _ _, fun _ => id⟩
  | flush eid =>
    have after := kept.flush honest careful
    obtain ⟨rfl, rfl⟩ := Prod.ext_iff.mp (congrArg Prod.fst ran)
    exact after

end Steps

/-- In a run that drops nothing, every accepted modification is in the cache or on
the server. -/
theorem modifications_safe {trace : List Call} {state : Ledger}
    (run : Run modifyingSafely trace state) : state.Safe := by
  have kept : state.Kept := by
    refine run.reachable.invariant (fun start begins eid => ?_) fun _ _ _ kept steps => ?_
    · obtain ⟨empty, none⟩ := begins
      exact ⟨by simp [empty], by simp [empty], by simp [none], by simp [none]⟩
    · obtain ⟨rpc, honest, careful, moves⟩ := steps
      exact kept.call honest careful moves
  exact kept.safe

section Failure

def deaf : Rpc Contents where
  create contents _ := (contents, .library (-1), none)
  put contents _ _ := (contents, .library (-1))
  get contents _ := (contents, .library (-1), none)
  getattr contents _ := (contents, .library (-1), none)
  removeBare contents := (contents, .library (-1), none)

def taking : Rpc Contents where
  __ := deaf
  put contents id data := (Function.update contents id (some ⟨.T_FILE, data⟩), .OK)

theorem honest_deaf : Honest deaf where
  create _ _ _ _ _ ran := .inl (congrArg Prod.fst ran).symm
  put _ _ _ _ _ ran := by
    obtain ⟨rfl, rfl⟩ := Prod.ext_iff.mp ran
    exact ⟨fun _ _ => rfl, fun fine => by cases fine⟩
  get _ _ := ⟨_, _, rfl⟩
  getattr _ _ := ⟨_, _, rfl⟩
  removeBare _ := ⟨_, by simp, rfl⟩

theorem honest_taking : Honest taking where
  __ := honest_deaf
  put _ _ _ _ _ ran := by
    obtain ⟨rfl, rfl⟩ := Prod.ext_iff.mp ran
    exact ⟨fun other different => Function.update_of_ne different _ _, fun _ => by simp [taking]⟩

def flushed (server : Contents) : Ledger where
  table := Function.update (Function.update (fun _ => none) 1
    (some ⟨[104], .MODIFIED, ⟨0, 0, 0, 0, 1⟩⟩)) 1 none
  server := server
  due := Function.update (fun _ => none) 1 (some (.content [104]))

def accepted : Ledger where
  table := Function.update (fun _ => none) 1 (some ⟨[104], .MODIFIED, ⟨0, 0, 0, 0, 1⟩⟩)
  server := rooted
  due := Function.update (fun _ => none) 1 (some (.content [104]))

theorem accepted_step (rpc : Rpc Contents) :
    Ledger.Step ⟨fun _ => none, rooted, fun _ => none⟩ rpc (.put 1 [104]) accepted :=
  ⟨⟨0, ⟨0, 0, 0, 0, 0⟩⟩, .done .OK, rfl, rfl⟩

theorem flushed_step (rpc : Rpc Contents) :
    accepted.Step rpc (.flush 1) (flushed (rpc.put rooted 1 [104]).1) :=
  ⟨⟨0, ⟨0, 0, 0, 0, 0⟩⟩, .done (rpc.put rooted 1 [104]).2, rfl, rfl⟩

theorem modifications_safe_taking : (flushed (taking.put rooted 1 [104]).1).Safe := by
  have start : Run modifyingSafely [] ⟨fun _ => none, rooted, fun _ => none⟩ :=
    .start ⟨fun _ => rfl, fun _ => rfl⟩
  have put : Run modifyingSafely ([] ++ [.put 1 [104]]) accepted :=
    .extend start ⟨taking, honest_taking, not_false, accepted_step taking⟩
  refine modifications_safe (.extend put ⟨taking, honest_taking, ?_, flushed_step taking⟩)
  rintro ⟨entry, here, gone | ⟨_, failed⟩⟩
  · cases here
    cases gone
  · exact failed rfl

/-- The put of a flush fails, and the entry is gone. -/
theorem modification_dropped : ∃ trace state, Run modifying trace state ∧ ¬ state.Safe := by
  have start : Run modifying [] ⟨fun _ => none, rooted, fun _ => none⟩ :=
    .start ⟨fun _ => rfl, fun _ => rfl⟩
  have put : Run modifying ([] ++ [.put 1 [104]]) accepted :=
    .extend start ⟨deaf, honest_deaf, accepted_step deaf⟩
  refine ⟨_, _, .extend put ⟨deaf, honest_deaf, flushed_step deaf⟩, fun safe => ?_⟩
  rcases safe 1 (.content [104]) rfl with ⟨entry, here, _⟩ | applied
  · cases here
  · cases applied

end Failure

end NaiveFileSystem.Cache
