import NaiveFileSystem.Lib.Transition
import NaiveFileSystem.Lock.Server
import Mathlib.Data.List.Nodup

/-!
# Request histories of the lock server

The server answers an arbitrary sequence of requests. The queue of a lock moves
in three ways only, which gives its representation invariant and its order of
service; who may be granted a held lock depends on the front of that queue.
-/

namespace NaiveFileSystem.LockServerCache

open LockProtocol Transition

inductive Request
  | acquire (lid : LockId) (id : String)
  | release (lid : LockId) (id : String)
  deriving DecidableEq

def Request.id : Request → String
  | .acquire _ id => id
  | .release _ id => id

/-- A request with the tables around it and the value it was answered with. -/
structure Served where
  before : Table
  request : Request
  ret : Status
  after : Table

/-- The server and everything it has served, the latest request first. -/
structure Log where
  table : Table
  served : List Served

def serve (table : Table) : Request → Option (Table × Status)
  | .acquire lid id => (acquire table lid id).map fun done => (done.1, done.2.1)
  | .release lid id => some ((release table lid id).1, (release table lid id).2.1)

def Log.advance (log : Log) (request : Request) : Option Log :=
  (serve log.table request).map fun done =>
    ⟨done.1, ⟨log.table, request, done.2, done.1⟩ :: log.served⟩

def run (requests : List Request) : Option Log :=
  requests.foldlM Log.advance ⟨fun _ => none, []⟩

/-- The queue of a lock, empty while the lock has no record. -/
def waiters (table : Table) (lid : LockId) : List String :=
  match table lid with
  | none => []
  | some entry => entry.clientQ

/-! ## One request -/

def Table.WellFormed (table : Table) : Prop :=
  ∀ lid entry, table lid = some entry → entry.WellFormed

def Table.Addressed (table : Table) : Prop :=
  ∀ lid entry, table lid = some entry → entry.Addressed

theorem serve_total {table : Table} (valid : table.WellFormed) (request : Request) :
    ∃ next ret, serve table request = some (next, ret) ∧ Table.WellFormed next := by
  cases request with
  | acquire lid id =>
    obtain ⟨done, taken, wf⟩ := acquireEntry_wellFormed id (valid lid)
    refine ⟨Function.update table lid (some done.entry), done.ret,
      by simp [serve, acquire, taken], ?_⟩
    intro other entry found
    by_cases same : other = lid
    · subst same
      rw [Function.update_self, Option.some.injEq] at found
      exact found ▸ wf
    · rw [Function.update_of_ne same] at found
      exact valid other entry found
  | release lid id =>
    refine ⟨_, _, rfl, ?_⟩
    intro other entry found
    by_cases same : other = lid
    · subst same
      simp only [release, Function.update_self] at found
      exact releaseEntry_wellFormed id (valid other) entry found
    · simp only [release, Function.update_of_ne same] at found
      exact valid other entry found

theorem serve_addressed {table next : Table} {request : Request} {ret : Status}
    (valid : table.WellFormed) (addressed : table.Addressed) (real : request.id ≠ "")
    (served : serve table request = some (next, ret)) : Table.Addressed next := by
  intro other entry found
  cases request with
  | acquire lid id =>
    simp only [serve, acquire, Option.map_map, Option.map_eq_some_iff, Function.comp_apply,
      Prod.mk.injEq] at served
    obtain ⟨done, taken, rfl, rfl⟩ := served
    by_cases same : other = lid
    · subst same
      rw [Function.update_self, Option.some.injEq] at found
      exact found ▸ acquireEntry_addressed real (valid other) (addressed other) taken
    · rw [Function.update_of_ne same] at found
      exact addressed other entry found
  | release lid id =>
    simp only [serve, release, Option.some.injEq, Prod.mk.injEq] at served
    obtain ⟨rfl, rfl⟩ := served
    by_cases same : other = lid
    · subst same
      rw [Function.update_self] at found
      exact releaseEntry_addressed id (addressed other) entry found
    · rw [Function.update_of_ne same] at found
      exact addressed other entry found

/-- How one request moves the queue of a lock: not at all, one client joins at
the back and is told to retry, or the front is granted and leaves. -/
inductive QueueStep (lid : LockId) (request : Request) (ret : Status) :
    List String → List String → Prop
  | still {queue : List String} :
      (∀ id, request = .acquire lid id → ret = .OK ∨ id ∈ queue) →
      (∀ id, request = .acquire lid id → ret = .OK → queue = []) →
      QueueStep lid request ret queue queue
  | joins {queue : List String} {id : String} : request = .acquire lid id → ret = .RETRY →
      id ∉ queue → QueueStep lid request ret queue (queue ++ [id])
  | granted {queue : List String} {id : String} : request = .acquire lid id → ret = .OK →
      id ∉ queue → QueueStep lid request ret (id :: queue) queue

theorem serve_queueStep {table next : Table} {request : Request} {ret : Status}
    (valid : table.WellFormed) (served : serve table request = some (next, ret)) (lid : LockId) :
    QueueStep lid request ret (waiters table lid) (waiters next lid) := by
  cases request with
  | acquire target id =>
    simp only [serve, acquire, Option.map_map, Option.map_eq_some_iff, Function.comp_apply,
      Prod.mk.injEq] at served
    obtain ⟨done, taken, rfl, rfl⟩ := served
    by_cases same : lid = target
    · subst same
      simp only [waiters, Function.update_self]
      rcases acquireEntry_cases id (valid lid) with ⟨slot, known⟩ | ⟨entry, slot, branch⟩
      · cases known.symm.trans taken
        rw [slot]
        exact .still (fun _ _ => .inl rfl) fun _ _ _ => rfl
      · have wf := valid lid entry slot
        rcases branch with ⟨status, known⟩ | ⟨_, queue, known⟩ | ⟨rest, _, queue, known⟩ |
          ⟨front, rest, _, queue, _, listed, known⟩ | ⟨front, rest, _, queue, fresh, known⟩ <;>
          cases known.symm.trans taken <;> rw [slot]
        · have empty := wf.waiting_iff
          rw [status] at empty
          exact .still (fun _ _ => .inl rfl) fun _ _ _ => by simpa using empty
        · show QueueStep lid _ _ entry.clientQ [id]
          rw [queue]
          exact @QueueStep.joins lid _ _ [] id rfl rfl (by simp)
        · have distinct := wf.nodup
          rw [queue, List.nodup_cons] at distinct
          simpa [queue] using @QueueStep.granted lid _ _ rest id rfl rfl distinct.1
        · refine .still (fun other acquired => .inr ?_) fun _ _ bad => by cases bad
          cases acquired
          exact listed
        · exact .joins rfl rfl fresh
    · simp only [waiters, Function.update_of_ne same]
      exact .still (fun _ acquired => by simp_all) fun _ acquired => by simp_all
  | release target id =>
    simp only [serve, release, Option.some.injEq, Prod.mk.injEq] at served
    obtain ⟨rfl, rfl⟩ := served
    have unchanged : waiters (Function.update table target (releaseEntry id (table target)).entry)
        lid = waiters table lid := by
      by_cases same : lid = target
      · subst same
        simp only [waiters, Function.update_self]
        rcases releaseEntry_cases id (table lid) with
          ⟨done, _⟩ | ⟨entry, slot, _, ⟨_, done⟩ | ⟨_, done⟩⟩
        · rw [done]
        · rw [done, slot]
        · rw [done, slot]
      · simp only [waiters, Function.update_of_ne same]
    rw [unchanged]
    exact .still (fun _ acquired => by cases acquired) fun _ acquired => by cases acquired

/-! ## Representation and order of service -/

def Served.joins (lid : LockId) (served : Served) : List String :=
  (waiters served.after lid).filter (· ∉ waiters served.before lid)

def Served.leaves (lid : LockId) (served : Served) : List String :=
  (waiters served.before lid).filter (· ∉ waiters served.after lid)

/-- Everyone who ever entered the queue of `lid`, in the order of entering. -/
def joined (lid : LockId) : List Served → List String
  | [] => []
  | served :: earlier => joined lid earlier ++ served.joins lid

def departed (lid : LockId) : List Served → List String
  | [] => []
  | served :: earlier => departed lid earlier ++ served.leaves lid

/-- The last answer to an acquire of `lid` by `id` was to retry. -/
def Awaits (lid : LockId) (id : String) : List Served → Prop
  | [] => False
  | served :: earlier =>
    if served.request = .acquire lid id then served.ret = .RETRY else Awaits lid id earlier

theorem QueueStep.awaits {lid : LockId} {request : Request} {ret : Status}
    {before after : List String} (moved : QueueStep lid request ret before after) {id : String}
    {earlier : Prop} (inside : earlier → id ∈ before)
    (waits : if request = .acquire lid id then ret = .RETRY else earlier) : id ∈ after := by
  split at waits
  next own =>
    cases moved with
    | still answered => simpa [waits] using answered id own
    | joins acquired _ _ => cases own.symm.trans acquired; simp
    | granted _ ok _ => simp [ok] at waits
  next other =>
    cases moved with
    | still => exact inside waits
    | joins => exact List.mem_append_left _ (inside waits)
    | granted acquired _ _ =>
      rcases List.mem_cons.mp (inside waits) with same | rest
      · exact absurd (same ▸ acquired) other
      · exact rest

theorem filter_absent_of_subset {first second : List String} (inside : first ⊆ second) :
    first.filter (· ∉ second) = [] := by
  simpa [List.filter_eq_nil_iff] using fun id member => inside member

theorem QueueStep.order {lid : LockId} {request : Request} {ret : Status}
    {before after : List String} (moved : QueueStep lid request ret before after) :
    before ++ after.filter (· ∉ before) = before.filter (· ∉ after) ++ after := by
  cases moved with
  | still => simp only [filter_absent_of_subset (List.Subset.refl before), List.append_nil,
      List.nil_append]
  | joins _ _ fresh =>
    rw [filter_absent_of_subset (List.subset_append_left before _), List.filter_append,
      filter_absent_of_subset (List.Subset.refl before)]
    simp [fresh]
  | @granted _ front _ _ fresh =>
    rw [filter_absent_of_subset (List.subset_cons_self front after), List.filter_cons,
      filter_absent_of_subset (List.Subset.refl after)]
    simp [fresh]

theorem QueueStep.leaver {lid : LockId} {request : Request} {ret : Status}
    {before after : List String} (moved : QueueStep lid request ret before after) {id : String}
    (leaves : id ∈ before.filter (· ∉ after)) : request = .acquire lid id ∧ ret = .OK := by
  cases moved with
  | still =>
    rw [filter_absent_of_subset (List.Subset.refl before)] at leaves
    simp at leaves
  | joins =>
    rw [filter_absent_of_subset (List.subset_append_left before _)] at leaves
    simp at leaves
  | @granted _ front acquired ok _ =>
    have same : id = front := by
      by_contra different
      simp_all
    exact ⟨same ▸ acquired, ok⟩

structure Log.Orderly (log : Log) : Prop where
  wellFormed : log.table.WellFormed
  addressed : log.table.Addressed
  awaiting : ∀ lid id, Awaits lid id log.served → id ∈ waiters log.table lid
  order : ∀ lid, joined lid log.served = departed lid log.served ++ waiters log.table lid
  leaver : ∀ served ∈ log.served, ∀ lid, ∀ id ∈ served.leaves lid,
    served.request = .acquire lid id ∧ served.ret = .OK

theorem Log.Orderly.advance {log : Log} (orderly : log.Orderly) {request : Request}
    (real : request.id ≠ "") : ∃ next, log.advance request = some next ∧ next.Orderly := by
  obtain ⟨table, ret, served, wf⟩ := serve_total orderly.wellFormed request
  have moved := serve_queueStep orderly.wellFormed served
  refine ⟨⟨table, ⟨log.table, request, ret, table⟩ :: log.served⟩,
    by simp [Log.advance, served], wf, ?_, ?_, ?_, ?_⟩
  · exact serve_addressed orderly.wellFormed orderly.addressed real served
  · intro lid id waits
    exact (moved lid).awaits (orderly.awaiting lid id) waits
  · intro lid
    have before := orderly.order lid
    simp only [joined, departed, Served.joins, Served.leaves, before, List.append_assoc]
    exact congrArg _ (moved lid).order
  · intro step member lid id leaves
    rcases List.mem_cons.mp member with rfl | earlier
    · exact (moved lid).leaver leaves
    · exact orderly.leaver step earlier lid id leaves

/-- Every history of requests with real addresses runs without an undefined
step, keeps queue, set and status of each lock in agreement, keeps everyone who
was told to retry queued until granted, and serves the queue in order. -/
theorem queue_represented_and_fifo (requests : List Request)
    (real : ∀ request ∈ requests, request.id ≠ "") :
    ∃ log, run requests = some log ∧
      (∀ lid entry, log.table lid = some entry →
        entry.clientQ.Nodup ∧ (∀ id, id ∈ entry.clientS ↔ id ∈ entry.clientQ) ∧
        (entry.status = .WAITING ↔ entry.clientQ ≠ []) ∧
        (entry.status = .FREE → entry.clientId = "") ∧
        (entry.status = .LOCKED → entry.clientId ≠ "")) ∧
      (∀ lid id, Awaits lid id log.served → id ∈ waiters log.table lid) ∧
      (∀ lid, joined lid log.served = departed lid log.served ++ waiters log.table lid) ∧
      (∀ served ∈ log.served, ∀ lid, ∀ id ∈ served.leaves lid,
        served.request = .acquire lid id ∧ served.ret = .OK) := by
  obtain ⟨log, ran, orderly⟩ := @foldlM_total _ _ Log.advance Log.Orderly
    (fun request => request.id ≠ "") (fun _ _ here allowed => here.advance allowed) requests
    ⟨fun _ => none, []⟩ ⟨by simp [Table.WellFormed], by simp [Table.Addressed], by simp [Awaits],
      by simp [joined, departed, waiters], by simp⟩ real
  refine ⟨log, ran, ?_, orderly.awaiting, orderly.order, orderly.leaver⟩
  intro lid entry found
  have wf := orderly.wellFormed lid entry found
  exact ⟨wf.nodup, wf.mem_iff, wf.waiting_iff, wf.free,
    (orderly.addressed lid entry found).locked⟩

theorem queue_represented_and_fifo_two_waiters :
    ∃ log, run [.acquire 1 "a", .acquire 1 "b", .acquire 1 "c", .release 1 "a",
        .acquire 1 "b"] = some log ∧
      joined 1 log.served = departed 1 log.served ++ waiters log.table 1 := by
  obtain ⟨log, ran, _, _, order, _⟩ := queue_represented_and_fifo
    [.acquire 1 "a", .acquire 1 "b", .acquire 1 "c", .release 1 "a", .acquire 1 "b"] (by decide)
  exact ⟨log, ran, order 1⟩

/-! ## Grants of held locks -/

/-- `id` was granted `lid` and has sent no release since. -/
def Holds (lid : LockId) (id : String) : List Served → Prop
  | [] => False
  | served :: earlier =>
    (served.request = .acquire lid id ∧ served.ret = .OK) ∨
      (served.request ≠ .release lid id ∧ Holds lid id earlier)

/-- While one client holds a lock, every other client is told to retry. -/
def NeverGrantsHeld : List Served → Prop
  | [] => True
  | served :: earlier =>
    (∀ lid holder id, served.request = .acquire lid id → holder ≠ id →
      Holds lid holder earlier → served.ret = .RETRY) ∧ NeverGrantsHeld earlier

/-- A client at the front of the queue asks only when the record names no other
holder: `clientId` is its own, or was emptied by the release of the last holder. -/
def FrontAsksReleased : List Served → Prop
  | [] => True
  | served :: earlier =>
    (∀ lid id entry, served.request = .acquire lid id → served.before lid = some entry →
      entry.status = .WAITING → entry.clientQ.head? = some id →
      entry.clientId = id ∨ (entry.clientId = "" ∧ ¬ Holds lid "" earlier)) ∧
    FrontAsksReleased earlier

structure Log.HolderKnown (log : Log) : Prop where
  recorded : ∀ lid id, Holds lid id log.served →
    ∃ entry, log.table lid = some entry ∧ entry.clientId = id ∧ entry.status ≠ .FREE
  held : ∀ lid entry, log.table lid = some entry → entry.clientId ≠ "" →
    Holds lid entry.clientId log.served

theorem serve_acquire_grants_front {table next : Table} {lid : LockId} {id : String}
    {ret : Status} (valid : table.WellFormed)
    (served : serve table (.acquire lid id) = some (next, ret)) {entry : Entry}
    (found : table lid = some entry) (waiting : entry.status = .WAITING)
    (front : entry.clientQ.head? = some id) : ret = .OK := by
  have moved := serve_queueStep valid served lid
  simp only [serve, acquire, Option.map_map, Option.map_eq_some_iff, Function.comp_apply,
    Prod.mk.injEq] at served
  obtain ⟨done, taken, rfl, rfl⟩ := served
  rcases acquireEntry_cases id (valid lid) with ⟨slot, _⟩ | ⟨other, slot, branch⟩
  · simp [found] at slot
  · cases found.symm.trans slot
    rcases branch with ⟨status, _⟩ | ⟨status, _⟩ | ⟨rest, _, _, known⟩ |
      ⟨first, rest, _, queue, different, _⟩ | ⟨first, rest, _, queue, fresh, _⟩
    · simp [status] at waiting
    · simp [status] at waiting
    · cases known.symm.trans taken
      rfl
    · simp [queue, different] at front
    · simp only [queue, List.head?_cons, Option.some.injEq] at front
      simp [queue, front] at fresh

theorem serve_acquire_holder {table next : Table} {lid : LockId} {id : String} {ret : Status}
    (valid : table.WellFormed) (served : serve table (.acquire lid id) = some (next, ret)) :
    ∃ entry, next lid = some entry ∧
      ((ret = .OK ∧ entry.clientId = id ∧ entry.status ≠ .FREE ∧
          ∀ old, table lid = some old → old.status = .FREE ∨
            (old.status = .WAITING ∧ old.clientQ.head? = some id)) ∨
        (ret = .RETRY ∧ ∃ old, table lid = some old ∧ old.status ≠ .FREE ∧
          entry.clientId = old.clientId ∧ entry.status ≠ .FREE)) := by
  simp only [serve, acquire, Option.map_map, Option.map_eq_some_iff, Function.comp_apply,
    Prod.mk.injEq] at served
  obtain ⟨done, taken, rfl, rfl⟩ := served
  refine ⟨done.entry, by simp, ?_⟩
  rcases acquireEntry_cases id (valid lid) with ⟨slot, known⟩ | ⟨entry, slot, branch⟩
  · cases known.symm.trans taken
    exact .inl ⟨rfl, rfl, by simp, by simp [slot]⟩
  · rcases branch with ⟨status, known⟩ | ⟨status, _, known⟩ | ⟨rest, status, queue, known⟩ |
      ⟨front, rest, status, _, _, _, known⟩ | ⟨front, rest, status, _, _, known⟩ <;>
      cases known.symm.trans taken
    · refine .inl ⟨rfl, rfl, by simp, ?_⟩
      intro old found
      cases slot.symm.trans found
      exact .inl status
    · exact .inr ⟨rfl, entry, slot, by simp [status], rfl, by simp⟩
    · refine .inl ⟨rfl, rfl, by by_cases last : rest = [] <;> simp [last], ?_⟩
      intro old found
      cases slot.symm.trans found
      exact .inr ⟨status, by simp [queue]⟩
    · exact .inr ⟨rfl, entry, slot, by simp [status], rfl, by simp [status]⟩
    · exact .inr ⟨rfl, entry, slot, by simp [status], rfl, by simp [status]⟩

theorem serve_other {table next : Table} {request : Request} {ret : Status} {lid : LockId}
    (served : serve table request = some (next, ret))
    (acquires : ∀ id, request ≠ .acquire lid id) (releases : ∀ id, request ≠ .release lid id) :
    next lid = table lid := by
  cases request with
  | acquire target id =>
    have different : lid ≠ target := fun same => acquires id (same ▸ rfl)
    simp only [serve, acquire, Option.map_map, Option.map_eq_some_iff, Function.comp_apply,
      Prod.mk.injEq] at served
    obtain ⟨done, _, rfl, _⟩ := served
    exact Function.update_of_ne different _ _
  | release target id =>
    have different : lid ≠ target := fun same => releases id (same ▸ rfl)
    simp only [serve, release, Option.some.injEq, Prod.mk.injEq] at served
    rw [← served.1]
    exact Function.update_of_ne different _ _

theorem Log.HolderKnown.retries {log : Log} (known : log.HolderKnown)
    (valid : log.table.WellFormed) {next : Table} {ret : Status} {lid : LockId} {id : String}
    (served : serve log.table (.acquire lid id) = some (next, ret))
    (released : ∀ entry, log.table lid = some entry → entry.status = .WAITING →
      entry.clientQ.head? = some id →
      entry.clientId = id ∨ (entry.clientId = "" ∧ ¬ Holds lid "" log.served))
    {holder : String} (different : holder ≠ id) (holds : Holds lid holder log.served) :
    ret = .RETRY := by
  obtain ⟨entry, found, named, busy⟩ := known.recorded lid holder holds
  obtain ⟨_, _, ⟨_, _, _, old⟩ | ⟨retry, _⟩⟩ := serve_acquire_holder valid served
  · rcases old entry found with free | ⟨waiting, front⟩
    · exact absurd free busy
    · rcases released entry found waiting front with own | ⟨empty, nobody⟩
      · exact absurd (named.symm.trans own) different
      · have blank : holder = "" := named.symm.trans empty
        exact absurd (blank ▸ holds) nobody
  · exact retry

theorem Log.HolderKnown.advance {log : Log} (known : log.HolderKnown)
    (valid : log.table.WellFormed) {request : Request} {next : Table} {ret : Status}
    (served : serve log.table request = some (next, ret))
    (retries : ∀ lid holder id, request = .acquire lid id → holder ≠ id →
      Holds lid holder log.served → ret = .RETRY) :
    Log.HolderKnown ⟨next, ⟨log.table, request, ret, next⟩ :: log.served⟩ := by
  constructor
  · rintro lid id (⟨acquired, ok⟩ | ⟨kept, holds⟩)
    · simp only at acquired ok
      subst acquired ok
      obtain ⟨entry, found, ⟨_, named, busy, _⟩ | ⟨retry, _⟩⟩ := serve_acquire_holder valid served
      · exact ⟨entry, found, named, busy⟩
      · cases retry
    · obtain ⟨entry, found, named, busy⟩ := known.recorded lid id holds
      by_cases acquires : ∃ asker, request = .acquire lid asker
      · obtain ⟨asker, rfl⟩ := acquires
        obtain ⟨after, stored, ⟨ok, own, taken, _⟩ | ⟨_, old, before, _, same, taken⟩⟩ :=
          serve_acquire_holder valid served
        · by_cases self : id = asker
          · exact ⟨after, stored, self ▸ own, taken⟩
          · cases ok.symm.trans (retries lid id asker rfl self holds)
        · cases found.symm.trans before
          exact ⟨after, stored, same.trans named, taken⟩
      · by_cases releases : ∃ other, request = .release lid other
        · obtain ⟨other, rfl⟩ := releases
          have different : entry.clientId ≠ other := by
            rintro rfl
            exact kept (named ▸ rfl)
          simp only [serve, release, found, releaseEntry, different, ne_eq, not_false_eq_true,
            if_true, Option.some.injEq, Prod.mk.injEq] at served
          exact ⟨entry, by simp [← served.1], named, busy⟩
        · have same := serve_other served (not_exists.mp acquires) (not_exists.mp releases)
          exact ⟨entry, same.trans found, named, busy⟩
  · intro lid entry found real
    by_cases acquires : ∃ asker, request = .acquire lid asker
    · obtain ⟨asker, rfl⟩ := acquires
      obtain ⟨after, stored, ⟨ok, own, _, _⟩ | ⟨_, old, before, _, same, _⟩⟩ :=
        serve_acquire_holder valid served
      · cases found.symm.trans stored
        exact .inl ⟨own ▸ rfl, ok⟩
      · cases found.symm.trans stored
        exact .inr ⟨by simp, same ▸ known.held lid old before (same ▸ real)⟩
    · by_cases releases : ∃ other, request = .release lid other
      · obtain ⟨other, rfl⟩ := releases
        simp only [serve, release, Option.some.injEq, Prod.mk.injEq] at served
        rw [← served.1] at found
        simp only [Function.update_self] at found
        rcases releaseEntry_cases other (log.table lid) with
          ⟨done, others⟩ | ⟨old, _, _, ⟨_, done⟩ | ⟨_, done⟩⟩ <;> rw [done] at found
        · refine .inr ⟨?_, known.held lid entry found real⟩
          rintro ⟨⟩
          rcases others entry found with different | free
          · exact different rfl
          · exact real ((valid lid entry found).free free)
        · cases found
          exact absurd rfl real
        · cases found
          exact absurd rfl real
      · have same := serve_other served (not_exists.mp acquires) (not_exists.mp releases)
        refine .inr ⟨?_, known.held lid entry (same ▸ found) real⟩
        exact fun bad => releases ⟨_, bad⟩

structure Log.Judged (log : Log) : Prop where
  wellFormed : log.table.WellFormed
  iff : NeverGrantsHeld log.served ↔ FrontAsksReleased log.served
  known : FrontAsksReleased log.served → log.HolderKnown

theorem Log.Judged.advance {log : Log} (judged : log.Judged) (request : Request) :
    ∃ next, log.advance request = some next ∧ next.Judged := by
  obtain ⟨table, ret, served, wf⟩ := serve_total judged.wellFormed request
  have retried : FrontAsksReleased (⟨log.table, request, ret, table⟩ :: log.served) →
      ∀ lid holder id, request = .acquire lid id → holder ≠ id →
        Holds lid holder log.served → ret = .RETRY := by
    rintro ⟨asks, before⟩ lid holder id rfl different holds
    exact (judged.known before).retries judged.wellFormed served
      (fun entry => asks lid id entry rfl) different holds
  refine ⟨⟨table, ⟨log.table, request, ret, table⟩ :: log.served⟩,
    by simp [Log.advance, served], wf, ⟨?_, ?_⟩, ?_⟩
  · rintro ⟨retries, before⟩
    have released := judged.iff.mp before
    refine ⟨?_, released⟩
    rintro lid id entry rfl found waiting front
    have granted := serve_acquire_grants_front judged.wellFormed served found waiting front
    by_contra neither
    push Not at neither
    obtain ⟨foreign, blank⟩ := neither
    -- Whoever is recorded still holds the lock, so this grant was a second one.
    by_cases empty : entry.clientId = ""
    · have retry := retries lid "" id rfl (empty ▸ foreign) (blank empty)
      cases granted.symm.trans retry
    · have holds := (judged.known released).held lid entry found empty
      cases granted.symm.trans (retries lid _ id rfl foreign holds)
  · intro asks
    exact ⟨retried asks, judged.iff.mpr asks.2⟩
  · intro asks
    exact (judged.known asks.2).advance judged.wellFormed served (retried asks)

/-- The server keeps a held lock from everyone else in exactly the histories in
which no client at the front of a queue asks before the holder has released. -/
theorem neverGrantsHeld_iff (requests : List Request) :
    ∃ log, run requests = some log ∧
      (NeverGrantsHeld log.served ↔ FrontAsksReleased log.served) := by
  obtain ⟨log, ran, judged⟩ := @foldlM_total _ _ Log.advance Log.Judged (fun _ => True)
    (fun _ request here _ => here.advance request) requests ⟨fun _ => none, []⟩
    ⟨by simp [Table.WellFormed], by simp [NeverGrantsHeld, FrontAsksReleased],
      fun _ => ⟨by simp [Holds], by simp⟩⟩ (by simp)
  exact ⟨log, ran, judged.iff⟩

/-- A queued client that repeats its acquire is granted the lock another holds. -/
theorem repeated_acquire_granted :
    ∃ log, run [.acquire 1 "a", .acquire 1 "b", .acquire 1 "b"] = some log ∧
      log.served.map Served.ret = [.OK, .RETRY, .OK] ∧ Holds 1 "a" log.served ∧
      ¬ NeverGrantsHeld log.served := by
  refine ⟨_, rfl, by decide, .inr ⟨by simp, .inr ⟨by simp, .inl ⟨rfl, rfl⟩⟩⟩, ?_⟩
  rintro ⟨retries, _⟩
  have retry := retries 1 "a" "b" rfl (by decide) (.inr ⟨by simp, .inl ⟨rfl, rfl⟩⟩)
  revert retry
  decide

end NaiveFileSystem.LockServerCache
