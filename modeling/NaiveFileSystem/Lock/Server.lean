import Mathlib.Data.Finset.Basic
import Mathlib.Logic.Function.Basic

/-!
# The caching lock server

`lock_server_cache` keeps one record per lock. Each function below is one
mutex-protected section of the source, first on the record of one lock (absent
until the first request) and then on the table. `none` marks what C++ leaves
undefined: `front()` of an empty queue and `erase(end())`.
-/

namespace NaiveFileSystem

namespace LockProtocol

abbrev LockId := UInt64

/-- `lock_protocol::xxstatus`. -/
inductive Status
  | OK | RETRY | RPCERR | NOENT | IOERR
  deriving DecidableEq, Repr

end LockProtocol

namespace LockServerCache

open LockProtocol

/-- `lock_server_cache_status`. -/
inductive LockStatus
  | FREE | LOCKED | WAITING
  deriving DecidableEq, Repr

/-- `lock_cache_status`; the empty `clientId` stands for no holder. -/
structure Entry where
  clientId : String
  clientQ : List String
  clientS : Finset String
  status : LockStatus
  deriving DecidableEq

/-- What a run of `acquire` leaves when it drops the mutex: the record, the
return value, and the address to revoke from when `needRevoke` was set. -/
structure Acquired where
  entry : Entry
  ret : Status
  revoke : Option String
  deriving DecidableEq

def acquireEntry (id : String) : Option Entry → Option Acquired
  | none => some ⟨⟨id, [], ∅, .LOCKED⟩, .OK, none⟩
  | some entry =>
    match entry.status with
    | .FREE => some ⟨{ entry with status := .LOCKED, clientId := id }, .OK, none⟩
    | .LOCKED => some ⟨{ entry with
        status := .WAITING
        clientQ := entry.clientQ ++ [id]
        clientS := insert id entry.clientS }, .RETRY, some entry.clientId⟩
    | .WAITING =>
      match entry.clientQ with
      | [] => none
      | front :: rest =>
        -- Only the position in the queue is looked at, not whether `clientId` is empty.
        if front = id then
          if id ∈ entry.clientS then
            if rest = [] then
              some ⟨⟨id, rest, entry.clientS.erase id, .LOCKED⟩, .OK, none⟩
            else
              some ⟨⟨id, rest, entry.clientS.erase id, .WAITING⟩, .OK, some id⟩
          else none
        else if id ∈ entry.clientS then
          some ⟨entry, .RETRY, none⟩
        else
          some ⟨{ entry with
            clientQ := entry.clientQ ++ [id]
            clientS := insert id entry.clientS }, .RETRY, none⟩

/-- What a run of `release` leaves when it drops the mutex: the record and the
address to send a retry to. The return value is always `OK`. -/
structure Released where
  entry : Option Entry
  retry : Option String
  deriving DecidableEq

def releaseEntry (id : String) : Option Entry → Released
  | none => ⟨none, none⟩
  | some entry =>
    if entry.clientId ≠ id then ⟨some entry, none⟩
    else
      match entry.status with
      | .FREE => ⟨some entry, none⟩
      | .LOCKED => ⟨some { entry with status := .FREE, clientId := "" }, none⟩
      | .WAITING => ⟨some { entry with clientId := "" }, some (entry.clientQ.headD "")⟩

/-- `lock_cache_status_table`. -/
abbrev Table := LockId → Option Entry

def acquire (table : Table) (lid : LockId) (id : String) :
    Option (Table × Status × Option String) :=
  (acquireEntry id (table lid)).map fun done =>
    (Function.update table lid (some done.entry), done.ret, done.revoke)

def release (table : Table) (lid : LockId) (id : String) : Table × Status × Option String :=
  let done := releaseEntry id (table lid)
  (Function.update table lid done.entry, .OK, done.retry)

/-! ## The representation of one lock -/

/-- The three hand-maintained fields agree. -/
structure Entry.WellFormed (entry : Entry) : Prop where
  nodup : entry.clientQ.Nodup
  mem_iff : ∀ id, id ∈ entry.clientS ↔ id ∈ entry.clientQ
  waiting_iff : entry.status = .WAITING ↔ entry.clientQ ≠ []
  free : entry.status = .FREE → entry.clientId = ""

/-- A locked record names its holder, and nothing but real addresses queue. -/
structure Entry.Addressed (entry : Entry) : Prop where
  locked : entry.status = .LOCKED → entry.clientId ≠ ""
  queue : ∀ id ∈ entry.clientQ, id ≠ ""

theorem acquireEntry_cases (id : String) {slot : Option Entry}
    (valid : ∀ entry, slot = some entry → entry.WellFormed) :
    (slot = none ∧ acquireEntry id slot = some ⟨⟨id, [], ∅, .LOCKED⟩, .OK, none⟩) ∨
    ∃ entry, slot = some entry ∧
      ((entry.status = .FREE ∧ acquireEntry id slot =
          some ⟨{ entry with status := .LOCKED, clientId := id }, .OK, none⟩) ∨
        (entry.status = .LOCKED ∧ entry.clientQ = [] ∧ acquireEntry id slot =
          some ⟨{ entry with
            status := .WAITING, clientQ := [id], clientS := insert id entry.clientS },
            .RETRY, some entry.clientId⟩) ∨
        (∃ rest, entry.status = .WAITING ∧ entry.clientQ = id :: rest ∧ acquireEntry id slot =
          some ⟨⟨id, rest, entry.clientS.erase id, if rest = [] then .LOCKED else .WAITING⟩,
            .OK, if rest = [] then none else some id⟩) ∨
        (∃ front rest, entry.status = .WAITING ∧ entry.clientQ = front :: rest ∧
          front ≠ id ∧ id ∈ entry.clientQ ∧
          acquireEntry id slot = some ⟨entry, .RETRY, none⟩) ∨
        (∃ front rest, entry.status = .WAITING ∧ entry.clientQ = front :: rest ∧
          id ∉ entry.clientQ ∧ acquireEntry id slot =
          some ⟨{ entry with
            clientQ := entry.clientQ ++ [id], clientS := insert id entry.clientS },
            .RETRY, none⟩)) := by
  cases slot with
  | none => exact .inl ⟨rfl, rfl⟩
  | some entry =>
    have wf := valid entry rfl
    refine .inr ⟨entry, rfl, ?_⟩
    cases status : entry.status with
    | FREE => exact .inl ⟨rfl, by simp [acquireEntry, status]⟩
    | LOCKED =>
      have empty : entry.clientQ = [] := by
        by_contra filled
        simp [wf.waiting_iff.mpr filled] at status
      exact .inr (.inl ⟨rfl, empty, by simp [acquireEntry, status, empty]⟩)
    | WAITING =>
      cases queue : entry.clientQ with
      | nil => exact absurd queue (wf.waiting_iff.mp status)
      | cons front rest =>
        by_cases first : front = id
        · subst first
          have listed : front ∈ entry.clientS := (wf.mem_iff front).mpr (by simp [queue])
          refine .inr (.inr (.inl ⟨rest, rfl, rfl, ?_⟩))
          by_cases last : rest = [] <;> simp [acquireEntry, status, queue, listed, last]
        · by_cases listed : id ∈ entry.clientQ
          · have inSet := (wf.mem_iff id).mpr listed
            refine .inr (.inr (.inr (.inl ⟨front, rest, rfl, rfl, first, queue ▸ listed, ?_⟩)))
            simp [acquireEntry, status, queue, first, inSet]
          · have notInSet : id ∉ entry.clientS := fun inSet => listed ((wf.mem_iff id).mp inSet)
            refine .inr (.inr (.inr (.inr ⟨front, rest, rfl, rfl, queue ▸ listed, ?_⟩)))
            simp [acquireEntry, status, queue, first, notInSet]

/-- The outcomes of `release`. -/
theorem releaseEntry_cases (id : String) (slot : Option Entry) :
    (releaseEntry id slot = ⟨slot, none⟩ ∧
      ∀ entry, slot = some entry → entry.clientId ≠ id ∨ entry.status = .FREE) ∨
    ∃ entry, slot = some entry ∧ entry.clientId = id ∧
      ((entry.status = .LOCKED ∧
          releaseEntry id slot = ⟨some { entry with status := .FREE, clientId := "" }, none⟩) ∨
        (entry.status = .WAITING ∧ releaseEntry id slot =
          ⟨some { entry with clientId := "" }, some (entry.clientQ.headD "")⟩)) := by
  cases slot with
  | none => exact .inl ⟨rfl, by simp⟩
  | some entry =>
    by_cases holder : entry.clientId = id
    · cases status : entry.status with
      | FREE => exact .inl ⟨by simp [releaseEntry, holder, status], by simp [status]⟩
      | LOCKED =>
        exact .inr ⟨entry, rfl, holder, .inl ⟨status, by simp [releaseEntry, holder, status]⟩⟩
      | WAITING =>
        exact .inr ⟨entry, rfl, holder, .inr ⟨status, by simp [releaseEntry, holder, status]⟩⟩
    · exact .inl ⟨by simp [releaseEntry, holder], by simp [holder]⟩

theorem acquireEntry_wellFormed (id : String) {slot : Option Entry}
    (valid : ∀ entry, slot = some entry → entry.WellFormed) :
    ∃ done, acquireEntry id slot = some done ∧ done.entry.WellFormed := by
  rcases acquireEntry_cases id valid with ⟨rfl, done⟩ | ⟨entry, rfl, branch⟩
  · exact ⟨_, done, ⟨by simp, by simp, by simp, by simp⟩⟩
  · have wf := valid entry rfl
    rcases branch with ⟨status, done⟩ | ⟨status, queue, done⟩ | ⟨rest, status, queue, done⟩ |
      ⟨front, rest, status, queue, other, listed, done⟩ | ⟨front, rest, status, queue, fresh, done⟩
    · refine ⟨_, done, ⟨wf.nodup, wf.mem_iff, ?_, by simp⟩⟩
      have empty := wf.waiting_iff
      rw [status] at empty
      simpa using empty
    · refine ⟨_, done, ⟨by simp, ?_, by simp, by simp⟩⟩
      intro other
      simp [wf.mem_iff, queue]
    · have distinct := wf.nodup
      rw [queue, List.nodup_cons] at distinct
      refine ⟨_, done, ⟨distinct.2, ?_, ?_, ?_⟩⟩
      · intro other
        rw [Finset.mem_erase, wf.mem_iff, queue, List.mem_cons]
        constructor
        · rintro ⟨different, rfl | inRest⟩
          · exact absurd rfl different
          · exact inRest
        · intro inRest
          exact ⟨fun same => distinct.1 (same ▸ inRest), .inr inRest⟩
      · by_cases last : rest = [] <;> simp [last]
      · by_cases last : rest = [] <;> simp [last]
    · exact ⟨_, done, wf⟩
    · refine ⟨_, done, ⟨?_, ?_, ?_, ?_⟩⟩
      · simpa [List.nodup_append] using
          ⟨wf.nodup, fun other member (same : other = id) => fresh (same ▸ member)⟩
      · intro other
        simp [wf.mem_iff, or_comm]
      · simp [status]
      · simp [status]

theorem acquireEntry_addressed {id : String} (real : id ≠ "") {slot : Option Entry}
    (valid : ∀ entry, slot = some entry → entry.WellFormed)
    (addressed : ∀ entry, slot = some entry → entry.Addressed) {done : Acquired}
    (result : acquireEntry id slot = some done) : done.entry.Addressed := by
  rcases acquireEntry_cases id valid with ⟨rfl, taken⟩ | ⟨entry, rfl, branch⟩
  · cases taken.symm.trans result
    exact ⟨by simp [real], by simp⟩
  · have old := addressed entry rfl
    rcases branch with ⟨status, taken⟩ | ⟨status, queue, taken⟩ | ⟨rest, status, queue, taken⟩ |
      ⟨front, rest, status, queue, other, listed, taken⟩ | ⟨front, rest, status, queue, fresh, taken⟩ <;>
      cases taken.symm.trans result
    · exact ⟨by simp [real], old.queue⟩
    · exact ⟨by simp, by simp [real]⟩
    · exact ⟨by simp [real], fun other member => old.queue other (by simp [queue, member])⟩
    · exact old
    · refine ⟨by simp [status], ?_⟩
      intro other member
      rcases List.mem_append.mp member with before | added
      · exact old.queue other before
      · rw [List.mem_singleton.mp added]
        exact real

theorem releaseEntry_wellFormed (id : String) {slot : Option Entry}
    (valid : ∀ entry, slot = some entry → entry.WellFormed) :
    ∀ entry, (releaseEntry id slot).entry = some entry → entry.WellFormed := by
  rcases releaseEntry_cases id slot with ⟨done, _⟩ | ⟨entry, rfl, _, ⟨status, done⟩ | ⟨status, done⟩⟩
  · rw [done]
    exact valid
  · have wf := valid entry rfl
    have empty := wf.waiting_iff
    rw [status] at empty
    rw [done]
    rintro _ ⟨⟩
    exact ⟨wf.nodup, wf.mem_iff, by simpa using empty, by simp⟩
  · have wf := valid entry rfl
    rw [done]
    rintro _ ⟨⟩
    exact ⟨wf.nodup, wf.mem_iff, wf.waiting_iff, by simp⟩

theorem releaseEntry_addressed (id : String) {slot : Option Entry}
    (addressed : ∀ entry, slot = some entry → entry.Addressed) :
    ∀ entry, (releaseEntry id slot).entry = some entry → entry.Addressed := by
  rcases releaseEntry_cases id slot with ⟨done, _⟩ | ⟨entry, rfl, _, ⟨status, done⟩ | ⟨status, done⟩⟩
  · rw [done]
    exact addressed
  · rw [done]
    rintro _ ⟨⟩
    exact ⟨by simp, (addressed entry rfl).queue⟩
  · rw [done]
    rintro _ ⟨⟩
    exact ⟨by simp [status], (addressed entry rfl).queue⟩

end LockServerCache

end NaiveFileSystem
