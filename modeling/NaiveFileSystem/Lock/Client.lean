import NaiveFileSystem.Lock.Server

/-!
# The caching lock client

One record per lock in `lock_client_cache`, and one function per section that
runs between taking and dropping the client mutex. A section returns the record
it leaves and what its thread does next: return, wait on a condition variable,
or call the server. A record that is missing is created on first use.
-/

namespace NaiveFileSystem.LockClientCache

open LockProtocol

/-- `lock_client_cache_status`. -/
inductive LockStatus
  | NONE | FREE | LOCKED | ACQUIRING | RELEASING
  deriving DecidableEq, Repr

/-- `lock_cache_status`, with the default member values of its constructor. -/
structure Entry where
  revoke : Bool := false
  retry : Bool := false
  status : LockStatus := .NONE
  deriving DecidableEq, Repr

/-- `lock_cache_status_table[lid]`, which creates a missing record. -/
def Entry.ofSlot (slot : Option Entry) : Entry := slot.getD {}

/-- What a thread inside `acquire` does after a section. -/
inductive AcquireNext
  | returns (ret : Status)
  | waitsCond
  | calls
  | waitsRetry
  deriving DecidableEq, Repr

/-- The head of `while (!retry)`: call the server, or leave the loop. -/
def Entry.whileNotRetry (entry : Entry) (ret : Status) : AcquireNext :=
  if entry.retry then .returns ret else .calls

/-- From the label `recheck`, also after every wake-up on `cond`. -/
def Entry.recheck (entry : Entry) : Entry × AcquireNext :=
  match entry.status with
  | .NONE =>
    let entry := { entry with status := .ACQUIRING }
    (entry, entry.whileNotRetry .OK)
  | .FREE => ({ entry with status := .LOCKED }, .returns .OK)
  | .LOCKED | .ACQUIRING | .RELEASING => (entry, .waitsCond)

/-- Entry of `acquire`. The flag `acquire` set for a missing record adds nothing:
the record created for it is `NONE`. -/
def acquire (slot : Option Entry) : Entry × AcquireNext := (Entry.ofSlot slot).recheck

/-- `while (!retry) pthread_cond_wait(&condForRetry)`, then the loop head again. -/
def Entry.awaitRetry (entry : Entry) : Entry × AcquireNext :=
  if entry.retry then
    let entry := { entry with retry := false }
    (entry, entry.whileNotRetry .RETRY)
  else (entry, .waitsRetry)

/-- The section after the reply to the acquire call. -/
def Entry.reply (entry : Entry) (ret : Status) : Entry × AcquireNext :=
  match ret with
  | .RETRY => entry.awaitRetry
  | .OK => ({ entry with status := .LOCKED }, .returns .OK)
  | .RPCERR | .NOENT | .IOERR => (entry, entry.whileNotRetry ret)

/-- What a thread inside `release` does after its first section. -/
inductive ReleaseNext
  | returns (signal : Bool)
  | givesBack
  deriving DecidableEq, Repr

def release : Option Entry → Option Entry × ReleaseNext
  | none => (none, .returns false)
  | some entry =>
    if entry.revoke then (some { entry with revoke := false }, .givesBack)
    else
      match entry.status with
      | .LOCKED => (some { entry with status := .FREE }, .returns true)
      | .RELEASING => (some entry, .givesBack)
      | .NONE | .FREE | .ACQUIRING => (some entry, .returns false)

/-- The section after the release call: the lock is gone, `cond` is signalled. -/
def givenBack (slot : Option Entry) : Entry := { Entry.ofSlot slot with status := .NONE }

/-- `revoke_handler`: the record, and whether the handler gives the lock back itself. -/
def revokeHandler (slot : Option Entry) : Entry × Bool :=
  let entry := Entry.ofSlot slot
  match entry.status with
  | .NONE | .RELEASING | .ACQUIRING => ({ entry with revoke := true }, false)
  | .FREE => ({ entry with status := .RELEASING }, true)
  | .LOCKED => ({ entry with status := .RELEASING }, false)

/-- `retry_handler`, which also signals `condForRetry`. -/
def retryHandler (slot : Option Entry) : Entry := { Entry.ofSlot slot with retry := true }

@[simp] theorem Entry.ofSlot_some (entry : Entry) : Entry.ofSlot (some entry) = entry := rfl

@[simp] theorem Entry.ofSlot_none : Entry.ofSlot none = {} := rfl

end NaiveFileSystem.LockClientCache
