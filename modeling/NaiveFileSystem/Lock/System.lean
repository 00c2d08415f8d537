import NaiveFileSystem.Lib.Pool
import NaiveFileSystem.Lib.Transition
import NaiveFileSystem.Lock.Client

/-!
# The lock caching protocol

Any number of clients with their threads, and one server. A call is synchronous,
so everything in flight on behalf of a thread is the stack of calls below it:
its acquire may wait for a revoke, whose handler may flush and release, which in
turn may wait for a retry. Each stage is a separate step, in any order against
the rest of the system; requests and replies may stay in flight for any time.

All tables are maps from lock ids and every section works on one lock, so the
configuration is a family of slices, one for each lock.
-/

namespace NaiveFileSystem.LockSystem

open LockProtocol Transition Pool

universe u

/-- The constructor prints `127.0.0.1:` in front of the port, so no id is empty. -/
abbrev ClientId := { id : String // id ≠ "" }

/-- `handle h(address); h.safebind()`, which succeeds for the address of a client. -/
def safebind (address : String) : Option ClientId :=
  if real : address ≠ "" then some ⟨address, real⟩ else none

@[simp] theorem safebind_val (client : ClientId) : safebind client.val = some client := by
  simp [safebind, client.property]

/-- The retry call of the server: request in flight, or reply in flight. -/
inductive RetryCall
  | sent | handled
  deriving DecidableEq

/-- The release call of a client. -/
inductive ReleaseCall
  | sent
  | retrying (front : ClientId) (call : RetryCall)
  | replied
  deriving DecidableEq

/-- A client giving a lock back with its mutex dropped: before `dorelease`,
inside it, and in the release call after it. -/
inductive GiveBack
  | unlocked
  | flushing
  | calling (call : ReleaseCall)
  deriving DecidableEq

inductive RevokeCall
  | sent
  | givingBack (stage : GiveBack)
  | handled
  deriving DecidableEq

/-- The acquire call of a client. -/
inductive AcquireCall
  | sent
  | revoking (ret : Status) (holder : ClientId) (call : RevokeCall)
  | replied (ret : Status)
  deriving DecidableEq

/-- Where a thread is with respect to one lock: inside `acquire`, between its
return and the call of `release`, or inside `release`. -/
inductive Op
  | entering
  | waitingCond (signalled : Bool)
  | calling (call : AcquireCall)
  | waitingRetry (signalled : Bool)
  | holding
  | releasing
  | givingBack (stage : GiveBack)
  deriving DecidableEq

structure Activity (Thread : Type u) where
  client : ClientId
  thread : Thread
  op : Op
  deriving DecidableEq

/-- Everything there is about one lock. -/
structure Slice (Thread : Type u) where
  server : Option LockServerCache.Entry
  client : ClientId → Option LockClientCache.Entry
  pool : Multiset (Activity Thread)

/-- What an observer of one lock sees. -/
inductive Event (Thread : Type u)
  | silent
  | acquireCalled (client : ClientId) (thread : Thread)
  | acquired (client : ClientId) (thread : Thread)
  | releaseCalled (client : ClientId) (thread : Thread)
  | doreleaseStart (client : ClientId)
  | doreleaseEnd (client : ClientId)
  | granted (client : ClientId)
  | released (client : ClientId)
  deriving DecidableEq

variable {Thread : Type u}

/-- The section a thread inside `acquire` runs when it next gets the mutex. -/
def Op.resumes : Op → Option (LockClientCache.Entry →
    LockClientCache.Entry × LockClientCache.AcquireNext)
  | .entering => some fun entry => LockClientCache.acquire (some entry)
  | .waitingCond true => some fun entry => entry.recheck
  | .calling (.replied ret) => some fun entry => entry.reply ret
  | .waitingRetry true => some fun entry => entry.awaitRetry
  | _ => none

/-- Where `acquire` goes from a section; any return counts as an acquisition. -/
def Op.ofNext : LockClientCache.AcquireNext → Op
  | .returns _ => .holding
  | .waitsCond => .waitingCond false
  | .calls => .calling .sent
  | .waitsRetry => .waitingRetry false

def Event.ofNext (client : ClientId) (thread : Thread) :
    LockClientCache.AcquireNext → Event Thread
  | .returns _ => .acquired client thread
  | _ => .silent

/-- The server's handler after its section: revoke first, or reply at once. -/
def AcquireCall.ofAcquired (done : LockServerCache.Acquired) : AcquireCall :=
  match done.revoke.bind safebind with
  | some holder => .revoking done.ret holder .sent
  | none => .replied done.ret

def ReleaseCall.ofReleased (done : LockServerCache.Released) : ReleaseCall :=
  match done.retry.bind safebind with
  | some front => .retrying front .sent
  | none => .replied

/-- Who runs the steps of a give-back: a thread inside `release`, or the revoke
handler of `holder` on behalf of the acquire call of another thread. -/
inductive Host (Thread : Type u)
  | releaser (client : ClientId) (thread : Thread)
  | handler (client : ClientId) (thread : Thread) (ret : Status) (holder : ClientId)

def Host.giver : Host Thread → ClientId
  | .releaser client _ => client
  | .handler _ _ _ holder => holder

def Host.run (stage : GiveBack) : Host Thread → Activity Thread
  | .releaser client thread => ⟨client, thread, .givingBack stage⟩
  | .handler client thread ret holder =>
    ⟨client, thread, .calling (.revoking ret holder (.givingBack stage))⟩

def Host.finish : Host Thread → Multiset (Activity Thread)
  | .releaser _ _ => 0
  | .handler client thread ret holder =>
    {⟨client, thread, .calling (.revoking ret holder .handled)⟩}

/-- `pthread_cond_signal(&cond)` and `pthread_cond_signal(&condForRetry)`. -/
def SignalCond (client : ClientId) : Multiset (Activity Thread) → Multiset (Activity Thread) → Prop :=
  Wake (fun thread => ⟨client, thread, .waitingCond false⟩)
    fun thread => ⟨client, thread, .waitingCond true⟩

def SignalRetry (client : ClientId) : Multiset (Activity Thread) → Multiset (Activity Thread) → Prop :=
  Wake (fun thread => ⟨client, thread, .waitingRetry false⟩)
    fun thread => ⟨client, thread, .waitingRetry true⟩

inductive Step : Slice Thread → Event Thread → Slice Thread → Prop
  | call (server client pool caller thread) :
      Step ⟨server, client, pool⟩ (.acquireCalled caller thread)
        ⟨server, client, ⟨caller, thread, .entering⟩ ::ₘ pool⟩
  | resume (server client rest caller thread) {op body entry next} :
      op.resumes = some body →
      body (LockClientCache.Entry.ofSlot (client caller)) = (entry, next) →
      Step ⟨server, client, ⟨caller, thread, op⟩ ::ₘ rest⟩ (.ofNext caller thread next)
        ⟨server, Function.update client caller (some entry),
          ⟨caller, thread, .ofNext next⟩ ::ₘ rest⟩
  -- A waiter may also wake without a signal, and a signal may wake several.
  | wakeCond (server client rest caller thread) :
      Step ⟨server, client, ⟨caller, thread, .waitingCond false⟩ ::ₘ rest⟩ .silent
        ⟨server, client, ⟨caller, thread, .waitingCond true⟩ ::ₘ rest⟩
  | wakeRetry (server client rest caller thread) :
      Step ⟨server, client, ⟨caller, thread, .waitingRetry false⟩ ::ₘ rest⟩ .silent
        ⟨server, client, ⟨caller, thread, .waitingRetry true⟩ ::ₘ rest⟩
  | serverAcquire (server client rest caller thread) {done} :
      LockServerCache.acquireEntry caller.val server = some done →
      Step ⟨server, client, ⟨caller, thread, .calling .sent⟩ ::ₘ rest⟩
        (if done.ret = .OK then .granted caller else .silent)
        ⟨some done.entry, client, ⟨caller, thread, .calling (.ofAcquired done)⟩ ::ₘ rest⟩
  | revokeHandler (server client rest caller thread ret holder) {entry gives} :
      LockClientCache.revokeHandler (client holder) = (entry, gives) →
      Step ⟨server, client, ⟨caller, thread, .calling (.revoking ret holder .sent)⟩ ::ₘ rest⟩
        .silent
        ⟨server, Function.update client holder (some entry), ⟨caller, thread,
          .calling (.revoking ret holder (if gives then .givingBack .unlocked else .handled))⟩
            ::ₘ rest⟩
  | revokeReply (server client rest caller thread ret holder) :
      Step ⟨server, client, ⟨caller, thread, .calling (.revoking ret holder .handled)⟩ ::ₘ rest⟩
        .silent ⟨server, client, ⟨caller, thread, .calling (.replied ret)⟩ ::ₘ rest⟩
  | releaseCall (server client rest caller thread) :
      Step ⟨server, client, ⟨caller, thread, .holding⟩ ::ₘ rest⟩ (.releaseCalled caller thread)
        ⟨server, client, ⟨caller, thread, .releasing⟩ ::ₘ rest⟩
  | releaseReturn (server client caller thread) {slot signal rest woken} :
      LockClientCache.release (client caller) = (slot, .returns signal) →
      (if signal then SignalCond caller rest woken else woken = rest) →
      Step ⟨server, client, ⟨caller, thread, .releasing⟩ ::ₘ rest⟩ .silent
        ⟨server, Function.update client caller slot, woken⟩
  | releaseGiveBack (server client rest caller thread) {slot} :
      LockClientCache.release (client caller) = (slot, .givesBack) →
      Step ⟨server, client, ⟨caller, thread, .releasing⟩ ::ₘ rest⟩ .silent
        ⟨server, Function.update client caller slot,
          ⟨caller, thread, .givingBack .unlocked⟩ ::ₘ rest⟩
  | doreleaseStart (server client rest) (host : Host Thread) :
      Step ⟨server, client, host.run .unlocked ::ₘ rest⟩ (.doreleaseStart host.giver)
        ⟨server, client, host.run .flushing ::ₘ rest⟩
  | doreleaseEnd (server client rest) (host : Host Thread) :
      Step ⟨server, client, host.run .flushing ::ₘ rest⟩ (.doreleaseEnd host.giver)
        ⟨server, client, host.run (.calling .sent) ::ₘ rest⟩
  | serverRelease (server client rest) (host : Host Thread) {done} :
      LockServerCache.releaseEntry host.giver.val server = done →
      Step ⟨server, client, host.run (.calling .sent) ::ₘ rest⟩ (.released host.giver)
        ⟨done.entry, client, host.run (.calling (.ofReleased done)) ::ₘ rest⟩
  | retryHandler (server client front) (host : Host Thread) {rest woken} :
      SignalRetry front rest woken →
      Step ⟨server, client, host.run (.calling (.retrying front .sent)) ::ₘ rest⟩ .silent
        ⟨server, Function.update client front (some (LockClientCache.retryHandler (client front))),
          host.run (.calling (.retrying front .handled)) ::ₘ woken⟩
  | retryReply (server client rest front) (host : Host Thread) :
      Step ⟨server, client, host.run (.calling (.retrying front .handled)) ::ₘ rest⟩ .silent
        ⟨server, client, host.run (.calling .replied) ::ₘ rest⟩
  | givenBack (server client) (host : Host Thread) {rest woken} :
      SignalCond host.giver rest woken →
      Step ⟨server, client, host.run (.calling .replied) ::ₘ rest⟩ .silent
        ⟨server, Function.update client host.giver
          (some (LockClientCache.givenBack (client host.giver))), host.finish + woken⟩

def slice (Thread : Type u) : System (Slice Thread) (Event Thread) where
  init state := state = ⟨none, fun _ => none, 0⟩
  step := Step

/-- The thread is not inside `acquire` or `release` of any lock. -/
def Outside (state : LockId → Slice Thread) (client : ClientId) (thread : Thread) : Prop :=
  ∀ lid, ∀ activity ∈ (state lid).pool,
    activity.client = client → activity.thread = thread → activity.op = .holding

/-- A thread does one thing at a time. -/
def MayCall (state : LockId → Slice Thread) (_ : LockId) : Event Thread → Prop
  | .acquireCalled client thread | .releaseCalled client thread => Outside state client thread
  | _ => True

/-- The whole system: all locks, all clients, all threads. -/
def system (Thread : Type u) : System (LockId → Slice Thread) (LockId × Event Thread) :=
  family (slice Thread) MayCall

end NaiveFileSystem.LockSystem
