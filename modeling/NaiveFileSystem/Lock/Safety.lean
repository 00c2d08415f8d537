import NaiveFileSystem.Lock.Conservation

/-!
# Mutual exclusion and no lost wake-ups

The tenure law makes every user of a lock the recorded holder. A thread that
waits when nothing is in flight leads to a queued client, whose missing retry
leads to a recorded holder, whose missing revoke contradicts the laws.
-/

namespace NaiveFileSystem.LockSystem

open LockProtocol Transition Pool

universe u

variable {Thread : Type u}

/-! ## Mutual exclusion -/

theorem tally_inUse_of_holding {activity : Activity Thread} (holding : activity.op = .holding) :
    (activity.tokens activity.client).count .inUse = 1 := by
  simp [Activity.tokens, holding]

theorem Conserved.holder_of_holding {slice : Slice Thread} (conserved : Conserved slice)
    {activity : Activity Thread} (member : activity ∈ slice.pool)
    (holding : activity.op = .holding) :
    ∃ entry, slice.server = some entry ∧ entry.clientId = activity.client.val := by
  have used := le_weight (fun one => (one.tokens activity.client).count .inUse) member
  rw [tally_inUse_of_holding holding] at used
  have tenure := (conserved.balanced activity.client).tenure
  change 1 ≤ tally slice.pool activity.client .inUse at used
  cases server : slice.server with
  | none =>
    simp only [standing, server] at tenure
    omega
  | some entry =>
    refine ⟨entry, rfl, ?_⟩
    by_contra other
    simp only [standing, server, other, if_false] at tenure
    omega

theorem Conserved.users_le_one {slice : Slice Thread} (conserved : Conserved slice) :
    slice.pool.countP (fun activity => activity.op = .holding) ≤ 1 := by
  by_contra many
  obtain ⟨first, second, here, there, both⟩ := exists_pair_of_countP (Nat.lt_of_not_le many)
  obtain ⟨entry, server, holder⟩ :=
    conserved.holder_of_holding (Multiset.mem_of_le both (by simp)) here
  obtain ⟨known, again, rival⟩ :=
    conserved.holder_of_holding (Multiset.mem_of_le both (by simp)) there
  cases server.symm.trans again
  have same : first.client = second.client := Subtype.ext (holder.symm.trans rival)
  have used := add_le_weight (fun one => (one.tokens first.client).count .inUse) both
  rw [tally_inUse_of_holding here, same, tally_inUse_of_holding there] at used
  have owning := (conserved.balanced second.client).owning
  change 1 + 1 ≤ tally slice.pool second.client .inUse at used
  split at owning <;> omega

/-- At most one thread is between the return of `acquire` and its `release`. -/
theorem mutual_exclusion {state : LockId → Slice Thread}
    (reachable : Reachable (system Thread) state) (lid : LockId) :
    (state lid).pool.countP (fun activity => activity.op = .holding) ≤ 1 :=
  (conserved_of_system reachable lid).users_le_one

/-! ### Runs on one lock -/

/-- Nothing has happened to the other locks. -/
def alone (lid : LockId) (slice : Slice Thread) : LockId → Slice Thread :=
  Function.update (fun _ => ⟨none, fun _ => none, 0⟩) lid slice

theorem alone_start (lid : LockId) :
    Run (system Thread) [] (alone lid ⟨none, fun _ => none, 0⟩) := by
  refine .start fun other => ?_
  simp only [alone, Function.update_apply, ite_self]
  rfl

def Event.caller : Event Thread → Option Thread
  | .acquireCalled _ thread | .releaseCalled _ thread => some thread
  | _ => none

theorem alone_step {lid : LockId} {trace : List (LockId × Event Thread)} {slice next : Slice Thread}
    {event : Event Thread} (run : Run (system Thread) trace (alone lid slice))
    (free : ∀ thread, event.caller = some thread → ∀ activity ∈ slice.pool,
      activity.op = .holding ∨ activity.thread ≠ thread)
    (step : Step slice event next) :
    Run (system Thread) (trace ++ [(lid, event)]) (alone lid next) := by
  have moves : Step (alone lid slice lid) event next := by simpa [alone] using step
  refine .extend run ⟨?_, next, moves, by simp [alone]⟩
  have outside : ∀ client thread, event.caller = some thread →
      Outside (alone lid slice) client thread := by
    intro client thread calls other activity member _ own
    by_cases same : other = lid
    · subst same
      simp only [alone, Function.update_self] at member
      exact (free thread calls activity member).resolve_right fun unequal => unequal own
    · simp [alone, Function.update_of_ne same] at member
  cases event <;> first | trivial | exact outside _ _ rfl

theorem alone_quiet {lid : LockId} {trace : List (LockId × Event Thread)}
    {slice next : Slice Thread} {event : Event Thread}
    (run : Run (system Thread) trace (alone lid slice)) (quiet : event.caller = none)
    (step : Step slice event next) :
    Run (system Thread) (trace ++ [(lid, event)]) (alone lid next) :=
  alone_step run (by simp [quiet]) step

def someone : ClientId := ⟨"127.0.0.1:1024", by decide⟩

/-- One thread has the lock, and another one of its client waits for it. -/
theorem held_and_awaited : ∃ state, Reachable (system ℕ) state ∧
    ⟨someone, 0, .holding⟩ ∈ (state 7).pool ∧
    ⟨someone, 1, .waitingCond false⟩ ∈ (state 7).pool := by
  have called := alone_step (alone_start 7) (by simp) (.call _ _ _ someone 0)
  have entered := alone_quiet called rfl (.resume _ _ _ _ _ rfl rfl)
  have served := alone_quiet entered rfl (.serverAcquire _ _ _ _ _ rfl)
  have held := alone_quiet served rfl (.resume _ _ _ _ _ rfl rfl)
  have joined := alone_step held (by simp [Op.ofNext]) (.call _ _ _ someone 1)
  have waits := alone_quiet joined rfl (.resume _ _ _ _ _ rfl rfl)
  exact ⟨_, waits.reachable, by simp [alone, Op.ofNext], by simp [alone, Op.ofNext]⟩

theorem mutual_exclusion_held : ∃ state : LockId → Slice ℕ,
    ⟨someone, 0, .holding⟩ ∈ (state 7).pool ∧
    (state 7).pool.countP (fun activity => activity.op = .holding) ≤ 1 := by
  obtain ⟨state, reachable, held, _⟩ := held_and_awaited
  exact ⟨state, held, mutual_exclusion reachable 7⟩

/-! ## No lost wake-ups -/

def Op.insideAcquire : Op → Prop
  | .entering | .waitingCond _ | .calling _ | .waitingRetry _ => True
  | .holding | .releasing | .givingBack _ => False

def Op.insideRelease : Op → Prop
  | .releasing | .givingBack _ => True
  | .entering | .waitingCond _ | .calling _ | .waitingRetry _ | .holding => False

/-- A request, a handler or a reply is outstanding on behalf of the thread. -/
def Op.outstanding : Op → Prop
  | .calling _ | .givingBack (.calling _) => True
  | .givingBack .unlocked | .givingBack .flushing => False
  | .entering | .waitingCond _ | .waitingRetry _ | .holding | .releasing => False

/-- Threads wait for a lock that nobody uses, and nothing is on its way to them. -/
structure Stuck (slice : Slice Thread) : Prop where
  blocked : ∃ activity ∈ slice.pool, activity.op.insideAcquire
  unused : ∀ activity ∈ slice.pool, activity.op ≠ .holding
  silent : ∀ activity ∈ slice.pool, ¬ activity.op.outstanding
  waiting : ∀ activity ∈ slice.pool, activity.op.insideAcquire ∨ activity.op.insideRelease →
    activity.op = .waitingCond false ∨ activity.op = .waitingRetry false

theorem Stuck.asleep {slice : Slice Thread} (stuck : Stuck slice) :
    ∀ activity ∈ slice.pool,
      activity.op = .waitingCond false ∨ activity.op = .waitingRetry false := by
  intro activity member
  apply stuck.waiting activity member
  have unused := stuck.unused activity member
  cases op : activity.op <;> simp_all [Op.insideAcquire, Op.insideRelease]

theorem Stuck.tally_eq_zero {slice : Slice Thread} (stuck : Stuck slice) (client : ClientId)
    {token : Token} (rare : token ≠ .asleep ∧ token ≠ .asked ∧ token ≠ .dozing) :
    tally slice.pool client token = 0 := by
  refine weight_eq_zero fun activity member => List.count_eq_zero.mpr fun present => ?_
  obtain ⟨caller, thread, op⟩ := activity
  rcases stuck.asleep _ member with rfl | rfl <;> by_cases same : caller = client <;>
    simp_all [Activity.tokens]

theorem Stuck.asked_eq_dozing {slice : Slice Thread} (stuck : Stuck slice) (client : ClientId) :
    tally slice.pool client .asked = tally slice.pool client .dozing := by
  refine congrArg Multiset.sum (Multiset.map_congr rfl fun activity member => ?_)
  obtain ⟨caller, thread, op⟩ := activity
  rcases stuck.asleep _ member with rfl | rfl <;> by_cases same : caller = client <;>
    simp [Activity.tokens, same]

theorem Conserved.asked_of_stuck {slice : Slice Thread} (conserved : Conserved slice)
    (stuck : Stuck slice) : ∃ client, 0 < tally slice.pool client .asked := by
  obtain ⟨activity, member, _⟩ := stuck.blocked
  refine ⟨activity.client, ?_⟩
  have counts : ∀ token, (activity.tokens activity.client).count token ≤
      tally slice.pool activity.client token :=
    fun token => le_weight (fun one => (one.tokens activity.client).count token) member
  rcases stuck.asleep activity member with waits | dozes
  · have laws := conserved.balanced activity.client
    have sleeps : 0 < tally slice.pool activity.client .asleep :=
      lt_of_lt_of_le (by simp [Activity.tokens, waits]) (counts .asleep)
    have none : ∀ token, token ≠ .asleep ∧ token ≠ .asked ∧ token ≠ .dozing →
        tally slice.pool activity.client token = 0 :=
      fun token => stuck.tally_eq_zero activity.client
    have acquiring := laws.acquiring
    have owning := laws.owning
    have cond := laws.cond
    rw [none .inUse (by simp), none .before (by simp), none .after (by simp)] at owning
    rw [none .sent (by simp), none .granted (by simp), none .odd (by simp)] at acquiring
    rw [none .woken (by simp)] at cond
    cases status : (LockClientCache.Entry.ofSlot (slice.client activity.client)).status <;>
      simp [status] at acquiring owning cond <;> omega
  · exact lt_of_lt_of_le (by simp [Activity.tokens, dozes]) (counts .asked)

/-- No revoke, retry or wake-up is ever lost. -/
theorem never_stuck {state : LockId → Slice Thread}
    (reachable : Reachable (system Thread) state) (lid : LockId) : ¬ Stuck (state lid) := by
  intro stuck
  have conserved := conserved_of_system reachable lid
  generalize state lid = slice at stuck conserved
  obtain ⟨server, client, pool⟩ := slice
  have none : ∀ (other : ClientId) token, token ≠ .asleep ∧ token ≠ .asked ∧ token ≠ .dozing →
      tally pool other token = 0 := fun other token => stuck.tally_eq_zero other
  obtain ⟨waiter, asked⟩ := conserved.asked_of_stuck stuck
  have queued := (conserved.balanced waiter).asked
  cases server with
  | none =>
    simp only [standing] at queued asked
    omega
  | some entry =>
    have listed : waiter.val ∈ entry.clientQ := by
      by_contra absent
      simp only [standing, absent, if_false] at queued asked
      omega
    have addressed := conserved.addressed entry rfl
    obtain ⟨front, rest, queue⟩ := List.exists_cons_of_ne_nil (List.ne_nil_of_mem listed)
    obtain ⟨front, rfl⟩ : ∃ id : ClientId, id.val = front :=
      ⟨⟨front, addressed.queue front (by simp [queue])⟩, rfl⟩
    have waiting := (conserved.wellFormed entry rfl).waiting_iff.mpr (by simp [queue])
    -- The front was not told to come, so somebody is recorded as the holder.
    have held : entry.clientId ≠ "" := by
      intro released
      have laws := conserved.balanced front
      have retry := laws.retry
      have place := laws.queued
      have doze := laws.doze
      simp only [standing, queue, released, none front .sent (by simp),
        none front .retrying (by simp), ← stuck.asked_eq_dozing front] at retry place doze
      simp at retry place doze
      rcases doze with fresh | unset
      · omega
      · simp [unset] at retry
        omega
    -- The holder has the lock cached and a revoke pending, which never happens.
    obtain ⟨holder, known⟩ : ∃ id : ClientId, id.val = entry.clientId :=
      ⟨⟨entry.clientId, held⟩, rfl⟩
    have laws := conserved.balanced holder
    have tenure := laws.tenure
    have revoke := laws.revoke
    simp only [standing, known, none holder .granted (by simp), none holder .inUse (by simp),
      none holder .before (by simp), none holder .revoking (by simp), waiting] at tenure revoke
    simp at tenure revoke
    rcases laws.flag revoke with status | status <;> simp [status] at tenure

theorem never_stuck_awaited : ∃ state : LockId → Slice ℕ,
    ⟨someone, 1, .waitingCond false⟩ ∈ (state 7).pool ∧ ¬ Stuck (state 7) := by
  obtain ⟨state, reachable, _, waits⟩ := held_and_awaited
  exact ⟨state, waits, never_stuck reachable 7⟩

end NaiveFileSystem.LockSystem
