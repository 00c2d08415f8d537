import NaiveFileSystem.Lock.Layer

/-!
# What is awake moves

An activity of the protocol that neither waits for a signal nor uses the lock has a
step of its own. Wake-ups without a signal are steps of others.
-/

namespace NaiveFileSystem.LockSystem

open LockProtocol Transition Pool

universe u

variable {Thread : Type u}

/-- On a condition variable, with no signal pending. -/
def Op.Asleep (op : Op) : Prop := op = .waitingCond false ∨ op = .waitingRetry false

def Event.Internal : Event Thread → Prop
  | .silent | .granted _ | .doreleaseStart _ | .doreleaseEnd _ | .released _ => True
  | .acquireCalled _ _ | .acquired _ _ | .releaseCalled _ _ => False

theorem resumes_moves {op : Op}
    {body : LockClientCache.Entry → LockClientCache.Entry × LockClientCache.AcquireNext}
    (resumes : op.resumes = some body) (next : LockClientCache.AcquireNext) :
    op.insideAcquire ∧ Op.ofNext next ≠ op := by
  match op, resumes with
  | .entering, _ | .waitingCond true, _ | .calling (.replied _), _ | .waitingRetry true, _ =>
    exact ⟨trivial, by cases next <;> simp [Op.ofNext]⟩

theorem ofNext_internal (client : ClientId) (thread : Thread) (next : LockClientCache.AcquireNext) :
    (Event.ofNext client thread next).Internal ∨
      Event.ofNext client thread next = .acquired client thread := by
  cases next with
  | returns => exact .inr rfl
  | waitsCond | calls | waitsRetry => exact .inl trivial

theorem ofAcquired_ne_sent (done : LockServerCache.Acquired) :
    AcquireCall.ofAcquired done ≠ .sent := by
  unfold AcquireCall.ofAcquired
  split <;> simp

theorem ofReleased_ne_sent (done : LockServerCache.Released) :
    ReleaseCall.ofReleased done ≠ .sent := by
  unfold ReleaseCall.ofReleased
  split <;> simp

theorem Host.run_injective (host : Host Thread) {stage next : GiveBack}
    (same : host.run stage = host.run next) : stage = next := by
  cases host <;> simpa [Host.run] using same

section Moves

variable [DecidableEq Thread]

/-- A step of the lock that replaces the activity. -/
def Activity.Moves (activity : Activity Thread) (slice : Slice Thread) : Prop :=
  ∃ event next, Step slice event next ∧ next.pool.count activity < slice.pool.count activity ∧
    (event.Internal ∨ event = .acquired activity.client activity.thread ∧ activity.op.insideAcquire)

variable {server : Option LockServerCache.Entry}
  {client : ClientId → Option LockClientCache.Entry} {rest woken : Multiset (Activity Thread)}

theorem count_lt {first second : Activity Thread} (moved : second ≠ first)
    (others : woken.count first ≤ rest.count first) :
    (second ::ₘ woken).count first < (first ::ₘ rest).count first := by
  rw [Multiset.count_cons_of_ne moved.symm, Multiset.count_cons_self]
  omega

theorem wake_exists {asleep awake : Thread → Activity Thread} (activity : Activity Thread)
    (different : ∀ thread, awake thread ≠ activity) (rest : Multiset (Activity Thread)) :
    ∃ woken, Wake asleep awake rest woken ∧ woken.count activity ≤ rest.count activity := by
  by_cases sleeps : ∃ thread, asleep thread ∈ rest
  · obtain ⟨thread, member⟩ := sleeps
    obtain ⟨others, rfl⟩ := Multiset.exists_cons_of_mem member
    refine ⟨_, .one thread others, ?_⟩
    rw [Multiset.count_cons_of_ne (different thread).symm]
    exact Multiset.count_le_count_cons _ _ _
  · exact ⟨rest, .nobody fun thread member => sleeps ⟨thread, member⟩, le_refl _⟩

theorem moves_of_resumes {activity : Activity Thread}
    {body : LockClientCache.Entry → LockClientCache.Entry × LockClientCache.AcquireNext}
    (resumes : activity.op.resumes = some body) :
    activity.Moves ⟨server, client, activity ::ₘ rest⟩ := by
  obtain ⟨caller, thread, op⟩ := activity
  obtain ⟨inside, moved⟩ := resumes_moves resumes (body (.ofSlot (client caller))).2
  refine ⟨_, _, .resume server client rest caller thread resumes rfl, count_lt ?_ (le_refl _), ?_⟩
  · simpa using moved
  · exact (ofNext_internal caller thread _).imp_right fun returned => ⟨returned, inside⟩

theorem Host.count_finish (host : Host Thread) (stage : GiveBack) :
    host.finish.count (host.run stage) = 0 := by
  cases host with
  | releaser => exact Multiset.count_zero _
  | handler client thread ret holder =>
    exact Multiset.count_eq_zero.mpr fun same => by simp [Host.run, Host.finish] at same

theorem Host.moves (host : Host Thread) (stage : GiveBack) :
    (host.run stage).Moves ⟨server, client, host.run stage ::ₘ rest⟩ := by
  have moved {next : GiveBack} (different : next ≠ stage) : host.run next ≠ host.run stage :=
    fun same => different (host.run_injective same)
  have awake (client : ClientId) (thread : Thread) (op : Op)
      (wakes : op = .waitingCond true ∨ op = .waitingRetry true) :
      ⟨client, thread, op⟩ ≠ host.run stage := by
    rcases wakes with rfl | rfl <;> cases host <;> simp [Host.run]
  cases stage with
  | unlocked =>
    exact ⟨_, _, .doreleaseStart server client rest host, count_lt (moved (by simp)) (le_refl _),
      .inl trivial⟩
  | flushing =>
    exact ⟨_, _, .doreleaseEnd server client rest host, count_lt (moved (by simp)) (le_refl _),
      .inl trivial⟩
  | calling call =>
    cases call with
    | sent =>
      refine ⟨_, _, .serverRelease server client rest host rfl, count_lt (moved ?_) (le_refl _),
        .inl trivial⟩
      simpa using ofReleased_ne_sent (LockServerCache.releaseEntry host.giver.val server)
    | retrying front call =>
      cases call with
      | sent =>
        obtain ⟨woken, signal, fewer⟩ := wake_exists (host.run _)
          (fun thread => awake front thread _ (.inr rfl)) rest
        exact ⟨_, _, .retryHandler server client front host signal, count_lt (moved (by simp)) fewer,
          .inl trivial⟩
      | handled =>
        exact ⟨_, _, .retryReply server client rest front host,
          count_lt (moved (by simp)) (le_refl _), .inl trivial⟩
    | replied =>
      obtain ⟨woken, signal, fewer⟩ := wake_exists (host.run _)
        (fun thread => awake host.giver thread _ (.inl rfl)) rest
      refine ⟨_, _, .givenBack server client host signal, ?_, .inl trivial⟩
      rw [Multiset.count_add, host.count_finish, Multiset.count_cons_self]
      omega

/-- What neither sleeps nor uses the lock moves. -/
theorem Conserved.moves {slice : Slice Thread} (conserved : Conserved slice)
    {activity : Activity Thread} (member : activity ∈ slice.pool) (awake : ¬ activity.op.Asleep)
    (inside : activity.op ≠ .holding) : activity.Moves slice := by
  obtain ⟨rest, split⟩ := Multiset.exists_cons_of_mem member
  obtain ⟨server, client, pool⟩ := slice
  obtain rfl : pool = activity ::ₘ rest := split
  obtain ⟨caller, thread, op⟩ := activity
  match op with
  | .entering | .waitingCond true | .calling (.replied _) | .waitingRetry true =>
    exact moves_of_resumes rfl
  | .waitingCond false => exact absurd (.inl rfl) awake
  | .waitingRetry false => exact absurd (.inr rfl) awake
  | .holding => exact absurd rfl inside
  | .calling .sent =>
    obtain ⟨done, ran, _⟩ := LockServerCache.acquireEntry_wellFormed caller.val conserved.wellFormed
    refine ⟨_, _, .serverAcquire server client rest caller thread ran, count_lt ?_ (le_refl _), ?_⟩
    · simpa using ofAcquired_ne_sent done
    · split
      · exact .inl trivial
      · exact .inl trivial
  | .calling (.revoking ret holder .sent) =>
    refine ⟨_, _, .revokeHandler server client rest caller thread ret holder rfl,
      count_lt ?_ (le_refl _), .inl trivial⟩
    split <;> simp
  | .calling (.revoking ret holder (.givingBack stage)) =>
    exact Host.moves (.handler caller thread ret holder) stage
  | .calling (.revoking ret holder .handled) =>
    exact ⟨_, _, .revokeReply server client rest caller thread ret holder,
      count_lt (by simp) (le_refl _), .inl trivial⟩
  | .releasing =>
    cases released : LockClientCache.release (client caller) with
    | mk slot next =>
      cases next with
      | givesBack =>
        exact ⟨_, _, .releaseGiveBack server client rest caller thread released,
          count_lt (by simp) (le_refl _), .inl trivial⟩
      | returns signal =>
        obtain ⟨woken, signalled, fewer⟩ : ∃ woken,
            (if signal then SignalCond caller rest woken else woken = rest) ∧
              woken.count ⟨caller, thread, .releasing⟩ ≤ rest.count ⟨caller, thread, .releasing⟩ := by
          cases signal with
          | false => exact ⟨rest, rfl, le_refl _⟩
          | true => exact wake_exists _ (by simp) rest
        refine ⟨_, _, .releaseReturn server client caller thread released signalled, ?_, .inl trivial⟩
        rw [Multiset.count_cons_self]
        exact Nat.lt_succ_of_le fewer
  | .givingBack stage => exact Host.moves (.releaser caller thread) stage

end Moves

/-! ## Who is inside a call -/

def Activity.Inside (client : ClientId) (thread : Thread) (activity : Activity Thread) : Prop :=
  activity.client = client ∧ activity.thread = thread ∧ activity.op ≠ .holding

instance [DecidableEq Thread] (client : ClientId) (thread : Thread) :
    DecidablePred (Activity.Inside client thread) := fun activity =>
  inferInstanceAs (Decidable (activity.client = client ∧ activity.thread = thread ∧
    activity.op ≠ .holding))

/-- The thread is inside `acquire`. -/
def Acquiring (pool : Multiset (Activity Thread)) (client : ClientId) (thread : Thread) : Prop :=
  ∃ activity ∈ pool, activity.client = client ∧ activity.thread = thread ∧ activity.op.insideAcquire

section Acquiring

variable {rest woken : Multiset (Activity Thread)} {client caller : ClientId} {thread worker : Thread}

theorem acquiring_cons {activity : Activity Thread} :
    Acquiring (activity ::ₘ rest) client thread ↔
      (activity.client = client ∧ activity.thread = thread ∧ activity.op.insideAcquire) ∨
        Acquiring rest client thread := by
  simp [Acquiring]

theorem Acquiring.replace {first second : Op}
    (acquiring : Acquiring (⟨caller, worker, second⟩ ::ₘ woken) client thread)
    (kept : second.insideAcquire → first.insideAcquire)
    (others : Acquiring woken client thread → Acquiring rest client thread) :
    Acquiring (⟨caller, worker, first⟩ ::ₘ rest) client thread := by
  rw [acquiring_cons] at acquiring ⊢
  exact acquiring.imp (fun own => ⟨own.1, own.2.1, kept own.2.2⟩) others

theorem Acquiring.wake {asleep awake : Op} (acquiring : Acquiring woken client thread)
    (signal : Wake (fun thread => (⟨caller, thread, asleep⟩ : Activity Thread))
      (fun thread => ⟨caller, thread, awake⟩) rest woken)
    (inside : asleep.insideAcquire) : Acquiring rest client thread := by
  cases signal with
  | one sleeper others => exact acquiring.replace (fun _ => inside) id
  | nobody => exact acquiring

theorem Acquiring.host {host : Host Thread} {stage next : GiveBack}
    (acquiring : Acquiring (host.run next ::ₘ woken) client thread)
    (others : Acquiring woken client thread → Acquiring rest client thread) :
    Acquiring (host.run stage ::ₘ rest) client thread := by
  cases host with
  | releaser => exact acquiring.replace id others
  | handler => exact acquiring.replace id others

theorem Step.acquiring {slice next : Slice Thread} {event : Event Thread}
    (step : Step slice event next) (acquiring : Acquiring next.pool client thread) :
    event = .acquireCalled client thread ∨ Acquiring slice.pool client thread := by
  cases step with
  | call server table pool caller worker =>
    rw [acquiring_cons] at acquiring
    rcases acquiring with ⟨rfl, rfl, _⟩ | earlier
    · exact .inl rfl
    · exact .inr earlier
  | resume server table rest caller worker resumes ran =>
    exact .inr (acquiring.replace (fun _ => (resumes_moves resumes (.returns .OK)).1) id)
  | wakeCond | wakeRetry | serverAcquire | revokeHandler | revokeReply =>
    exact .inr (acquiring.replace (fun _ => trivial) id)
  | releaseCall | releaseGiveBack => exact .inr (acquiring.replace (fun inside => inside.elim) id)
  | releaseReturn server table caller worker ran signals =>
    rename_i slot signal rest woken
    right
    rw [acquiring_cons]
    right
    cases signal with
    | false => exact signals ▸ acquiring
    | true => exact acquiring.wake signals trivial
  | doreleaseStart | doreleaseEnd | serverRelease | retryReply => exact .inr (acquiring.host id)
  | retryHandler server table front host signal =>
    exact .inr (acquiring.host fun woken => woken.wake signal trivial)
  | givenBack server table host signal =>
    right
    cases host with
    | releaser caller worker =>
      simp only [Host.finish, zero_add] at acquiring
      exact acquiring_cons.mpr (.inr (acquiring.wake signal trivial))
    | handler caller worker ret holder =>
      simp only [Host.finish, Multiset.singleton_add] at acquiring
      exact acquiring.replace id fun woken => woken.wake signal trivial

end Acquiring

section Count

variable [DecidableEq Thread] {rest woken : Multiset (Activity Thread)} {client caller : ClientId}
  {thread worker : Thread}

theorem inside_replace {first second : Op} (kept : first = .holding ↔ second = .holding)
    (others : woken.countP (Activity.Inside client thread) =
      rest.countP (Activity.Inside client thread)) :
    Multiset.countP (Activity.Inside client thread) (⟨caller, worker, second⟩ ::ₘ woken) =
      Multiset.countP (Activity.Inside client thread) (⟨caller, worker, first⟩ ::ₘ rest) := by
  have same : Activity.Inside client thread ⟨caller, worker, second⟩ ↔
      Activity.Inside client thread ⟨caller, worker, first⟩ := by simp only [Activity.Inside, ne_eq, kept]
  rw [Multiset.countP_cons, Multiset.countP_cons, others, if_congr same rfl rfl]

theorem inside_wake {asleep awake : Op} (kept : asleep = .holding ↔ awake = .holding)
    (signal : Wake (fun thread => (⟨caller, thread, asleep⟩ : Activity Thread))
      (fun thread => ⟨caller, thread, awake⟩) rest woken) :
    woken.countP (Activity.Inside client thread) = rest.countP (Activity.Inside client thread) := by
  cases signal with
  | one sleeper others => exact inside_replace kept rfl
  | nobody => rfl

theorem inside_host {host : Host Thread} {stage next : GiveBack}
    (others : woken.countP (Activity.Inside client thread) =
      rest.countP (Activity.Inside client thread)) :
    Multiset.countP (Activity.Inside client thread) (host.run next ::ₘ woken) =
      Multiset.countP (Activity.Inside client thread) (host.run stage ::ₘ rest) := by
  cases host with
  | releaser | handler => exact inside_replace (by simp) others

theorem Step.inside_le {slice next : Slice Thread} {event : Event Thread}
    (step : Step slice event next) (client : ClientId) (thread : Thread) :
    next.pool.countP (Activity.Inside client thread) +
        (if event = .acquired client thread then 1 else 0) ≤
      slice.pool.countP (Activity.Inside client thread) +
        if event = .acquireCalled client thread ∨ event = .releaseCalled client thread then 1
        else 0 := by
  have quiet (event : Event Thread) (silent : event.Internal)
      (same : next.pool.countP (Activity.Inside client thread) ≤
        slice.pool.countP (Activity.Inside client thread)) :
      next.pool.countP (Activity.Inside client thread) +
          (if event = .acquired client thread then 1 else 0) ≤
        slice.pool.countP (Activity.Inside client thread) +
          if event = .acquireCalled client thread ∨ event = .releaseCalled client thread then 1
          else 0 := by
    rw [if_neg (by rintro rfl; exact silent)]
    exact same.trans (Nat.le_add_right _ _)
  cases step with
  | call server table pool caller worker =>
    simp [Multiset.countP_cons, Activity.Inside]
  | resume server table rest caller worker resumes ran =>
    rename_i op body entry move
    have outside : op ≠ .holding := by
      rintro rfl
      cases resumes
    cases move with
    | returns ret =>
      simp only [Multiset.countP_cons, Activity.Inside, Op.ofNext, Event.ofNext, Event.acquired.injEq]
      simp [outside]
    | waitsCond | calls | waitsRetry =>
      exact quiet _ trivial (inside_replace (by simp [outside, Op.ofNext]) rfl).le
  | wakeCond | wakeRetry | revokeHandler | revokeReply | releaseGiveBack =>
    exact quiet _ trivial (inside_replace (by simp) rfl).le
  | serverAcquire =>
    refine quiet _ ?_ (inside_replace (by simp) rfl).le
    split <;> exact trivial
  | releaseCall => simp [Multiset.countP_cons, Activity.Inside]
  | releaseReturn server table caller worker ran signals =>
    rename_i slot signal rest woken
    refine quiet _ trivial (le_trans (le_of_eq ?_) (Multiset.countP_le_of_le _ (Multiset.le_cons_self rest _)))
    cases signal with
    | false => exact congrArg _ signals
    | true => exact inside_wake (by simp) signals
  | doreleaseStart | doreleaseEnd | serverRelease | retryReply =>
    exact quiet _ trivial (inside_host rfl).le
  | retryHandler server table front host signal =>
    exact quiet _ trivial (inside_host (inside_wake (by simp) signal)).le
  | givenBack server table host signal =>
    have woken := @inside_wake _ _ _ _ client _ thread _ _ (by simp) signal
    refine quiet _ trivial ?_
    cases host with
    | releaser caller worker =>
      simp only [Host.finish, zero_add, woken]
      exact Multiset.countP_le_of_le _ (Multiset.le_cons_self _ _)
    | handler caller worker ret holder =>
      simp only [Host.finish, Multiset.singleton_add]
      exact (inside_replace (by simp) woken).le

end Count

end NaiveFileSystem.LockSystem
