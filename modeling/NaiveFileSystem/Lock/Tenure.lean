import NaiveFileSystem.Lock.Safety

/-!
# Flush before hand-over

The abstract life of a lock is a sequence of tenures: a grant, any number of
sessions by threads of the grantee one after the other, one `dorelease`, and the
release at the server. The protocol around one lock refines this machine, and
the histories of the machine have that shape.
-/

namespace NaiveFileSystem.LockSystem

open LockProtocol Transition Pool

universe u

variable {Thread : Type u}

inductive Phase (Thread : Type u)
  | free
  | tenure (client : ClientId)
  | held (client : ClientId) (thread : Thread)
  | flushing (client : ClientId)
  | flushed (client : ClientId)

inductive Phase.Step : Phase Thread → Event Thread → Phase Thread → Prop
  | silent (phase) : Step phase .silent phase
  | acquireCalled (phase client thread) : Step phase (.acquireCalled client thread) phase
  | granted (client) : Step .free (.granted client) (.tenure client)
  | acquired (client thread) :
      Step (.tenure client) (.acquired client thread) (.held client thread)
  | releaseCalled (client thread) :
      Step (.held client thread) (.releaseCalled client thread) (.tenure client)
  | doreleaseStart (client) : Step (.tenure client) (.doreleaseStart client) (.flushing client)
  | doreleaseEnd (client) : Step (.flushing client) (.doreleaseEnd client) (.flushed client)
  | released (client) : Step (.flushed client) (.released client) .free

def tenures (Thread : Type u) : System (Phase Thread) (Event Thread) where
  init phase := phase = .free
  step := Phase.Step

/-! ## The shape of histories -/

/-- What counts in a tenure; calls of `acquire` may come at any time. -/
def Event.visible : Event Thread → Bool
  | .silent | .acquireCalled _ _ => false
  | _ => true

/-- Threads of one client that have the lock one after the other. -/
def sessions (client : ClientId) (users : List Thread) : List (Event Thread) :=
  users.flatMap fun thread => [.acquired client thread, .releaseCalled client thread]

def handOver (client : ClientId) : List (Event Thread) :=
  [.doreleaseStart client, .doreleaseEnd client, .released client]

inductive Progress (client : ClientId) : Phase Thread → List (Event Thread) → Prop
  | tenure (users) : Progress client (.tenure client) (sessions client users)
  | held (users thread) :
      Progress client (.held client thread) (sessions client users ++ [.acquired client thread])
  | flushing (users) :
      Progress client (.flushing client) (sessions client users ++ [.doreleaseStart client])
  | flushed (users) : Progress client (.flushed client)
      (sessions client users ++ [.doreleaseStart client, .doreleaseEnd client])
  | free (users) : Progress client .free (sessions client users ++ handOver client)

theorem sessions_append (client : ClientId) (users : List Thread) (thread : Thread) :
    sessions client (users ++ [thread]) =
      sessions client users ++ [.acquired client thread] ++ [.releaseCalled client thread] := by
  simp [sessions]

theorem Progress.step {client : ClientId} {phase next : Phase Thread} {event : Event Thread}
    {events : List (Event Thread)} (progress : Progress client phase events)
    (step : phase.Step event next) (same : ∀ other, event ≠ .granted other) :
    Progress client next (events ++ [event].filter Event.visible) := by
  cases step with
  | silent | acquireCalled => simpa [Event.visible] using progress
  | granted other => exact absurd rfl (same other)
  | acquired _ thread =>
    cases progress with
    | tenure users => exact .held users thread
  | releaseCalled _ thread =>
    cases progress with
    | held users =>
      have done : Progress client (.tenure client) (sessions client (users ++ [thread])) :=
        .tenure _
      rwa [sessions_append] at done
  | doreleaseStart =>
    cases progress with
    | tenure users => exact .flushing users
  | doreleaseEnd =>
    cases progress with
    | flushing users => simpa [List.filter, Event.visible] using Progress.flushed users
  | released =>
    cases progress with
    | flushed users => simpa [List.filter, Event.visible, handOver] using Progress.free users

theorem Progress.prefix_tenure {client : ClientId} {phase : Phase Thread}
    {events : List (Event Thread)} (progress : Progress client phase events) :
    ∃ users, events <+: sessions client users ++ handOver client := by
  cases progress with
  | tenure users => exact ⟨users, List.prefix_append _ _⟩
  | held users thread =>
    refine ⟨users ++ [thread], ?_⟩
    rw [sessions_append, List.append_assoc _ [Event.releaseCalled client thread]]
    exact List.prefix_append _ _
  | flushing users => exact ⟨users, ⟨[.doreleaseEnd client, .released client], by simp [handOver]⟩⟩
  | flushed users => exact ⟨users, ⟨[.released client], by simp [handOver]⟩⟩
  | free users => exact ⟨users, List.prefix_refl _⟩

/-- After a grant and before the next one, a history makes progress in one tenure. -/
theorem progress_of_run {client : ClientId} {before middle : List (Event Thread)}
    {phase : Phase Thread} (run : Run (tenures Thread) (before ++ .granted client :: middle) phase)
    (single : ∀ other, .granted other ∉ middle) :
    Progress client phase (middle.filter Event.visible) := by
  induction middle using List.reverseRecOn generalizing phase with
  | nil =>
    obtain ⟨_, _, step⟩ := run.last
    cases step
    exact .tenure []
  | append_singleton middle event ih =>
    rw [← List.cons_append, ← List.append_assoc] at run
    obtain ⟨earlier, shorter, step⟩ := run.last
    rw [List.filter_append]
    refine (ih shorter fun other member => single other (by simp [member])).step step ?_
    rintro other rfl
    exact single other (by simp)

/-! ## The protocol refines the machine -/

def Activity.phase : Activity Thread → Option (Phase Thread)
  | ⟨client, thread, .holding⟩ => some (.held client thread)
  | ⟨client, _, .givingBack stage⟩ => ofStage client stage
  | ⟨_, _, .calling (.revoking _ holder (.givingBack stage))⟩ => ofStage holder stage
  | _ => none
where
  ofStage (giver : ClientId) : GiveBack → Option (Phase Thread)
    | .flushing => some (.flushing giver)
    | .calling .sent => some (.flushed giver)
    | _ => none

def phases (pool : Multiset (Activity Thread)) : Multiset (Phase Thread) :=
  pool.filterMap Activity.phase

/-- The slice is in the phase. -/
def Shows (slice : Slice Thread) : Phase Thread → Prop
  | .free => phases slice.pool = 0 ∧ ∀ client, (standing slice.server client).holder = 0
  | .tenure client => phases slice.pool = 0 ∧ (standing slice.server client).holder = 1
  | phase => phases slice.pool = {phase}

def Phase.client : Phase Thread → Option ClientId
  | .free => none
  | .tenure client | .held client _ | .flushing client | .flushed client => some client

theorem Host.phase_run (host : Host Thread) (stage : GiveBack) :
    (host.run stage).phase = Activity.phase.ofStage host.giver stage := by
  cases host <;> rfl

theorem Activity.busy_of_phase {activity : Activity Thread} {phase : Phase Thread}
    (shown : activity.phase = some phase) :
    ∃ client, phase.client = some client ∧
      0 < (activity.tokens client).count .inUse + (activity.tokens client).count .before := by
  have ofStage : ∀ (client : ClientId) (stage : GiveBack),
      Activity.phase.ofStage client stage = some phase →
        phase.client = some client ∧ stage.token = .before := by
    intro client stage shown
    match stage, shown with
    | .flushing, rfl => exact ⟨rfl, rfl⟩
    | .calling .sent, rfl => exact ⟨rfl, rfl⟩
  obtain ⟨caller, thread, op⟩ := activity
  match op, shown with
  | .holding, rfl => exact ⟨caller, rfl, by simp [Activity.tokens]⟩
  | .givingBack stage, shown =>
    obtain ⟨owner, token⟩ := ofStage caller stage shown
    refine ⟨caller, owner, ?_⟩
    simp only [Activity.tokens, Op.own, token, if_true, List.count_append,
      List.count_singleton_self]
    omega
  | .calling (.revoking _ holder (.givingBack stage)), shown =>
    obtain ⟨owner, token⟩ := ofStage holder stage shown
    refine ⟨holder, owner, ?_⟩
    simp only [Activity.tokens, Op.remote, token, if_true, List.count_append,
      List.count_singleton_self]
    omega

section Refines

variable {server : Option LockServerCache.Entry}
  {client : ClientId → Option LockClientCache.Entry} {rest : Multiset (Activity Thread)}

theorem holder_unique {one other : ClientId} (first : (standing server one).holder = 1)
    (second : (standing server other).holder = 1) : one = other := by
  cases server with
  | none => simp [standing] at first
  | some entry =>
    simp only [standing, ite_eq_left_iff, zero_ne_one, imp_false, not_not] at first second
    exact Subtype.ext (first.symm.trans second)

theorem Conserved.busy_le {pool : Multiset (Activity Thread)}
    (conserved : Conserved ⟨server, client, pool⟩) (owner : ClientId) :
    weight (fun activity => (activity.tokens owner).count .inUse +
      (activity.tokens owner).count .before) pool ≤ (standing server owner).holder := by
  have tenure := (conserved.balanced owner).tenure
  rw [weight_add]
  simp only [tally] at tenure ⊢
  omega

theorem Conserved.phase_unique {activity : Activity Thread} {phase : Phase Thread}
    (conserved : Conserved ⟨server, client, activity ::ₘ rest⟩)
    (shown : activity.phase = some phase) :
    ∃ owner, phase.client = some owner ∧ (standing server owner).holder = 1 ∧
      phases rest = 0 := by
  obtain ⟨owner, named, busy⟩ := Activity.busy_of_phase shown
  have bound := conserved.busy_le owner
  have single := (standing server owner).holder_le
  rw [weight_cons] at bound
  have holder : (standing server owner).holder = 1 := by omega
  refine ⟨owner, named, holder, Multiset.eq_zero_of_forall_notMem fun other member => ?_⟩
  obtain ⟨rival, inside, shows_⟩ := (Multiset.mem_filterMap _ _).mp member
  obtain ⟨giver, _, also⟩ := Activity.busy_of_phase shows_
  have rivals := conserved.busy_le giver
  have counted := le_weight (fun activity : Activity Thread => (activity.tokens giver).count .inUse +
    (activity.tokens giver).count .before) inside
  rw [weight_cons] at rivals
  have bounded := (standing server giver).holder_le
  have held : (standing server giver).holder = 1 := by omega
  cases holder_unique holder held
  omega

theorem phases_cons_none {activity : Activity Thread} (hidden : activity.phase = none) :
    phases (activity ::ₘ rest) = phases rest := Multiset.filterMap_cons_none _ _ hidden

theorem phases_cons_some {activity : Activity Thread} {phase : Phase Thread}
    (shown : activity.phase = some phase) :
    phases (activity ::ₘ rest) = phase ::ₘ phases rest := Multiset.filterMap_cons_some _ _ _ shown

theorem Shows.congr {slice next : Slice Thread} {phase : Phase Thread} (shows_ : Shows slice phase)
    (same : phases next.pool = phases slice.pool)
    (holder : ∀ owner, (standing next.server owner).holder = (standing slice.server owner).holder) :
    Shows next phase := by
  cases phase <;> simp only [Shows, same, holder] at shows_ ⊢ <;> exact shows_

theorem Shows.eq_tenure {pool : Multiset (Activity Thread)} {phase : Phase Thread}
    (shows_ : Shows ⟨server, client, pool⟩ phase) (quiet : phases pool = 0) {owner : ClientId}
    (holder : (standing server owner).holder = 1) : phase = .tenure owner := by
  cases phase with
  | free =>
    have none := shows_.2 owner
    simp only at none
    omega
  | tenure other => rw [holder_unique shows_.2 holder]
  | held | flushing | flushed => exact absurd (shows_.symm.trans quiet) (Multiset.singleton_ne_zero _)

theorem Shows.eq_shown {activity : Activity Thread} {phase visible : Phase Thread}
    (conserved : Conserved ⟨server, client, activity ::ₘ rest⟩)
    (shows_ : Shows ⟨server, client, activity ::ₘ rest⟩ phase)
    (shown : activity.phase = some visible) : phase = visible := by
  obtain ⟨_, _, _, alone⟩ := conserved.phase_unique shown
  have all : phases (activity ::ₘ rest) = {visible} := by rw [phases_cons_some shown, alone]; rfl
  cases phase with
  | free | tenure => exact absurd (shows_.1.symm.trans all) (Multiset.singleton_ne_zero _).symm
  | held | flushing | flushed => exact Multiset.singleton_inj.mp (shows_.symm.trans all)

theorem Shows.starts {activity next : Activity Thread} {slot : ClientId → Option LockClientCache.Entry}
    {phase visible : Phase Thread} (after : Conserved ⟨server, slot, next ::ₘ rest⟩)
    (shows_ : Shows ⟨server, client, activity ::ₘ rest⟩ phase) (hidden : activity.phase = none)
    (shown : next.phase = some visible) :
    ∃ owner, visible.client = some owner ∧ phase = .tenure owner ∧
      phases (next ::ₘ rest) = {visible} := by
  obtain ⟨owner, named, holder, alone⟩ := after.phase_unique shown
  refine ⟨owner, named, shows_.eq_tenure ?_ holder, ?_⟩
  · rw [phases_cons_none hidden, alone]
  · rw [phases_cons_some shown, alone]
    rfl

theorem phases_wake {asleep awake : Thread → Activity Thread} {woken : Multiset (Activity Thread)}
    (wake : Wake asleep awake rest woken)
    (hidden : ∀ thread, (asleep thread).phase = none ∧ (awake thread).phase = none) :
    phases woken = phases rest := by
  cases wake with
  | one sleeper others =>
    rw [phases_cons_none (hidden sleeper).1, phases_cons_none (hidden sleeper).2]
  | nobody => rfl

theorem phase_resumes {caller : ClientId} {thread : Thread} {op : Op} {body}
    (resumes : op.resumes = some body) : (Activity.mk caller thread op).phase = none := by
  match op, resumes with
  | .entering, _ | .waitingCond true, _ | .calling (.replied _), _ | .waitingRetry true, _ => rfl

theorem phase_ofAcquired (caller : ClientId) (thread : Thread) (done : LockServerCache.Acquired) :
    (Activity.mk caller thread (.calling (.ofAcquired done))).phase = none := by
  simp only [AcquireCall.ofAcquired]
  split <;> rfl

theorem phase_ofReleased (host : Host Thread) (done : LockServerCache.Released) :
    (host.run (.calling (.ofReleased done))).phase = none := by
  rw [host.phase_run]
  simp only [ReleaseCall.ofReleased]
  split <;> rfl

theorem phases_finish (host : Host Thread) : phases (host.finish + rest) = phases rest := by
  cases host with
  | releaser => simp [Host.finish]
  | handler => exact phases_cons_none rfl

theorem Shows.eq_free {pool : Multiset (Activity Thread)} {phase : Phase Thread}
    (conserved : Conserved ⟨server, client, pool⟩) (shows_ : Shows ⟨server, client, pool⟩ phase)
    (unheld : ∀ owner, (standing server owner).holder = 0) : phase = .free ∧ phases pool = 0 := by
  have quiet : phases pool = 0 := by
    apply Multiset.eq_zero_of_forall_notMem
    intro visible member
    obtain ⟨activity, inside, shown⟩ := (Multiset.mem_filterMap _ _).mp member
    obtain ⟨owner, _, busy⟩ := Activity.busy_of_phase shown
    have counted := le_weight (fun activity : Activity Thread =>
      (activity.tokens owner).count .inUse + (activity.tokens owner).count .before) inside
    have bound := conserved.busy_le owner
    rw [unheld] at bound
    omega
  refine ⟨?_, quiet⟩
  cases phase with
  | free => rfl
  | tenure owner => exact absurd ((unheld owner).symm.trans shows_.2) (by simp)
  | held | flushing | flushed =>
    exact absurd (shows_.symm.trans quiet) (Multiset.singleton_ne_zero _)

theorem Conserved.answer {caller : ClientId} {thread : Thread}
    (conserved : Conserved ⟨server, client, ⟨caller, thread, .calling .sent⟩ ::ₘ rest⟩)
    {done : LockServerCache.Acquired}
    (taken : LockServerCache.acquireEntry caller.val server = some done) :
    (done.ret = .OK ∧ (∀ owner, (standing server owner).holder = 0) ∧
      done.entry.clientId = caller.val) ∨
    (done.ret = .RETRY ∧
      ∀ owner, (standing (some done.entry) owner).holder = (standing server owner).holder) := by
  have unheld : ∀ entry : LockServerCache.Entry, entry.clientId = "" → ∀ owner,
      (standing (some entry) owner).holder = 0 :=
    fun entry empty owner => by simp [standing, empty, Ne.symm owner.property]
  have idle := (show Balanced _ (plus [.sent] (tally rest caller)) _ by
    simpa [tally_cons, tokens_self] using conserved.balanced caller).sent_idle
  rcases LockServerCache.acquireEntry_cases caller.val conserved.wellFormed with
    ⟨rfl, known⟩ | ⟨entry, rfl, branch⟩
  · cases known.symm.trans taken
    exact .inl ⟨rfl, fun _ => rfl, rfl⟩
  · rcases branch with ⟨status, known⟩ | ⟨status, queue, known⟩ | ⟨others, status, queue, known⟩ |
      ⟨front, others, status, queue, different, listed, known⟩ |
      ⟨front, others, status, queue, fresh, known⟩ <;> cases known.symm.trans taken
    · exact .inl ⟨rfl, unheld entry ((conserved.wellFormed entry rfl).free status), rfl⟩
    · exact .inr ⟨rfl, fun _ => rfl⟩
    · refine .inl ⟨rfl, unheld entry ?_, rfl⟩
      by_contra held
      simp [standing, held, queue] at idle
    · exact .inr ⟨rfl, fun _ => rfl⟩
    · exact .inr ⟨rfl, fun _ => rfl⟩

theorem Shows.serverAcquire {caller : ClientId} {thread : Thread} {phase : Phase Thread}
    (conserved : Conserved ⟨server, client, ⟨caller, thread, .calling .sent⟩ ::ₘ rest⟩)
    (shows_ : Shows ⟨server, client, ⟨caller, thread, .calling .sent⟩ ::ₘ rest⟩ phase)
    {done : LockServerCache.Acquired}
    (taken : LockServerCache.acquireEntry caller.val server = some done) :
    ∃ next, phase.Step (if done.ret = .OK then .granted caller else .silent) next ∧
      Shows ⟨some done.entry, client, ⟨caller, thread, .calling (.ofAcquired done)⟩ ::ₘ rest⟩
        next := by
  have same : phases (⟨caller, thread, .calling (.ofAcquired done)⟩ ::ₘ rest) =
      phases (⟨caller, thread, .calling .sent⟩ ::ₘ rest) := by
    rw [phases_cons_none (phase_ofAcquired _ _ _), phases_cons_none rfl]
  rcases conserved.answer taken with ⟨ok, unheld, holder⟩ | ⟨retry, kept⟩
  · obtain ⟨rfl, quiet⟩ := shows_.eq_free conserved unheld
    rw [if_pos ok]
    exact ⟨_, .granted caller, same.trans quiet, by simp [standing, holder]⟩
  · rw [if_neg (by simp [retry])]
    exact ⟨phase, .silent _, shows_.congr same kept⟩

end Refines

/-- Every step of the protocol is a step of the machine. -/
theorem Shows.step {slice next : Slice Thread} {event : Event Thread} {phase : Phase Thread}
    (conserved : Conserved slice) (shows_ : Shows slice phase) (step : Step slice event next) :
    ∃ after, phase.Step event after ∧ Shows next after := by
  have kept := conserved.step step
  cases step with
  | call server client pool caller thread =>
    exact ⟨phase, .acquireCalled _ _ _, shows_.congr (phases_cons_none rfl) fun _ => rfl⟩
  | resume server client rest caller thread resumes ran =>
    rename_i op body entry move
    cases move with
    | returns ret =>
      obtain ⟨owner, named, rfl, all⟩ := shows_.starts kept (phase_resumes resumes) rfl
      cases named
      exact ⟨_, .acquired _ _, all⟩
    | waitsCond | calls | waitsRetry =>
      refine ⟨phase, .silent _, shows_.congr ?_ fun _ => rfl⟩
      rw [phases_cons_none rfl, phases_cons_none (phase_resumes resumes)]
  | wakeCond | wakeRetry | revokeReply =>
    refine ⟨phase, .silent _, shows_.congr ?_ fun _ => rfl⟩
    rw [phases_cons_none rfl, phases_cons_none rfl]
  | serverAcquire _ _ _ _ _ taken => exact shows_.serverAcquire conserved taken
  | revokeHandler server client rest caller thread ret holder ran =>
    rename_i entry gives
    refine ⟨phase, .silent _, shows_.congr ?_ fun _ => rfl⟩
    cases gives <;> rw [phases_cons_none rfl, phases_cons_none rfl]
  | releaseCall server client rest caller thread =>
    obtain ⟨owner, named, holder, others⟩ := conserved.phase_unique rfl
    cases named
    cases shows_.eq_shown conserved rfl
    exact ⟨_, .releaseCalled _ _, (phases_cons_none rfl).trans others, holder⟩
  | releaseReturn server client caller thread ran signals =>
    rename_i slot signal rest woken
    refine ⟨phase, .silent _, shows_.congr ?_ fun _ => rfl⟩
    rw [phases_cons_none rfl]
    cases signal
    · exact congrArg phases signals
    · exact phases_wake signals fun _ => ⟨rfl, rfl⟩
  | releaseGiveBack =>
    refine ⟨phase, .silent _, shows_.congr ?_ fun _ => rfl⟩
    rw [phases_cons_none rfl, phases_cons_none rfl]
  | doreleaseStart server client rest host =>
    obtain ⟨owner, named, rfl, all⟩ := shows_.starts kept (host.phase_run _) (host.phase_run _)
    cases named
    exact ⟨_, .doreleaseStart _, all⟩
  | doreleaseEnd server client rest host =>
    obtain ⟨_, _, _, others⟩ := conserved.phase_unique (host.phase_run _)
    cases shows_.eq_shown conserved (host.phase_run _)
    refine ⟨_, .doreleaseEnd _, ?_⟩
    show phases (host.run (.calling .sent) ::ₘ rest) = _
    rw [phases_cons_some (host.phase_run _), others]
    rfl
  | serverRelease server client rest host ran =>
    obtain ⟨_, _, _, others⟩ := conserved.phase_unique (host.phase_run _)
    cases shows_.eq_shown conserved (host.phase_run _)
    refine ⟨_, .released _, (phases_cons_none (phase_ofReleased _ _)).trans others, fun owner => ?_⟩
    obtain ⟨front, queue, clientS, rfl, _⟩ := conserved.awaited (Host.tally_run_before rfl)
    simp [← ran, LockServerCache.releaseEntry, standing, Ne.symm owner.property]
  | retryHandler server client front host signal =>
    refine ⟨phase, .silent _, shows_.congr ?_ fun _ => rfl⟩
    rw [phases_cons_none (host.phase_run _), phases_cons_none (host.phase_run _)]
    exact phases_wake signal fun _ => ⟨rfl, rfl⟩
  | retryReply server client rest front host =>
    refine ⟨phase, .silent _, shows_.congr ?_ fun _ => rfl⟩
    rw [phases_cons_none (host.phase_run _), phases_cons_none (host.phase_run _)]
  | givenBack server client host signal =>
    refine ⟨phase, .silent _, shows_.congr ?_ fun _ => rfl⟩
    rw [phases_finish, phases_cons_none (host.phase_run _)]
    exact phases_wake signal fun _ => ⟨rfl, rfl⟩

theorem tenures_of_run {trace : List (Event Thread)} {state : Slice Thread}
    (run : Run (slice Thread) trace state) :
    ∃ phase, Run (tenures Thread) trace phase ∧ Shows state phase := by
  refine run.simulate ?_ fun state label next phase reachable shows_ step =>
    shows_.step (conserved_of_reachable reachable) step
  rintro _ rfl
  exact ⟨.free, rfl, rfl, fun _ => rfl⟩

/-- After a grant to `client`, the visible events are sessions of its threads and
then one complete `dorelease` with the release at the server, as far as the
history goes; at the next grant nothing of it is missing. -/
theorem flush_before_handover {trace : List (LockId × Event Thread)}
    {state : LockId → Slice Thread} (run : Run (system Thread) trace state) (lid : LockId)
    {before middle after : List (Event Thread)} {client : ClientId}
    (split : labelsOf lid trace = before ++ .granted client :: middle ++ after)
    (single : ∀ other, .granted other ∉ middle) :
    (∃ users, middle.filter Event.visible <+: sessions client users ++ handOver client) ∧
    ∀ other later, after = .granted other :: later →
      ∃ users, middle.filter Event.visible = sessions client users ++ handOver client := by
  have labels := run.component lid
  rw [split] at labels
  obtain ⟨phase, abstract, _⟩ := tenures_of_run labels
  constructor
  · obtain ⟨here, shorter⟩ := abstract.before
    exact (progress_of_run shorter single).prefix_tenure
  · rintro other later rfl
    rw [List.append_cons _ (Event.granted other)] at abstract
    obtain ⟨_, untilGrant⟩ := abstract.before
    obtain ⟨here, shorter, granted⟩ := untilGrant.last
    have progress := progress_of_run shorter single
    cases granted
    generalize middle.filter Event.visible = events at progress ⊢
    cases progress with
    | free users => exact ⟨users, rfl⟩

def another : ClientId := ⟨"127.0.0.1:1025", by decide⟩

theorem alone_swap {lid : LockId} {trace : List (LockId × Event Thread)} {server client}
    {first second : Activity Thread} {rest : Multiset (Activity Thread)}
    (run : Run (system Thread) trace (alone lid ⟨server, client, first ::ₘ second ::ₘ rest⟩)) :
    Run (system Thread) trace (alone lid ⟨server, client, second ::ₘ first ::ₘ rest⟩) :=
  Multiset.cons_swap second first rest ▸ run

/-- A lock is handed over on a revoke. -/
theorem handed_over : ∃ trace state, Run (system ℕ) trace state ∧
    labelsOf 7 trace = [.acquireCalled someone 0, .silent, .granted someone, .acquired someone 0,
      .acquireCalled another 1, .silent, .silent, .silent, .silent, .releaseCalled someone 0,
      .silent, .doreleaseStart someone, .doreleaseEnd someone, .released someone, .silent, .silent,
      .granted another] := by
  have called := alone_step (alone_start 7) (by simp) (.call _ _ _ someone 0)
  have entered := alone_quiet called rfl (.resume _ _ _ _ _ rfl rfl)
  have served := alone_quiet entered rfl (.serverAcquire _ _ _ _ _ rfl)
  have held := alone_quiet served rfl (.resume _ _ _ _ _ rfl rfl)
  have joined := alone_step held (by simp [Op.ofNext]) (.call _ _ _ another 1)
  have asking := alone_quiet joined rfl (.resume _ _ _ _ _ rfl rfl)
  have queued := alone_quiet asking rfl (.serverAcquire _ _ _ _ _ rfl)
  have revoked := alone_quiet queued rfl (.revokeHandler _ _ _ _ _ _ _ rfl)
  have replied := alone_quiet revoked rfl (.revokeReply _ _ _ _ _ _ _)
  have released := alone_step (alone_swap replied)
    (by simp [Event.caller, Op.ofNext]) (.releaseCall _ _ _ _ _)
  have leaving := alone_quiet released rfl (.releaseGiveBack _ _ _ _ _ rfl)
  have flushing := alone_quiet leaving rfl (.doreleaseStart _ _ _ (.releaser someone 0))
  have flushed := alone_quiet flushing rfl (.doreleaseEnd _ _ _ (.releaser someone 0))
  have freed := alone_quiet flushed rfl (.serverRelease _ _ _ (.releaser someone 0) rfl)
  have told := alone_quiet freed rfl
    (.retryHandler _ _ another (.releaser someone 0) (.nobody (by simp)))
  have again := alone_quiet (alone_swap told) rfl (.resume _ _ _ _ _ rfl rfl)
  have granted := alone_quiet again rfl (.serverAcquire _ _ _ _ _ rfl)
  exact ⟨_, _, granted, rfl⟩

theorem flush_before_handover_once : ∃ trace state, Run (system ℕ) trace state ∧
    ∃ users, [Event.acquired someone 0, .releaseCalled someone 0, .doreleaseStart someone,
      .doreleaseEnd someone, .released someone] = sessions someone users ++ handOver someone := by
  obtain ⟨trace, state, run, labels⟩ := handed_over
  let middle : List (Event ℕ) := [.acquired someone 0, .acquireCalled another 1, .silent, .silent,
    .silent, .silent, .releaseCalled someone 0, .silent, .doreleaseStart someone,
    .doreleaseEnd someone, .released someone, .silent, .silent]
  have split : labelsOf 7 trace = [.acquireCalled someone 0, .silent] ++
      .granted someone :: middle ++ [.granted another] := labels
  exact ⟨trace, state, run,
    (flush_before_handover run 7 split (by simp [middle])).2 another [] rfl⟩

end NaiveFileSystem.LockSystem
