import NaiveFileSystem.Lock.Progress
import NaiveFileSystem.Yfs.Network

/-!
# No deadlock among the clients

A thread asks for a lock while it has none, and whoever has one is at work. So the
threads that wait for locks never wait for each other: as long as there is any work
left, a thread makes its next call, or what is in flight of the protocol moves.
-/

namespace NaiveFileSystem.Yfs

open Extent Cache Transition Program
open LockSystem (ClientId)

section System

variable {ι σ : Type} [DecidableEq ι]

def Network.Event.thread : Network.Event ι σ → Option ι
  | .work act => act.worker
  | .lock _ (.acquireCalled _ t) | .lock _ (.acquired _ t) | .lock _ (.releaseCalled _ t) => some t
  | .lock _ _ | .dorelease _ _ _ => none

/-- Any call to the server that the step makes is one of `rpc`. -/
def Network.Event.Uses (rpc : Rpc σ) : Network.Event ι σ → Prop
  | .work (.call _ _ answering) | .work (.request _ _ answering) | .dorelease _ _ answering =>
    answering = rpc
  | .work _ | .lock _ _ => True

/-- Thread `u` is at work outside the protocol, and makes its next call whatever the
server answers. -/
def Network.Works (net : Network ι σ) (u : ι) : Prop :=
  net.jobs u ≠ none ∧ net.Awake u ∧ ∀ rpc, Rejects rpc → ∃ event next, event.thread = some u ∧
    network.step net event next ∧ event.Uses rpc

/-- What is in flight for a thread that does not just wait for a signal moves, whatever
the server answers. -/
def Network.Flows (net : Network ι σ) : Prop :=
  ∃ lid activity, ¬ LockSystem.Op.Asleep activity.op ∧ ∀ rpc, Rejects rpc → ∃ event next,
    network.step net event next ∧ event.Uses rpc ∧
    (next.locks lid).pool.count activity < (net.locks lid).pool.count activity

/-- Whoever is inside `acquire` has that call ahead; no thread is inside two calls. -/
structure Calling (net : Network ι σ) : Prop where
  acquiring : ∀ lid client t, LockSystem.Acquiring (net.locks lid).pool client t →
    ∃ job rest, net.jobs t = some job ∧ job.client = client ∧ job.rest = .call (.acquire lid) rest
  single : ∀ lid client t,
    (net.locks lid).pool.countP (LockSystem.Activity.Inside client t) ≤ 1

variable {net next : Network ι σ} {event : Network.Event ι σ} {t : ι} {job : Job ClientId}
  {lid : Inum}

theorem Acts.jobs_of_worker {κ : Type} [DecidableEq κ] {site after : Site κ ι σ} {act : Act κ ι σ}
    (acts : Acts site act after) (worker : act.worker = some t) {other : ι} (different : other ≠ t) :
    after.jobs other = site.jobs other := by
  cases acts with
  | start | finish | call | request | record =>
    cases worker
    exact Function.update_of_ne different _ _
  | acquire | release | leave | handOver => cases worker

omit [DecidableEq ι] in
theorem not_acquiring (awake : net.Awake t) (here : net.jobs t = some job) (lid : Inum) :
    ¬ LockSystem.Acquiring (net.locks lid).pool job.client t := by
  rintro ⟨activity, member, client, thread, inside⟩
  rw [awake job here lid activity member client thread] at inside
  exact inside

theorem countP_of_awake (awake : net.Awake t) (here : net.jobs t = some job) (lid : Inum) :
    (net.locks lid).pool.countP (LockSystem.Activity.Inside job.client t) = 0 := by
  rw [Multiset.countP_eq_zero]
  rintro activity member ⟨client, thread, inside⟩
  exact inside (awake job here lid activity member client thread)

omit [DecidableEq ι] in
theorem acquiring_lock {locks : LockProtocol.LockId → LockSystem.Slice ι} {slice : LockSystem.Slice ι}
    {event : LockSystem.Event ι} (step : LockSystem.Step (locks lid) event slice) {other : Inum}
    {client : ClientId} (acquiring : LockSystem.Acquiring (Function.update locks lid slice other).pool
      client t) :
    (other = lid ∧ event = .acquireCalled client t) ∨
      LockSystem.Acquiring (locks other).pool client t := by
  by_cases same : other = lid
  · subst same
    rw [Function.update_self] at acquiring
    exact (step.acquiring acquiring).imp_left fun called => ⟨rfl, called⟩
  · rw [Function.update_of_ne same] at acquiring
    exact .inr acquiring

theorem acquiring_countP {pool : Multiset (LockSystem.Activity ι)} {client : ClientId}
    (acquiring : LockSystem.Acquiring pool client t) :
    0 < pool.countP (LockSystem.Activity.Inside client t) := by
  obtain ⟨activity, member, same, thread, inside⟩ := acquiring
  refine Multiset.countP_pos_of_mem member ⟨same, thread, fun holding => ?_⟩
  rw [holding] at inside
  exact inside

theorem Calling.single_lock (calling : Calling net) {slice : LockSystem.Slice ι}
    {event : LockSystem.Event ι} (step : LockSystem.Step (net.locks lid) event slice)
    (outside : ∀ client t, event = .acquireCalled client t ∨ event = .releaseCalled client t →
      (net.locks lid).pool.countP (LockSystem.Activity.Inside client t) = 0)
    (other : Inum) (client : ClientId) (t : ι) :
    (Function.update net.locks lid slice other).pool.countP
      (LockSystem.Activity.Inside client t) ≤ 1 := by
  by_cases same : other = lid
  · subst same
    rw [Function.update_self]
    have bound := step.inside_le client t
    have before := calling.single other client t
    by_cases calls : event = .acquireCalled client t ∨ event = .releaseCalled client t
    · rw [if_pos calls, outside client t calls] at bound
      omega
    · rw [if_neg calls] at bound
      omega
  · rw [Function.update_of_ne same]
    exact calling.single other client t

theorem Calling.kept (calling : Calling net) (step : Network.Step net event next) :
    Calling next := by
  cases step with
  | @work act after t worker awake acts =>
    refine ⟨fun lid client u acquiring => ?_, calling.single⟩
    obtain ⟨job, rest, here, rfl, calls⟩ := calling.acquiring lid client u acquiring
    refine ⟨job, rest, ?_, rfl, calls⟩
    have different : u ≠ t := by
      rintro rfl
      exact not_acquiring awake here lid acquiring
    exact (acts.jobs_of_worker worker different).trans here
  | @protocol lid event slice kind steps =>
    have internal : event.Internal := by
      rcases kind with rfl | ⟨_, rfl⟩ | ⟨_, rfl⟩ | ⟨_, rfl⟩ <;> exact trivial
    refine ⟨fun other client u acquiring => ?_, calling.single_lock steps ?_⟩
    · rcases acquiring_lock steps acquiring with ⟨_, rfl⟩ | earlier
      · exact internal.elim
      · exact calling.acquiring other client u earlier
    · rintro client u (rfl | rfl) <;> exact internal.elim
  | @acquireCalled t job lid rest slice here calls awake steps =>
    refine ⟨fun other client u acquiring => ?_, calling.single_lock steps ?_⟩
    · rcases acquiring_lock steps acquiring with ⟨rfl, called⟩ | earlier
      · cases called
        exact ⟨job, rest, here, rfl, calls⟩
      · exact calling.acquiring other client u earlier
    · rintro client u (called | called)
      · cases called
        exact countP_of_awake awake here lid
      · cases called
  | @acquired t job lid rest slice here calls steps =>
    refine ⟨fun other client u acquiring => ?_, calling.single_lock steps ?_⟩
    · rcases acquiring_lock steps acquiring with ⟨_, called⟩ | earlier
      · cases called
      · obtain ⟨job', rest', here', client', calls'⟩ := calling.acquiring other client u earlier
        refine ⟨job', rest', ?_, client', calls'⟩
        refine (Function.update_of_ne ?_ _ _).trans here'
        -- The thread that returns was inside this one call.
        rintro rfl
        cases here.symm.trans here'
        cases calls.symm.trans calls'
        obtain rfl : job.client = client := client'
        have bound := steps.inside_le job.client u
        have before := calling.single lid job.client u
        have still : LockSystem.Acquiring slice.pool job.client u := by
          simpa [Network.set, Network.lock] using acquiring
        have inside := acquiring_countP still
        rw [if_pos rfl, if_neg (by simp)] at bound
        omega
    · rintro client u (called | called) <;> cases called
  | @releaseCalled t job lid rest slice here calls awake steps =>
    refine ⟨fun other client u acquiring => ?_, calling.single_lock steps ?_⟩
    · rcases acquiring_lock steps acquiring with ⟨_, called⟩ | earlier
      · cases called
      · obtain ⟨job', rest', here', client', calls'⟩ := calling.acquiring other client u earlier
        refine ⟨job', rest', ?_, client', calls'⟩
        refine (Function.update_of_ne ?_ _ _).trans here'
        rintro rfl
        cases here.symm.trans here'
        cases calls.symm.trans calls'
    · rintro client u (called | called)
      · cases called
      · cases called
        exact countP_of_awake awake here lid
  | @dorelease client lid rpc slice result ret rejects steps ran =>
    refine ⟨fun other client' u acquiring => ?_, calling.single_lock steps ?_⟩
    · rcases acquiring_lock steps acquiring with ⟨_, called⟩ | earlier
      · cases called
      · exact calling.acquiring other client' u earlier
    · rintro client' u (called | called) <;> cases called

theorem calling_of_reachable (reachable : Reachable network net) : Calling net := by
  refine @Reachable.invariant _ _ network Calling ?_ ?_ _ reachable
  · intro net fresh
    refine ⟨fun lid client t acquiring => ?_, fun lid client t => ?_⟩
    · obtain ⟨activity, member, _⟩ := acquiring
      rw [fresh.locks] at member
      exact absurd member (Multiset.notMem_zero _)
    · rw [fresh.locks]
      exact Nat.zero_le 1
  · intro net event next calling step
    exact calling.kept step

theorem mirrors_of_reachable (reachable : Reachable network net) :
    ∃ site, Mirrors net site ∧ Locked (fun _ => True) site := by
  obtain ⟨trace, run⟩ := reachable
  obtain ⟨site, works, mirrors⟩ := mirrors_run run
  refine ⟨site, mirrors, @Reachable.invariant _ _ working (Locked fun _ => True) ?_ ?_ _
    works.reachable⟩
  · intro site fresh
    exact Site.Fresh.locked fresh
  · intro site act next locked acts
    exact locked.kept (fun _ => id) (fun _ _ _ _ => trivial) (fun _ _ _ _ => trivial) acts

theorem works_of_awake (reachable : Reachable network net) (here : net.jobs t = some job)
    (awake : net.Awake t) : net.Works t := by
  refine ⟨by simp [here], awake, fun rpc rejects => ?_⟩
  have env : Ambient := ⟨0, ⟨0, 0, 0, 0, 0⟩⟩
  have here' : net.site.jobs t = some job := here
  cases next : job.rest with
  | done => exact ⟨_, _, rfl, .work rfl awake (.finish here' next), trivial⟩
  | call op rest =>
    cases op with
    | create type arg =>
      cases records : job.recording with
      | none =>
        have requests : Acts net.site (.request t type rpc) _ := .request here' next records rfl
        exact ⟨_, _, rfl, .work rfl awake requests, rfl⟩
      | some answer => exact ⟨_, _, rfl, .work rfl awake (.record env here' next records), trivial⟩
    | get eid | getattr eid | put eid | remove eid | flush eid =>
      exact ⟨_, _, rfl, .work rfl awake (.call env here' next rfl rejects rfl), rfl⟩
    | acquire lid =>
      exact ⟨_, _, rfl, .acquireCalled here next awake (.call _ _ _ job.client t), trivial⟩
    | release lid =>
      -- The thread has the lock that it releases, so the protocol lets it.
      obtain ⟨site, mirrors, locked⟩ := mirrors_of_reachable reachable
      have there : site.jobs t = some job := by rw [mirrors.jobs, here]
      obtain ⟨guard, guards⟩ := locked.jobs t job there
      have needs := guards.rest
      rw [next] at needs
      have owned := locked.owned there guards needs.1
      have provides := mirrors.locks lid
      rw [Site.layer, owned.holder, owned.owner] at provides
      obtain ⟨client, same, member⟩ := provides.holding
      cases same
      obtain ⟨slice, steps⟩ := LockSystem.releaseCall_of_mem member
      exact ⟨_, _, rfl, .releaseCalled here next awake steps, trivial⟩

theorem moves_steps (reachable : Reachable network net)
    {activity : LockSystem.Activity ι} (moves : activity.Moves (net.locks lid)) {rpc : Rpc σ}
    (rejects : Rejects rpc) : ∃ event next, network.step net event next ∧ event.Uses rpc ∧
      (next.locks lid).pool.count activity < (net.locks lid).pool.count activity := by
  obtain ⟨event, slice, steps, fewer, kind⟩ := moves
  have lock (net' : Network ι σ) (locks : net'.locks = Function.update net.locks lid slice) :
      (net'.locks lid).pool.count activity < (net.locks lid).pool.count activity := by
    rw [locks, Function.update_self]
    exact fewer
  rcases kind with internal | ⟨rfl, inside⟩
  · match event with
    | .silent => exact ⟨_, _, .protocol (.inl rfl) steps, trivial, lock _ rfl⟩
    | .granted client =>
      exact ⟨_, _, .protocol (.inr (.inl ⟨client, rfl⟩)) steps, trivial, lock _ rfl⟩
    | .doreleaseStart client =>
      exact ⟨_, _, .protocol (.inr (.inr (.inl ⟨client, rfl⟩))) steps, trivial, lock _ rfl⟩
    | .released client =>
      exact ⟨_, _, .protocol (.inr (.inr (.inr ⟨client, rfl⟩))) steps, trivial, lock _ rfl⟩
    | .doreleaseEnd client =>
      exact ⟨_, _, .dorelease rejects steps rfl, rfl, lock _ rfl⟩
  · have member : activity ∈ (net.locks lid).pool :=
      Multiset.count_pos.mp (lt_of_le_of_lt (Nat.zero_le _) fewer)
    obtain ⟨job, rest, here, client, calls⟩ := (calling_of_reachable reachable).acquiring lid
      activity.client activity.thread ⟨activity, member, rfl, rfl, inside⟩
    rw [← client] at steps
    exact ⟨_, _, .acquired here calls steps, trivial, lock _ rfl⟩

/-- As long as a thread is at work, there is one that makes its next call, or the protocol
moves. -/
theorem never_deadlocked (reachable : Reachable network net) (here : net.jobs t = some job) :
    (∃ u, net.Works u) ∨ net.Flows := by
  by_contra stuck
  obtain ⟨nobody, still⟩ := not_or.mp stuck
  have conserved := LockSystem.conserved_of_system (locks_reachable reachable)
  have asleep : ∀ lid, ∀ activity ∈ (net.locks lid).pool, activity.op ≠ .holding →
      activity.op.Asleep := by
    intro lid activity member working
    by_contra awake
    exact still ⟨lid, activity, awake, fun rpc rejects =>
      moves_steps reachable ((conserved lid).moves member awake working) rejects⟩
  have waits : ∀ u job, net.jobs u = some job → ∃ lid rest, job.rest = .call (.acquire lid) rest ∧
      LockSystem.Acquiring (net.locks lid).pool job.client u := by
    intro u job here
    have inside : ¬ net.Awake u := fun awake => nobody ⟨u, works_of_awake reachable here awake⟩
    simp only [Network.Awake, here, Option.some.injEq, forall_eq'] at inside
    simp only [LockSystem.Outside] at inside
    push Not at inside
    obtain ⟨lid, activity, member, client, rfl, working⟩ := inside
    have acquiring : activity.op.insideAcquire := by
      rcases asleep lid activity member working with waits | waits <;> rw [waits] <;> exact trivial
    obtain ⟨job', rest, there, _, calls⟩ := (calling_of_reachable reachable).acquiring lid
      activity.client activity.thread ⟨activity, member, rfl, rfl, acquiring⟩
    cases here.symm.trans there
    exact ⟨lid, rest, calls, activity, member, client, rfl, acquiring⟩
  obtain ⟨lid, rest, calls, activity, member, _, _, inside⟩ := waits t job here
  -- A lock that is waited for is in use.
  obtain ⟨user, uses, holding⟩ : ∃ user ∈ (net.locks lid).pool, user.op = .holding := by
    by_contra unused
    push Not at unused
    refine LockSystem.never_stuck (locks_reachable reachable) lid ⟨⟨activity, member, inside⟩, unused,
      fun other also out => ?_, fun other also _ => asleep lid other also (unused other also)⟩
    rcases asleep lid other also (unused other also) with waits | waits <;> rw [waits] at out <;>
      exact out
  -- Its holder is at work, and asks for no other lock.
  obtain ⟨site, mirrors, locked⟩ := mirrors_of_reachable reachable
  obtain ⟨client, u, _⟩ := user
  obtain rfl : _ = LockSystem.Op.holding := holding
  have layer := (mirrors.locks lid).of_holding uses
  have held : site.holder lid = some u := congrArg LockSystem.Layer.holder layer
  obtain ⟨job', there, _, _⟩ := locked.held lid u held
  obtain ⟨other, rest', asks, _⟩ := waits u job' (by rw [← mirrors.jobs, there])
  obtain ⟨guard, guards⟩ := locked.jobs u job' there
  have needs := guards.rest
  rw [asks] at needs
  cases ((guards.held lid).mp held).symm.trans needs.2.1

end System

/-- A client is about to ask for lock 1, then asked, and nothing was granted yet. -/
theorem never_deadlocked_asking : ∃ net called : Network Unit Contents,
    (net.jobs () ≠ none ∧ net.Awake () ∧ ((∃ u, net.Works u) ∨ net.Flows)) ∧
    called.jobs () ≠ none ∧ ¬ called.Awake () ∧ ((∃ u, called.Works u) ∨ called.Flows) := by
  have begun := (solo_start 1 rooted).extend (solo_work (by simp)
    (.start LockSystem.someone (.basic .init) ⟨⟨0, 0, 0, 0, 0⟩, 0⟩ rfl) rfl rfl)
  have called := begun.extend (solo_acquireCalled rfl (by simp) (.call _ _ _ _ _))
  refine ⟨_, _, ⟨Option.some_ne_none _, solo_awake (by simp),
    @never_deadlocked _ _ _ _ () _ begun.reachable rfl⟩, Option.some_ne_none _, fun awake => ?_,
    @never_deadlocked _ _ _ _ () _ called.reachable rfl⟩
  have entering : LockSystem.Op.entering = .holding :=
    awake _ rfl 1 ⟨LockSystem.someone, (), .entering⟩ (by simp [solo, LockSystem.alone]) rfl rfl
  cases entering

end NaiveFileSystem.Yfs
