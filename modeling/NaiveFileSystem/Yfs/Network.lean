import NaiveFileSystem.Lock.Layer
import NaiveFileSystem.Yfs.Dirty

/-!
# Clients over the lock protocol

A site whose locks are those of the caching protocol: every `LockGuard` calls
`acquire` and `release` of the lock client, whose requests, revokes and retries are
in flight beside the work of the threads, and `dorelease` flushes the extent. Its
runs are runs of a site in which taking a lock is one step.
-/

namespace NaiveFileSystem.Yfs

open Extent Cache Transition Program
open LockSystem (ClientId)

structure Network (ι σ : Type) where
  locks : LockProtocol.LockId → LockSystem.Slice ι
  server : σ
  table : ClientId → Table
  jobs : ι → Option (Job ClientId)

namespace Network

variable {ι σ : Type}

/-- `dorelease` runs `flush`, whose effect is at the end of it. -/
inductive Event (ι σ : Type)
  | work (act : Act ClientId ι σ)
  | lock (lid : Inum) (event : LockSystem.Event ι)
  | dorelease (client : ClientId) (lid : Inum) (rpc : Rpc σ)

def site (net : Network ι σ) : Site ClientId ι σ where
  server := net.server
  table := net.table
  owner _ := none
  leaving _ := false
  holder _ := none
  jobs := net.jobs

def lock (net : Network ι σ) (lid : Inum) (slice : LockSystem.Slice ι) : Network ι σ :=
  { net with locks := Function.update net.locks lid slice }

end Network

def Act.worker {κ ι σ : Type} : Act κ ι σ → Option ι
  | .start t _ _ | .finish t | .call t _ _ | .request t _ _ | .record t _ _ => some t
  | .acquire _ _ | .release _ _ | .leave _ _ _ | .handOver _ => none

section System

variable {ι σ : Type} [DecidableEq ι]

namespace Network

def set (net : Network ι σ) (t : ι) (job : Option (Job ClientId)) : Network ι σ :=
  { net with jobs := Function.update net.jobs t job }

/-- A thread works while it is not inside `acquire` or `release`. -/
def Awake (net : Network ι σ) (t : ι) : Prop :=
  ∀ job, net.jobs t = some job → LockSystem.Outside net.locks job.client t

inductive Step : Network ι σ → Event ι σ → Network ι σ → Prop
  | work {net act after t} : act.worker = some t → net.Awake t → Acts net.site act after →
      Step net (.work act)
        { net with server := after.server, table := after.table, jobs := after.jobs }
  | protocol {net lid event slice} : (event = .silent ∨ (∃ client, event = .granted client) ∨
        (∃ client, event = .doreleaseStart client) ∨ ∃ client, event = .released client) →
      LockSystem.Step (net.locks lid) event slice →
      Step net (.lock lid event) (net.lock lid slice)
  | acquireCalled {net t job lid next slice} : net.jobs t = some job →
      job.rest = .call (.acquire lid) next → net.Awake t →
      LockSystem.Step (net.locks lid) (.acquireCalled job.client t) slice →
      Step net (.lock lid (.acquireCalled job.client t)) (net.lock lid slice)
  | acquired {net t job lid next slice} : net.jobs t = some job →
      job.rest = .call (.acquire lid) next →
      LockSystem.Step (net.locks lid) (.acquired job.client t) slice →
      Step net (.lock lid (.acquired job.client t))
        ((net.lock lid slice).set t (some { job with rest := next () }))
  | releaseCalled {net t job lid next slice} : net.jobs t = some job →
      job.rest = .call (.release lid) next → net.Awake t →
      LockSystem.Step (net.locks lid) (.releaseCalled job.client t) slice →
      Step net (.lock lid (.releaseCalled job.client t))
        ((net.lock lid slice).set t (some { job with rest := next () }))
  | dorelease {net client lid rpc slice result ret} : Rejects rpc →
      LockSystem.Step (net.locks lid) (.doreleaseEnd client) slice →
      ExtentClientCache.flush rpc lid (net.table client) net.server = (result, ret) →
      Step net (.dorelease client lid rpc) { net.lock lid slice with
        table := Function.update net.table client result.1, server := result.2 }

structure Fresh (net : Network ι σ) : Prop where
  locks : ∀ lid, net.locks lid = ⟨none, fun _ => none, 0⟩
  table : ∀ client eid, net.table client eid = none
  jobs : ∀ t, net.jobs t = none

end Network

def network : System (Network ι σ) (Network.Event ι σ) where
  init := Network.Fresh
  step := Network.Step

/-- The step of a site that an event is. -/
def Network.Event.act : Network.Event ι σ → Option (Act ClientId ι σ)
  | .work act => some act
  | .lock lid (.acquired _ t) => some (.acquire t lid)
  | .lock lid (.releaseCalled _ t) => some (.release t lid)
  | .lock lid (.released _) => some (.handOver lid)
  | .lock _ _ => none
  | .dorelease client lid rpc => some (.leave client lid rpc)

def Site.layer (site : Site ClientId ι σ) (lid : Inum) : LockSystem.Layer ι :=
  ⟨site.owner lid, site.leaving lid, site.holder lid⟩

/-- The site that the network is, with each lock as the protocol provides it. -/
structure Mirrors (net : Network ι σ) (site : Site ClientId ι σ) : Prop where
  server : site.server = net.server
  table : site.table = net.table
  jobs : site.jobs = net.jobs
  locks : ∀ lid, LockSystem.Provides (net.locks lid) (site.layer lid)

variable {net next : Network ι σ} {site : Site ClientId ι σ} {event : Network.Event ι σ}

omit [DecidableEq ι] in
theorem locks_step {locks : LockProtocol.LockId → LockSystem.Slice ι} {lid : Inum}
    {event : LockSystem.Event ι} {slice : LockSystem.Slice ι}
    (reachable : Reachable (LockSystem.system ι) locks) (may : LockSystem.MayCall locks lid event)
    (step : LockSystem.Step (locks lid) event slice) :
    Reachable (LockSystem.system ι) (Function.update locks lid slice) :=
  @Reachable.extend _ _ _ _ _ (lid, event) reachable ⟨may, slice, step, rfl⟩

theorem locks_reachable (reachable : Reachable network net) :
    Reachable (LockSystem.system ι) net.locks := by
  refine @Reachable.invariant _ _ network
    (fun net => Reachable (LockSystem.system ι) net.locks) ?_ ?_ _ reachable
  · intro net fresh
    exact ⟨[], .start fresh.locks⟩
  · intro net event next reachable step
    cases step with
    | work => exact reachable
    | @protocol lid event slice kind steps =>
      refine locks_step reachable ?_ steps
      rcases kind with rfl | ⟨_, rfl⟩ | ⟨_, rfl⟩ | ⟨_, rfl⟩ <;> exact trivial
    | acquireCalled here calls awake steps | releaseCalled here calls awake steps =>
      refine locks_step reachable ?_ steps
      exact awake _ here
    | acquired here calls steps | dorelease rejects steps ran =>
      refine locks_step reachable ?_ steps
      exact trivial

theorem Acts.relock {before after : Site ClientId ι σ} {act : Act ClientId ι σ} {t : ι}
    (worker : act.worker = some t) (acts : Acts before act after) (server : site.server = before.server)
    (table : site.table = before.table) (jobs : site.jobs = before.jobs) :
    Acts site act { site with server := after.server, table := after.table, jobs := after.jobs } := by
  obtain ⟨_, _, owner, leaving, holder, _⟩ := site
  subst server table jobs
  cases acts with
  | start client task vars free => exact .start client task vars free
  | finish here done => exact .finish here done
  | call env here calls extent rejects ran => exact .call env here calls extent rejects ran
  | request here calls free ran => exact .request here calls free ran
  | record env here calls recording => exact .record env here calls recording
  | acquire | release | leave | handOver => cases worker

omit [DecidableEq ι] in
theorem Mirrors.provides (mirrors : Mirrors net site) {lid : Inum} {slice : LockSystem.Slice ι}
    {after : Site ClientId ι σ} (here : LockSystem.Provides slice (after.layer lid))
    (others : ∀ other, other ≠ lid → after.layer other = site.layer other) (other : Inum) :
    LockSystem.Provides (Function.update net.locks lid slice other) (after.layer other) := by
  by_cases same : other = lid
  · subst same
    rwa [Function.update_self]
  · rw [Function.update_of_ne same, others other same]
    exact mirrors.locks other

theorem Mirrors.step (mirrors : Mirrors net site)
    (conserved : ∀ lid, LockSystem.Conserved (net.locks lid)) (step : Network.Step net event next) :
    ∃ after, working.Moves site event.act after ∧ Mirrors next after := by
  have server := mirrors.server
  have table := mirrors.table
  have jobs := mirrors.jobs
  cases step with
  | work worker awake acts =>
    exact ⟨_, .steps (acts.relock worker server table jobs), ⟨rfl, rfl, rfl, mirrors.locks⟩⟩
  | @protocol lid event slice kind steps =>
    obtain ⟨layer, moves, provides⟩ := (mirrors.locks lid).step (conserved lid) steps
    rcases kind with rfl | ⟨client, rfl⟩ | ⟨client, rfl⟩ | ⟨client, rfl⟩
    · rw [moves.of_hidden trivial] at provides
      exact ⟨site, .stays, ⟨server, table, jobs, mirrors.provides provides fun _ _ => rfl⟩⟩
    · rw [moves.of_hidden trivial] at provides
      exact ⟨site, .stays, ⟨server, table, jobs, mirrors.provides provides fun _ _ => rfl⟩⟩
    · rw [moves.of_hidden trivial] at provides
      exact ⟨site, .stays, ⟨server, table, jobs, mirrors.provides provides fun _ _ => rfl⟩⟩
    · obtain ⟨before, rfl⟩ := moves.of_released
      obtain ⟨owner, leaves, holder⟩ := LockSystem.Layer.mk.inj before
      refine ⟨_, .steps (.handOver leaves), ⟨server, table, jobs, mirrors.provides ?_ ?_⟩⟩
      · simpa [Site.layer, holder] using provides
      · intro other different
        simp [Site.layer, different]
  | @acquireCalled t job lid rest slice here calls awake steps =>
    obtain ⟨layer, moves, provides⟩ := (mirrors.locks lid).step (conserved lid) steps
    rw [moves.of_hidden trivial] at provides
    exact ⟨site, .stays, ⟨server, table, jobs, mirrors.provides provides fun _ _ => rfl⟩⟩
  | @acquired t job lid rest slice here calls steps =>
    obtain ⟨layer, moves, provides⟩ := (mirrors.locks lid).step (conserved lid) steps
    obtain ⟨stays, free, owner, rfl⟩ := moves.of_acquired
    have here' : site.jobs t = some job := by rw [jobs, here]
    refine ⟨_, .steps (.acquire here' calls free stays owner),
      ⟨server, table, congrArg (Function.update · t _) jobs, mirrors.provides ?_ ?_⟩⟩
    · simpa [Site.layer, Site.set, show site.leaving lid = false from stays] using provides
    · intro other different
      simp [Site.layer, Site.set, different]
  | @releaseCalled t job lid rest slice here calls awake steps =>
    obtain ⟨layer, moves, provides⟩ := (mirrors.locks lid).step (conserved lid) steps
    obtain ⟨before, rfl⟩ := moves.of_releaseCalled
    obtain ⟨owner, stays, holder⟩ := LockSystem.Layer.mk.inj before
    have here' : site.jobs t = some job := by rw [jobs, here]
    refine ⟨_, .steps (.release here' calls),
      ⟨server, table, congrArg (Function.update · t _) jobs, mirrors.provides ?_ ?_⟩⟩
    · simpa [Site.layer, Site.set, owner, stays] using provides
    · intro other different
      simp [Site.layer, Site.set, different]
  | @dorelease client lid rpc slice result ret rejects steps ran =>
    obtain ⟨layer, moves, provides⟩ := (mirrors.locks lid).step (conserved lid) steps
    obtain ⟨before, rfl⟩ := moves.of_doreleaseEnd
    obtain ⟨owner, stays, holder⟩ := LockSystem.Layer.mk.inj before
    rw [← table, ← server] at ran
    refine ⟨_, .steps (.leave owner holder stays rejects ran),
      ⟨rfl, congrArg (Function.update · client _) table, jobs, mirrors.provides ?_ ?_⟩⟩
    · simpa [Site.layer, Site.after, owner, holder] using provides
    · intro other different
      simp [Site.layer, Site.after, different]

theorem mirrors_run {trace : List (Network.Event ι σ)} (run : Run network trace net) :
    ∃ site, Run working (trace.filterMap Network.Event.act) site ∧ Mirrors net site := by
  refine Run.refine_view Network.Event.act ?_ ?_ run
  · intro net fresh
    refine ⟨net.site, ⟨fresh.table, fun _ => rfl, fun _ => rfl, fun _ => rfl, fresh.jobs⟩,
      rfl, rfl, rfl, fun lid => ?_⟩
    rw [fresh.locks]
    exact LockSystem.provides_init
  · intro net event next site reachable _ mirrors step
    exact mirrors.step (LockSystem.conserved_of_system (locks_reachable reachable)) step

/-- Every run of the clients over the protocol is one of a site in which a lock is taken,
flushed and handed over in one step each. -/
theorem network_refines {trace : List (Network.Event ι σ)} (run : Run network trace net) :
    ∃ site, Run working (trace.filterMap Network.Event.act) site ∧ Mirrors net site :=
  mirrors_run run

end System

/-! ### One thread and one lock -/

section Solo

variable {σ : Type} {lid : Inum} {slice next : LockSystem.Slice Unit} {server : σ}
  {table : ClientId → Table} {job : Job ClientId} {trace : List (Network.Event Unit σ)}
  {event : LockSystem.Event Unit}

/-- Nothing happened to the other locks. -/
def solo (lid : Inum) (slice : LockSystem.Slice Unit) (server : σ) (table : ClientId → Table)
    (job : Option (Job ClientId)) : Network Unit σ :=
  ⟨LockSystem.alone lid slice, server, table, fun _ => job⟩

theorem solo_fresh (lid : Inum) (server : σ) :
    (solo lid ⟨none, fun _ => none, 0⟩ server (fun _ _ => none) none).Fresh := by
  refine ⟨fun other => ?_, fun _ _ => rfl, fun _ => rfl⟩
  simp only [solo, LockSystem.alone, Function.update_apply, ite_self]

theorem solo_start (lid : Inum) (server : σ) :
    Run network [] (solo lid ⟨none, fun _ => none, 0⟩ server (fun _ _ => none) none) :=
  .start (solo_fresh lid server)

theorem solo_awake {job : Option (Job ClientId)}
    (outside : ∀ activity ∈ slice.pool, activity.op = .holding) :
    (solo lid slice server table job).Awake () := by
  intro job' _ other activity member _ _
  by_cases same : other = lid
  · subst same
    exact outside activity (by simpa [solo, LockSystem.alone] using member)
  · simp [solo, LockSystem.alone, Function.update_of_ne same] at member

theorem solo_lock : (solo lid slice server table (some job)).lock lid next =
    solo lid next server table (some job) := by
  simp [solo, Network.lock, LockSystem.alone]

theorem solo_set (after : Option (Job ClientId)) :
    (solo lid slice server table (some job)).set () after = solo lid slice server table after := by
  have jobs : Function.update (fun _ : Unit => some job) () after = fun _ => after :=
    funext fun _ => Function.update_self _ _ _
  rw [Network.set, solo, jobs]
  rfl

theorem solo_step (step : LockSystem.Step slice event next) :
    LockSystem.Step ((solo lid slice server table (some job)).locks lid) event next := by
  simpa [solo, LockSystem.alone] using step

theorem solo_work {job after : Option (Job ClientId)} {act : Act ClientId Unit σ}
    {site : Site ClientId Unit σ} (outside : ∀ activity ∈ slice.pool, activity.op = .holding)
    (acts : Acts (solo lid slice server table job).site act site) (worker : act.worker = some ())
    (jobs : site.jobs () = after) :
    network.step (solo lid slice server table job) (.work act)
      (solo lid slice site.server site.table after) := by
  have moves : network.step (solo lid slice server table job) (.work act) _ :=
    .work worker (solo_awake outside) acts
  rwa [show site.jobs = fun _ => after from funext fun _ => jobs] at moves

theorem solo_protocol (step : LockSystem.Step slice event next)
    (kind : event = .silent ∨ (∃ client, event = .granted client) ∨
        (∃ client, event = .doreleaseStart client) ∨ ∃ client, event = .released client) :
    network.step (solo lid slice server table (some job)) (.lock lid event)
      (solo lid next server table (some job)) := by
  have moves : network.step (solo lid slice server table (some job)) (.lock lid event) _ :=
    .protocol kind (solo_step step)
  rwa [solo_lock] at moves

theorem solo_acquireCalled {rest : Unit → Action Unit} (calls : job.rest = .call (.acquire lid) rest)
    (outside : ∀ activity ∈ slice.pool, activity.op = .holding)
    (step : LockSystem.Step slice (.acquireCalled job.client ()) next) :
    network.step (solo lid slice server table (some job)) (.lock lid (.acquireCalled job.client ()))
      (solo lid next server table (some job)) := by
  have moves : network.step (solo lid slice server table (some job)) (.lock lid _) _ :=
    .acquireCalled rfl calls (solo_awake outside) (solo_step step)
  rwa [solo_lock] at moves

theorem solo_acquired {rest : Unit → Action Unit} (step : LockSystem.Step slice event next)
    (returns : event = .acquired job.client ()) (calls : job.rest = .call (.acquire lid) rest) :
    network.step (solo lid slice server table (some job)) (.lock lid (.acquired job.client ()))
      (solo lid next server table (some { job with rest := rest () })) := by
  subst returns
  have moves : network.step (solo lid slice server table (some job)) (.lock lid _) _ :=
    .acquired rfl calls (solo_step step)
  rwa [solo_lock, solo_set] at moves

end Solo

theorem network_refines_joined : ∃ (trace : List (Network.Event Unit Contents))
    (site : Site ClientId Unit Contents),
    trace.filterMap Network.Event.act = [.start () LockSystem.someone (.basic .init), .acquire () 1,
      .call () (.put 1 []) (plain 2)] ∧ Run working (trace.filterMap Network.Event.act) site := by
  let env : Ambient := ⟨0, ⟨0, 0, 0, 0, 0⟩⟩
  have begun := (solo_start 1 rooted).extend (solo_work (by simp)
    (.start LockSystem.someone (.basic .init) ⟨env.junk, 0⟩ rfl) rfl rfl)
  have called := begun.extend (solo_acquireCalled rfl (by simp) (.call _ _ _ _ _))
  have entered := called.extend (solo_protocol (.resume _ _ _ _ _ rfl rfl) (.inl rfl))
  have served := entered.extend
    (solo_protocol (.serverAcquire _ _ _ _ _ rfl) (.inr (.inl ⟨_, rfl⟩)))
  have held := served.extend (solo_acquired (.resume _ _ _ _ _ rfl rfl) rfl rfl)
  have written := held.extend (solo_work (by simp [LockSystem.Op.ofNext])
    (.call env rfl rfl rfl (rejects_plain 2) rfl) rfl rfl)
  obtain ⟨site, works, _⟩ := network_refines written
  exact ⟨_, site, rfl, works⟩

end NaiveFileSystem.Yfs
