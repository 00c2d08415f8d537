import NaiveFileSystem.Lib.Transition
import NaiveFileSystem.Yfs.Frames
import NaiveFileSystem.Yfs.Tasks

/-!
# A site of clients

Threads of any number of clients run all operations, one call at a time, over one
server. A client keeps a lock until it is revoked; no thread has the lock then, the
extent is flushed, and only after that is the lock handed over. Which locks a
thread holds, and that their client owns them, is kept by every step.
-/

namespace NaiveFileSystem.Yfs

open Extent Cache Transition Program

/-- A thread at work: what is left of its task, and a create that is answered but not
recorded in the table yet. -/
structure Job (κ : Type) where
  client : κ
  task : Task
  rest : Action Unit
  recording : Option (Status × Inum)

/-- A lock that is `leaving` is being handed over, and its extent is flushed. -/
structure Site (κ ι σ : Type) where
  server : σ
  table : κ → Table
  owner : Inum → Option κ
  leaving : Inum → Bool
  holder : Inum → Option ι
  jobs : ι → Option (Job κ)

inductive Act (κ ι σ : Type)
  | start (t : ι) (client : κ) (task : Task)
  | finish (t : ι)
  | acquire (t : ι) (lid : Inum)
  | release (t : ι) (lid : Inum)
  | call (t : ι) (op : Op) (rpc : Rpc σ)
  | request (t : ι) (type : UInt32) (rpc : Rpc σ)
  | record (t : ι) (type : UInt32) (id : Inum)
  | leave (client : κ) (lid : Inum) (rpc : Rpc σ)
  | handOver (lid : Inum)

section System

variable {κ ι σ : Type} [DecidableEq κ] [DecidableEq ι]

def Site.after (site : Site κ ι σ) (client : κ) (result : Table × σ) : Site κ ι σ :=
  { site with table := Function.update site.table client result.1, server := result.2 }

def Site.set (site : Site κ ι σ) (t : ι) (job : Option (Job κ)) : Site κ ι σ :=
  { site with jobs := Function.update site.jobs t job }

/-- A call takes effect when the server answers. The client's mutex keeps its table from
its other threads until the answer is in it, so a `getattr` is one step; `create` takes
no mutex. -/
inductive Acts : Site κ ι σ → Act κ ι σ → Site κ ι σ → Prop
  | start {site t} (client : κ) (task : Task) (vars : Locals) : site.jobs t = none →
      Acts site (.start t client task) (site.set t (some ⟨client, task, task.body vars, none⟩))
  | finish {site t job} : site.jobs t = some job → job.rest = .done () →
      Acts site (.finish t) (site.set t none)
  | acquire {site t job lid next} : site.jobs t = some job →
      job.rest = .call (.acquire lid) next → site.holder lid = none → site.leaving lid = false →
      (site.owner lid = some job.client ∨ site.owner lid = none) →
      Acts site (.acquire t lid) (Site.set { site with
          owner := Function.update site.owner lid (some job.client)
          holder := Function.update site.holder lid (some t) } t
        (some { job with rest := next () }))
  | release {site t job lid next} : site.jobs t = some job →
      job.rest = .call (.release lid) next →
      Acts site (.release t lid)
        (Site.set { site with holder := Function.update site.holder lid none } t
          (some { job with rest := next () }))
  | call {site t job op next eid rpc result} (env : Ambient) : site.jobs t = some job →
      job.rest = .call op next → op.extent = some eid → Rejects rpc →
      handle rpc env op (site.table job.client, site.server) = result →
      Acts site (.call t op rpc)
        ((site.after job.client result.1).set t (some { job with rest := next result.2 }))
  | request {site t job type arg next rpc result} : site.jobs t = some job →
      job.rest = .call (.create type arg) next → job.recording = none →
      rpc.create site.server type = result →
      Acts site (.request t type rpc) (Site.set { site with server := result.1 } t
        (some { job with recording := some (result.2.1, result.2.2.getD arg) }))
  | record {site t job type arg next ret id} (env : Ambient) : site.jobs t = some job →
      job.rest = .call (.create type arg) next → job.recording = some (ret, id) →
      Acts site (.record t type id) (Site.set { site with
          table := Function.update site.table job.client
            (ExtentClientCache.recordCreated env type id (site.table job.client)) } t
        (some { job with rest := next (ret, id), recording := none }))
  | leave {site client lid rpc result ret} : site.owner lid = some client →
      site.holder lid = none → site.leaving lid = false → Rejects rpc →
      ExtentClientCache.flush rpc lid (site.table client) site.server = (result, ret) →
      Acts site (.leave client lid rpc) { site.after client result with
        leaving := Function.update site.leaving lid true }
  | handOver {site lid} : site.leaving lid = true →
      Acts site (.handOver lid) { site with
        owner := Function.update site.owner lid none
        leaving := Function.update site.leaving lid false }

end System

section Locks

variable {κ ι σ : Type}

structure Site.Fresh (site : Site κ ι σ) : Prop where
  table : ∀ client eid, site.table client eid = none
  owner : ∀ lid, site.owner lid = none
  leaving : ∀ lid, site.leaving lid = false
  holder : ∀ lid, site.holder lid = none
  jobs : ∀ t, site.jobs t = none

/-- A thread's guard is what is true of it, where only `known` extents exist. -/
structure Guards (known : Inum → Prop) (site : Site κ ι σ) (t : ι) (job : Job κ) (guard : Guard) :
    Prop where
  live : ∀ ino, guard.live ino → known ino
  locked : ∀ lid, guard.held = some lid → known lid
  held : ∀ lid, site.holder lid = some t ↔ guard.held = some lid
  rest : job.rest.wp guarded guard fun after _ => after.held = none

structure Locked (known : Inum → Prop) (site : Site κ ι σ) : Prop where
  jobs : ∀ t job, site.jobs t = some job → ∃ guard, Guards known site t job guard
  held : ∀ lid t, site.holder lid = some t → ∃ job, site.jobs t = some job ∧
    site.owner lid = some job.client ∧ site.leaving lid = false

variable {known known' : Inum → Prop} {site next : Site κ ι σ} {t : ι} {job : Job κ} {act : Act κ ι σ}

theorem Site.Fresh.locked (fresh : site.Fresh) : Locked known site where
  jobs t job here := by
    rw [fresh.jobs] at here
    cases here
  held lid t here := by
    rw [fresh.holder] at here
    cases here

theorem Guards.congr {guard : Guard} (guards : Guards known site t job guard)
    (more : ∀ ino, known ino → known' ino)
    (holder : ∀ lid, next.holder lid = some t ↔ site.holder lid = some t) :
    Guards known' next t job guard where
  live ino inside := more ino (guards.live ino inside)
  locked lid inside := more lid (guards.locked lid inside)
  held lid := (holder lid).trans (guards.held lid)
  rest := guards.rest

theorem Locked.congr (locked : Locked known site) (more : ∀ ino, known ino → known' ino)
    (holder : next.holder = site.holder) (jobs : next.jobs = site.jobs)
    (kept : ∀ lid t, site.holder lid = some t →
      next.owner lid = site.owner lid ∧ next.leaving lid = site.leaving lid) :
    Locked known' next where
  jobs t job here := by
    rw [jobs] at here
    obtain ⟨guard, guards⟩ := locked.jobs t job here
    exact ⟨guard, guards.congr more fun lid => by rw [holder]⟩
  held lid t here := by
    rw [holder] at here
    rw [jobs]
    obtain ⟨job, there, owner, stays⟩ := locked.held lid t here
    obtain ⟨owner', leaving'⟩ := kept lid t here
    exact ⟨job, there, owner'.trans owner, leaving'.trans stays⟩

/-- What a call finds under the lock that it needs. -/
structure Owned (known : Inum → Prop) (site : Site κ ι σ) (t : ι) (job : Job κ) (eid : Inum) :
    Prop where
  known : known eid
  holder : site.holder eid = some t
  owner : site.owner eid = some job.client
  stays : site.leaving eid = false

theorem Locked.owned (locked : Locked known site) (here : site.jobs t = some job) {eid : Inum}
    {guard : Guard} (guards : Guards known site t job guard) (held : guard.held = some eid) :
    Owned known site t job eid := by
  have taken := (guards.held eid).mpr held
  obtain ⟨job', there, owner, stays⟩ := locked.held eid t taken
  cases here.symm.trans there
  exact ⟨guards.locked eid held, taken, owner, stays⟩

/-- Contents are read, written and flushed under the lock. -/
theorem Locked.call_owned (locked : Locked known site) (here : site.jobs t = some job) {op : Op}
    {rest : op.Reply → Action Unit} (calls : job.rest = .call op rest) {eid : Inum} {buf : Bytes}
    (under : op = .get eid buf ∨ op = .put eid buf ∨ op = .flush eid) :
    Owned known site t job eid := by
  obtain ⟨guard, guards⟩ := locked.jobs t job here
  have needs := guards.rest
  rw [calls] at needs
  rcases under with rfl | rfl | rfl
  · exact locked.owned here guards needs.1
  · exact locked.owned here guards needs.1
  · exact locked.owned here guards needs.1

variable [DecidableEq ι]

theorem Locked.step (locked : Locked known site) (more : ∀ ino, known ino → known' ino)
    {slot : Option (Job κ)} (jobs : next.jobs = Function.update site.jobs t slot)
    (own : ∀ job, slot = some job → ∃ guard, Guards known' next t job guard)
    (others : ∀ u lid, u ≠ t → (next.holder lid = some u ↔ site.holder lid = some u))
    (mine : ∀ lid, next.holder lid = some t → ∃ job, slot = some job ∧
      next.owner lid = some job.client ∧ next.leaving lid = false)
    (kept : ∀ lid u, u ≠ t → site.holder lid = some u →
      next.owner lid = site.owner lid ∧ next.leaving lid = site.leaving lid) :
    Locked known' next where
  jobs u job here := by
    rw [jobs] at here
    by_cases same : u = t
    · subst same
      rw [Function.update_self] at here
      exact own job here
    · rw [Function.update_of_ne same] at here
      obtain ⟨guard, guards⟩ := locked.jobs u job here
      exact ⟨guard, guards.congr more fun lid => others u lid same⟩
  held lid u here := by
    rw [jobs]
    by_cases same : u = t
    · subst same
      obtain ⟨job, rfl, owner, stays⟩ := mine lid here
      exact ⟨job, Function.update_self _ _ _, owner, stays⟩
    · rw [Function.update_of_ne same]
      have before := (others u lid same).mp here
      obtain ⟨job, there, owner, stays⟩ := locked.held lid u before
      obtain ⟨owner', leaving'⟩ := kept lid u same before
      exact ⟨job, there, owner'.trans owner, leaving'.trans stays⟩

theorem Locked.advance (locked : Locked known site) (more : ∀ ino, known ino → known' ino)
    (here : site.jobs t = some job) {rest : Action Unit} {recording : Option (Status × Inum)}
    (jobs : next.jobs = Function.update site.jobs t
      (some { job with rest := rest, recording := recording }))
    (holder : next.holder = site.holder) (owner : next.owner = site.owner)
    (leaving : next.leaving = site.leaving)
    (goes : ∀ guard, Guards known site t job guard → ∃ after : Guard, after.held = guard.held ∧
      (∀ ino, after.live ino → known' ino) ∧ rest.wp guarded after fun after _ => after.held = none) :
    Locked known' next := by
  refine locked.step more jobs (fun job' same => ?_) (fun u lid _ => by rw [holder])
    (fun lid here' => ?_) fun lid u _ _ => ⟨by rw [owner], by rw [leaving]⟩
  · obtain ⟨guard, guards⟩ := locked.jobs t job here
    obtain ⟨after, held, live, wp⟩ := goes guard guards
    refine ⟨after, live, fun lid inside => more lid (guards.locked lid (held ▸ inside)),
      fun lid => ?_, ?_⟩
    · rw [holder, held]
      exact guards.held lid
    · rw [← Option.some.inj same]
      exact wp
  · rw [holder] at here'
    obtain ⟨job', there, owns, stays⟩ := locked.held lid t here'
    cases here.symm.trans there
    exact ⟨_, rfl, by rw [owner, owns], by rw [leaving, stays]⟩

theorem Locked.start (locked : Locked known site) {client : κ} {task : Task} (vars : Locals)
    (free : site.jobs t = none) (live : known task.inum) :
    Locked known (site.set t (some ⟨client, task, task.body vars, none⟩)) := by
  have idle : ∀ lid, site.holder lid ≠ some t := by
    intro lid here
    obtain ⟨job, there, _⟩ := locked.held lid t here
    cases free.symm.trans there
  refine locked.step (fun _ => id) rfl (fun job same => ?_) (fun _ _ _ => Iff.rfl)
    (fun lid here => absurd here (idle lid)) fun _ _ _ _ => ⟨rfl, rfl⟩
  rw [← Option.some.inj same]
  refine ⟨⟨fun ino => ino = task.inum, none⟩, fun ino inside => ?_, fun lid none => ?_,
    fun lid => ?_, guarded_task vars task rfl⟩
  · rw [inside]
    exact live
  · cases none
  · exact iff_of_false (idle lid) (by simp)

theorem Locked.finish (locked : Locked known site) (here : site.jobs t = some job)
    (done : job.rest = .done ()) : Locked known (site.set t none) := by
  obtain ⟨guard, guards⟩ := locked.jobs t job here
  have ended := guards.rest
  rw [done] at ended
  have unlocked : guard.held = none := ended
  have idle : ∀ lid, site.holder lid ≠ some t := by
    intro lid held
    have mine := (guards.held lid).mp held
    rw [unlocked] at mine
    cases mine
  exact locked.step (fun _ => id) rfl (fun job none => by cases none) (fun _ _ _ => Iff.rfl)
    (fun lid held => absurd held (idle lid)) fun _ _ _ _ => ⟨rfl, rfl⟩

theorem Locked.acquire (locked : Locked known site) (here : site.jobs t = some job) {lid : Inum}
    {rest : Unit → Action Unit} (calls : job.rest = .call (.acquire lid) rest)
    (free : site.holder lid = none) (stays : site.leaving lid = false) :
    Locked known (Site.set { site with
        owner := Function.update site.owner lid (some job.client)
        holder := Function.update site.holder lid (some t) } t
      (some { job with rest := rest () })) := by
  obtain ⟨guard, live, _, held, needs⟩ := locked.jobs t job here
  rw [calls] at needs
  obtain ⟨exists_, unlocked, after⟩ := needs
  have others : ∀ other u, site.holder other = some u → other ≠ lid := by
    rintro other u taken rfl
    cases free.symm.trans taken
  have idle : ∀ other, site.holder other ≠ some t := by
    intro other taken
    have mine := (held other).mp taken
    rw [unlocked] at mine
    cases mine
  refine locked.step (fun _ => id) rfl (fun job' same => ?_) (fun u other different => ?_)
    (fun other taken => ?_) fun other u _ taken => ?_
  · rw [← Option.some.inj same]
    refine ⟨{ guard with held := some lid }, live, fun other mine => ?_, fun other => ?_, after⟩
    · rw [← Option.some.inj mine]
      exact live lid exists_
    · by_cases same : other = lid
      · simp [Site.set, same]
      · simp [Site.set, same, idle other, Ne.symm same]
  · by_cases same : other = lid
    · simp [Site.set, same, free, different.symm]
    · simp [Site.set, same]
  · by_cases same : other = lid
    · subst same
      exact ⟨_, rfl, Function.update_self _ _ _, stays⟩
    · have before : site.holder other = some t := by simpa [Site.set, same] using taken
      exact absurd before (idle other)
  · exact ⟨Function.update_of_ne (others other u taken) _ _, rfl⟩

theorem Locked.release (locked : Locked known site) (here : site.jobs t = some job) {lid : Inum}
    {rest : Unit → Action Unit} (calls : job.rest = .call (.release lid) rest) :
    Locked known (Site.set { site with holder := Function.update site.holder lid none } t
      (some { job with rest := rest () })) := by
  obtain ⟨guard, live, _, held, needs⟩ := locked.jobs t job here
  rw [calls] at needs
  obtain ⟨mine, after⟩ := needs
  have freed : ∀ other, Function.update site.holder lid none other ≠ some t := by
    intro other taken
    by_cases same : other = lid
    · simp [same] at taken
    · rw [Function.update_of_ne same] at taken
      exact same (Option.some.inj (((held other).mp taken).symm.trans mine))
  refine locked.step (fun _ => id) rfl (fun job' same => ?_) (fun u other different => ?_)
    (fun other taken => absurd taken (freed other)) fun _ _ _ _ => ⟨rfl, rfl⟩
  · rw [← Option.some.inj same]
    exact ⟨{ guard with held := none }, live, fun other none => (by cases none),
      fun other => iff_of_false (freed other) (by simp), after⟩
  · by_cases same : other = lid
    · have taken : site.holder lid = some t := (held lid).mpr mine
      simp [Site.set, same, taken, different.symm]
    · simp [Site.set, same]

variable [DecidableEq κ]

theorem Locked.kept (locked : Locked known site) (more : ∀ ino, known ino → known' ino)
    (start : ∀ t client task, act = .start t client task → known task.inum)
    (made : ∀ t type id, act = .record t type id → known' id) (acts : Acts site act next) :
    Locked known' next := by
  have widened : ∀ {site : Site κ ι σ}, Locked known site → Locked known' site :=
    fun locked => locked.congr more rfl rfl fun _ _ _ => ⟨rfl, rfl⟩
  cases acts with
  | start client task vars free => exact widened (locked.start vars free (start _ _ _ rfl))
  | finish here done => exact widened (locked.finish here done)
  | acquire here calls free stays owner => exact widened (locked.acquire here calls free stays)
  | release here calls => exact widened (locked.release here calls)
  | @call t job op rest eid rpc result env here calls extent rejects ran =>
    refine locked.advance more here rfl rfl rfl rfl fun guard guards => ?_
    have needs := guards.rest
    rw [calls] at needs
    refine ⟨guard, rfl, fun ino inside => more ino (guards.live ino inside), ?_⟩
    cases op with
    | get eid buf | put eid buf | flush eid => exact needs.2 _
    | getattr eid attr | remove eid => exact needs _
    | create type id | acquire lid | release lid => cases extent
  | request here calls free ran =>
    refine locked.advance more here rfl rfl rfl rfl fun guard guards => ?_
    exact ⟨guard, rfl, fun ino inside => more ino (guards.live ino inside), guards.rest⟩
  | @record t job type arg rest ret id env here calls recording =>
    refine locked.advance more here rfl rfl rfl rfl fun guard guards => ?_
    have needs := guards.rest
    rw [calls] at needs
    refine ⟨{ guard with live := fun ino => guard.live ino ∨ ino = id }, rfl, ?_, needs.2 (ret, id)⟩
    rintro ino (old | rfl)
    · exact more ino (guards.live ino old)
    · exact made _ _ _ rfl
  | leave owner free stays rejects ran =>
    refine locked.congr more rfl rfl fun lid t held => ⟨rfl, Function.update_of_ne ?_ _ _⟩
    rintro rfl
    cases free.symm.trans held
  | handOver leaves =>
    refine locked.congr more rfl rfl fun lid t held => ?_
    obtain ⟨job, _, _, stays⟩ := locked.held lid t held
    have different : lid ≠ _ := fun same => by
      rw [same, leaves] at stays
      cases stays
    exact ⟨Function.update_of_ne different _ _, Function.update_of_ne different _ _⟩

end Locks

end NaiveFileSystem.Yfs
