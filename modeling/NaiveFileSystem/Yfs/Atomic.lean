import NaiveFileSystem.Yfs.Deployed
import NaiveFileSystem.Yfs.Sections

/-!
# Atomic sections

A store in which each section of a task happens at once, where its lock is given
back. A site with its threads, locks and caches refines it, and so does the whole
system over the disk: no section sees half of another one, and none is lost.
-/

namespace NaiveFileSystem.Yfs

open Extent Cache Transition Program
open LockSystem (ClientId)

/-- A task with the inodes that it has made and the number of its sections that have ended. -/
structure Work where
  task : Task
  made : List Inum
  ended : ℕ

/-- The bytes of each extent that was made, the extents that were removed, and what the
threads are at. -/
structure Files (ι : Type) where
  contents : Inum → Option Bytes
  gone : Inum → Bool
  works : ι → Option Work

inductive Atom (ι : Type)
  | start (t : ι) (task : Task)
  | finish (t : ι)
  | make (t : ι) (id : Inum)
  | commit (t : ι) (eid : Inum)
  | remove (t : ι) (eid : Inum)

def Act.atom {κ ι σ : Type} : Act κ ι σ → Option (Atom ι)
  | .start t _ task => some (.start t task)
  | .finish t => some (.finish t)
  | .record t _ id => some (.make t id)
  | .release t lid => some (.commit t lid)
  | .call t (.remove eid) _ => some (.remove t eid)
  | _ => none

theorem Act.Alike.atom {κ ι σ τ : Type} {act : Act κ ι σ} {other : Act κ ι τ}
    (alike : act.Alike other) : other.atom = act.atom := by
  cases act with
  | call t op rpc =>
    obtain ⟨rpc', rfl⟩ := alike
    cases op with
    | create | get | getattr | put | remove | flush | acquire | release => rfl
  | request t type rpc | leave client lid rpc =>
    obtain ⟨rpc', rfl⟩ := alike
    rfl
  | start | finish | acquire | release | record | handOver =>
    cases alike
    rfl

section Store

variable {ι : Type} [DecidableEq ι]

def Files.set (files : Files ι) (t : ι) (work : Option Work) : Files ι :=
  { files with works := Function.update files.works t work }

@[simp] theorem Files.set_contents (files : Files ι) (t : ι) (work : Option Work) :
    (files.set t work).contents = files.contents := rfl

/-- Nothing is said of the bytes of an extent that is gone. -/
inductive Atoms : Files ι → Atom ι → Files ι → Prop
  | start {files t task} : files.works t = none → files.contents task.inum ≠ none →
      Atoms files (.start t task) (files.set t (some ⟨task, [], 0⟩))
  | finish {files t work} : files.works t = some work → work.ended = work.task.sections →
      Atoms files (.finish t) (files.set t none)
  | make {files t work id} : files.works t = some work →
      (files.gone id = false → files.contents id = none) →
      Atoms files (.make t id) (Files.set { files with
        contents := Function.update files.contents id (some []) } t
          (some { work with made := id :: work.made }))
  | commit {files t work eid before now} : files.works t = some work →
      files.contents eid = some before →
      (files.gone eid = false → work.task.Effect work.made work.ended eid before now) →
      Atoms files (.commit t eid) (Files.set { files with
        contents := Function.update files.contents eid (some now) } t
          (some { work with ended := work.ended + 1 }))
  | remove {files t work eid text} : files.works t = some work →
      files.contents work.task.inum = some text →
      (files.gone work.task.inum = false → work.task.Removes text eid) →
      Atoms files (.remove t eid) { files with gone := Function.update files.gone eid true }

/-- A store with an empty root. -/
def atomic : System (Files ι) (Atom ι) where
  init files := files = ⟨Ledger.initial.latest, Ledger.initial.gone, fun _ => none⟩
  step := Atoms

end Store

section Invariant

variable {κ ι : Type}

structure Tracks (site : Site κ ι Contents) (history : History κ ι) (files : Files ι) (t : ι)
    (job : Job κ) (track : Track) : Prop where
  works : files.works t = some ⟨job.task, track.made, track.ended⟩
  extent : ∀ lid, site.holder lid = some t ↔ track.hold.extent = some lid
  lost : ∀ lid, track.hold = .lost lid → history.gone lid = true
  held : ∀ lid before now, track.hold = .held lid before now → history.gone lid = false →
    files.contents lid = some before ∧ history.latest lid = some now
  rest : job.rest.wp (sectioned job.task) track fun after _ => job.task.Ends after

/-- The store has what was put last on every extent whose lock no thread holds. -/
structure Committed (site : Site κ ι Contents) (history : History κ ι) (files : Files ι) : Prop where
  gone : files.gone = history.gone
  made : ∀ eid, files.contents eid = none ↔ history.latest eid = none
  free : ∀ eid, site.holder eid = none → history.gone eid = false →
    files.contents eid = history.latest eid
  idle : ∀ t, site.jobs t = none → files.works t = none
  jobs : ∀ t job, site.jobs t = some job → ∃ track, Tracks site history files t job track

variable {site next : Site κ ι Contents} {history history' : History κ ι} {files files' : Files ι}
  {t u : ι} {job : Job κ} {track : Track}

theorem Tracks.congr (tracks : Tracks site history files u job track)
    (works : files'.works u = files.works u)
    (holder : ∀ lid, next.holder lid = some u ↔ site.holder lid = some u)
    (gone : ∀ lid, history.gone lid = true → history'.gone lid = true)
    (same : ∀ lid, site.holder lid = some u → history'.gone lid = false →
      files'.contents lid = files.contents lid ∧ history'.latest lid = history.latest lid) :
    Tracks next history' files' u job track where
  works := works.trans tracks.works
  extent lid := (holder lid).trans (tracks.extent lid)
  lost lid lost := gone lid (tracks.lost lid lost)
  held lid before now hold kept := by
    have mine := (tracks.extent lid).mpr (Hold.extent_held hold)
    have still : history.gone lid = false := by
      cases earlier : history.gone lid with
      | false => rfl
      | true => exact (gone lid earlier).symm.trans kept
    obtain ⟨contents, latest⟩ := same lid mine kept
    rw [contents, latest]
    exact tracks.held lid before now hold still
  rest := tracks.rest

theorem Tracks.holding (tracks : Tracks site history files t job track) {lid : Inum}
    (extent : track.hold.extent = some lid) (kept : history.gone lid = false) :
    ∃ before now, track.hold = .held lid before now ∧ files.contents lid = some before ∧
      history.latest lid = some now := by
  cases hold : track.hold with
  | free =>
    rw [hold] at extent
    cases extent
  | lost eid =>
    rw [hold] at extent
    cases extent
    cases kept.symm.trans (tracks.lost _ hold)
  | held eid before now =>
    rw [hold] at extent
    cases extent
    exact ⟨before, now, rfl, tracks.held _ before now hold kept⟩

theorem Committed.quiet (committed : Committed site history files) (jobs : next.jobs = site.jobs)
    (holder : next.holder = site.holder) (latest : history'.latest = history.latest)
    (gone : history'.gone = history.gone) : Committed next history' files where
  gone := committed.gone.trans gone.symm
  made := by
    rw [latest]
    exact committed.made
  free := by
    rw [holder, latest, gone]
    exact committed.free
  idle := by
    rw [jobs]
    exact committed.idle
  jobs t job here := by
    rw [jobs] at here
    obtain ⟨track, tracks⟩ := committed.jobs t job here
    exact ⟨track, tracks.congr rfl (fun lid => by rw [holder]) (fun lid => by rw [gone]; exact id)
      fun lid _ _ => ⟨rfl, by rw [latest]⟩⟩

theorem Committed.under (committed : Committed site history files)
    (joined : Joined site history) (here : site.jobs t = some job)
    (tracks : Tracks site history files t job track) {eid : Inum}
    (extent : track.hold.extent = some eid) :
    site.holder eid = some t ∧ site.owner eid = some job.client ∧
      ∃ data before, history.latest eid = some data ∧ files.contents eid = some before := by
  have holder := (tracks.extent eid).mpr extent
  obtain ⟨job', there, owner, _⟩ := joined.locked.held eid t holder
  cases here.symm.trans there
  obtain ⟨guard, guards⟩ := joined.locked.jobs t job here
  have known := guards.locked eid ((guards.held eid).mp holder)
  obtain ⟨data, latest⟩ := Option.ne_none_iff_exists'.mp known
  obtain ⟨before, contents⟩ := Option.ne_none_iff_exists'.mp (mt (committed.made eid).mp known)
  exact ⟨holder, owner, data, before, latest, contents⟩

theorem Tracks.called (tracks : Tracks site history files t job track) {op : Op}
    {rest : op.Reply → Action Unit} (calls : job.rest = .call op rest) :
    sectioned job.task op track fun after reply =>
      (rest reply).wp (sectioned job.task) after fun after _ => job.task.Ends after := by
  have needs := tracks.rest
  rw [calls] at needs
  exact needs

/-- What a section gets are its own bytes, unless the extent is gone. -/
theorem Committed.got (committed : Committed site history files) (joined : Joined site history)
    (here : site.jobs t = some job) (tracks : Tracks site history files t job track)
    {rpc : Rpc Contents} (steady : Steady rpc) (env : Ambient) (eid : Inum) (buf : Bytes)
    (extent : track.hold.extent = some eid) {lid : Inum}
    (lost : track.hold.got (ExtentClientCache.get rpc env eid buf (site.table job.client)
      site.server).2 = .lost lid) : track.hold = .lost lid ∨ history.gone lid = true := by
  cases hold : track.hold with
  | free =>
    rw [hold] at extent
    cases extent
  | lost eid' =>
    rw [hold] at lost
    exact .inl lost
  | held eid' before now =>
    rw [hold] at lost extent
    cases extent
    cases kept : history.gone eid with
    | true =>
      right
      have same := congrArg Hold.extent lost
      rw [Hold.extent_got] at same
      cases same
      exact kept
    | false =>
      have latest := (tracks.held eid before now hold kept).2
      have owner := (committed.under joined here tracks (by rw [hold]; rfl)).2.1
      have reads := (joined.coherent eid kept).owner_reads owner latest
      obtain ⟨entry, ran, _⟩ := ExtentClientCache.get_ok steady.toFaithful env buf reads
      rw [show ExtentClientCache.get rpc env eid buf (site.table job.client) site.server = _ from ran,
        Hold.got, if_pos rfl] at lost
      cases lost

theorem Committed.init (fresh : site.Fresh) (begins : history = .initial site.server)
    (root : site.server = fun eid => Store.initial eid.toNat) :
    Committed site history ⟨Ledger.initial.latest, Ledger.initial.gone, fun _ => none⟩ := by
  have latest : history.latest = Ledger.initial.latest := by
    rw [begins, root]
    exact initial_latest
  refine ⟨by rw [begins]; rfl, fun eid => by rw [latest], fun eid _ _ => by rw [latest],
    fun _ _ => rfl, fun t job here => ?_⟩
  rw [fresh.jobs] at here
  cases here

variable [DecidableEq ι]

theorem Committed.step (committed : Committed site history files) {slot : Option (Job κ)}
    (jobs : next.jobs = Function.update site.jobs t slot) (gone : files'.gone = history'.gone)
    (more : ∀ lid, history.gone lid = true → history'.gone lid = true)
    (made : ∀ eid, files'.contents eid = none ↔ history'.latest eid = none)
    (free : ∀ eid, next.holder eid = none → history'.gone eid = false →
      files'.contents eid = history'.latest eid)
    (ends : slot = none → files'.works t = none)
    (own : ∀ job, slot = some job → ∃ track, Tracks next history' files' t job track)
    (works : ∀ u, u ≠ t → files'.works u = files.works u)
    (holder : ∀ u lid, u ≠ t → (next.holder lid = some u ↔ site.holder lid = some u))
    (same : ∀ u lid, u ≠ t → site.holder lid = some u → history'.gone lid = false →
      files'.contents lid = files.contents lid ∧ history'.latest lid = history.latest lid) :
    Committed next history' files' where
  gone := gone
  made := made
  free := free
  idle u here := by
    rw [jobs] at here
    by_cases mine : u = t
    · subst mine
      rw [Function.update_self] at here
      exact ends here
    · rw [Function.update_of_ne mine] at here
      exact (works u mine).trans (committed.idle u here)
  jobs u job here := by
    rw [jobs] at here
    by_cases mine : u = t
    · subst mine
      rw [Function.update_self] at here
      exact own job here
    · rw [Function.update_of_ne mine] at here
      obtain ⟨track, tracks⟩ := committed.jobs u job here
      exact ⟨track, tracks.congr (works u mine) (fun lid => holder u lid mine) more
        fun lid => same u lid mine⟩

theorem Committed.goes (committed : Committed site history files) (here : site.jobs t = some job)
    {rest : Action Unit} {recording : Option (Status × Inum)}
    (jobs : next.jobs = Function.update site.jobs t
      (some { job with rest := rest, recording := recording }))
    (holder : next.holder = site.holder) (latest : history'.latest = history.latest)
    (gone : history'.gone = history.gone)
    (hold : ∀ track, Tracks site history files t job track → ∃ after : Hold,
      after.extent = track.hold.extent ∧
      (∀ lid, after = .lost lid → track.hold = .lost lid ∨ history.gone lid = true) ∧
      (∀ lid before now, after = .held lid before now → track.hold = .held lid before now) ∧
      rest.wp (sectioned job.task) ⟨after, track.made, track.ended⟩ fun after _ => job.task.Ends after) :
    Committed next history' files := by
  refine committed.step jobs (committed.gone.trans gone.symm) (fun lid => by rw [gone]; exact id)
    (by rw [latest]; exact committed.made) (by rw [holder, latest, gone]; exact committed.free)
    (fun none => by cases none) (fun job' same => ?_) (fun _ _ => rfl) (fun _ lid _ => by rw [holder])
    fun _ lid _ _ _ => ⟨rfl, by rw [latest]⟩
  obtain ⟨track, tracks⟩ := committed.jobs t job here
  obtain ⟨after, extent, lost, held, goes⟩ := hold track tracks
  rw [← Option.some.inj same]
  refine ⟨⟨after, track.made, track.ended⟩, tracks.works, fun lid => ?_, fun lid same => ?_,
    fun lid before now same => ?_, goes⟩
  · rw [holder, extent]
    exact tracks.extent lid
  · rw [gone]
    exact (lost lid same).elim (tracks.lost lid) id
  · rw [gone, latest]
    exact tracks.held lid before now (held lid before now same)

theorem Committed.acquire (committed : Committed site history files) (joined : Joined site history)
    (here : site.jobs t = some job) {lid : Inum} {rest : Unit → Action Unit}
    (calls : job.rest = .call (.acquire lid) rest) (free : site.holder lid = none) :
    Committed (Site.set { site with
        owner := Function.update site.owner lid (some job.client)
        holder := Function.update site.holder lid (some t) } t
      (some { job with rest := rest () })) history files := by
  obtain ⟨track, tracks⟩ := committed.jobs t job here
  obtain ⟨unlocked, after⟩ := tracks.called calls
  obtain ⟨guard, guards⟩ := joined.locked.jobs t job here
  have needs := guards.rest
  rw [calls] at needs
  obtain ⟨data, latest⟩ := Option.ne_none_iff_exists'.mp (guards.live lid needs.1)
  have idle : ∀ other, site.holder other ≠ some t := by
    intro other held
    have mine := (tracks.extent other).mp held
    rw [unlocked] at mine
    cases mine
  have others : ∀ u other, u ≠ t →
      (Function.update site.holder lid (some t) other = some u ↔ site.holder other = some u) := by
    intro u other different
    by_cases same : other = lid
    · simp [same, free, Ne.symm different]
    · simp [same]
  refine committed.step rfl committed.gone (fun _ => id) committed.made (fun other unheld kept => ?_)
    (fun none => by cases none) (fun job' same => ?_) (fun _ _ => rfl) others
    fun _ _ _ _ _ => ⟨rfl, rfl⟩
  · refine committed.free other ?_ kept
    have different : other ≠ lid := by
      rintro rfl
      simp [Site.set] at unheld
    exact (Function.update_of_ne different _ _).symm.trans unheld
  · rw [← Option.some.inj same]
    refine ⟨⟨.held lid data data, track.made, track.ended⟩, tracks.works, fun other => ?_, fun other lost => ?_,
      fun other before now held kept => ?_, after data⟩
    · by_cases same : other = lid
      · simp [Site.set, Hold.extent, same]
      · simp [Site.set, Hold.extent, same, idle other, Ne.symm same]
    · cases lost
    · cases held
      exact ⟨(committed.free _ free kept).trans latest, latest⟩

theorem Committed.release (committed : Committed site history files) (joined : Joined site history)
    (here : site.jobs t = some job) {lid : Inum} {rest : Unit → Action Unit}
    (calls : job.rest = .call (.release lid) rest) :
    ∃ files', Atoms files (.commit t lid) files' ∧
      Committed (Site.set { site with holder := Function.update site.holder lid none } t
        (some { job with rest := rest () })) history files' := by
  obtain ⟨track, tracks⟩ := committed.jobs t job here
  obtain ⟨extent, effect, after⟩ := tracks.called calls
  obtain ⟨holder, _, data, before, latest, contents⟩ := committed.under joined here tracks extent
  have apart : ∀ {u other}, site.holder other = some u → u ≠ t → other ≠ lid := by
    rintro u other held different rfl
    exact different (Option.some.inj (held.symm.trans holder))
  have effects : files.gone lid = false → job.task.Effect track.made track.ended lid before data := by
    rw [committed.gone]
    intro kept
    obtain ⟨first, now, hold, began, ends⟩ := tracks.holding extent kept
    cases contents.symm.trans began
    cases latest.symm.trans ends
    exact effect _ _ hold
  refine ⟨_, .commit tracks.works contents effects, ?_⟩
  · have others : ∀ u other, u ≠ t →
        (Function.update site.holder lid none other = some u ↔ site.holder other = some u) := by
      intro u other different
      by_cases same : other = lid
      · subst same
        simp [holder, Ne.symm different]
      · simp [same]
    refine committed.step rfl committed.gone (fun _ => id) (fun other => ?_)
      (fun other unheld kept => ?_) (fun none => by cases none) (fun job' same => ?_)
      (fun u different => Function.update_of_ne different _ _) others
      fun u other different held _ => ⟨Function.update_of_ne (apart held different) _ _, rfl⟩
    · by_cases same : other = lid
      · simp [same, latest]
      · simpa [same] using committed.made other
    · by_cases same : other = lid
      · simp [same, latest]
      · refine (Function.update_of_ne same _ _).trans (committed.free other ?_ kept)
        exact (Function.update_of_ne same _ _).symm.trans unheld
    · rw [← Option.some.inj same]
      refine ⟨⟨.free, track.made, track.ended + 1⟩, Function.update_self _ _ _, fun other => ?_, fun other lost => (by cases lost),
        fun other before now held => (by cases held), after⟩
      by_cases same : other = lid
      · simp [Site.set, Hold.extent, same]
      · have mine : site.holder other ≠ some t := by
          intro held
          rw [(tracks.extent other).mp held] at extent
          exact same (Option.some.inj extent)
        simp [Site.set, Hold.extent, same, mine]

theorem Committed.record (committed : Committed site history files) (joined : Joined site history)
    (here : site.jobs t = some job) {type : UInt32} {arg id : Inum} {ret : Status}
    {rest : Status × ExtentId → Action Unit} (calls : job.rest = .call (.create type arg) rest)
    (records : job.recording = some (ret, id)) (table : κ → Table) :
    ∃ files', Atoms files (.make t id) files' ∧
      Committed (Site.set { site with table := table } t
        (some { job with rest := rest (ret, id), recording := none })) { history with
          latest := Function.update history.latest id (some [])
          pending := Function.update history.pending id none } files' := by
  obtain ⟨track, tracks⟩ := committed.jobs t job here
  have after := tracks.called calls
  -- Nobody holds the lock of an inode that is not recorded.
  have unknown : history.gone id = false → history.latest id = none := by
    intro kept
    obtain ⟨_, _, _, type, _, _, _, pending⟩ := joined.recording t job ret id here records
    exact ((joined.coherent id kept).pending _ _ pending).2
  have apart : ∀ {lid u}, site.holder lid = some u → history.gone lid = false → lid ≠ id := by
    rintro lid u held kept rfl
    obtain ⟨job', there, _⟩ := joined.locked.held lid u held
    obtain ⟨guard, guards⟩ := joined.locked.jobs u job' there
    exact guards.locked lid ((guards.held lid).mp held) (unknown kept)
  refine ⟨_, .make tracks.works fun kept => ?_, ?_⟩
  · rw [committed.gone] at kept
    exact (committed.made id).mpr (unknown kept)
  · refine committed.step rfl committed.gone (fun _ gone => gone) (fun other => ?_)
      (fun other unheld kept => ?_) (fun none => by cases none) (fun job' same => ?_)
      (fun u different => Function.update_of_ne different _ _) (fun _ _ _ => Iff.rfl)
      fun u other _ held kept => ⟨Function.update_of_ne (apart held kept) _ _,
        Function.update_of_ne (apart held kept) _ _⟩
    · by_cases same : other = id
      · simp [same]
      · simpa [same] using committed.made other
    · by_cases same : other = id
      · simp [same]
      · simpa [same] using committed.free other unheld kept
    · rw [← Option.some.inj same]
      refine ⟨⟨track.hold, id :: track.made, track.ended⟩, Function.update_self _ _ _, tracks.extent, tracks.lost,
        fun other before now held kept => ?_, after (ret, id)⟩
      have different := apart ((tracks.extent other).mpr (Hold.extent_held held)) kept
      obtain ⟨began, ends⟩ := tracks.held other before now held kept
      exact ⟨(Function.update_of_ne different _ _).trans began,
        (Function.update_of_ne different _ _).trans ends⟩

theorem Committed.turn (committed : Committed site history files) {slot : Option (Job κ)}
    {work : Option Work} (ends : slot = none → work = none)
    (own : ∀ job, slot = some job →
      ∃ track, Tracks (site.set t slot) history (files.set t work) t job track) :
    Committed (site.set t slot) history (files.set t work) := by
  refine committed.step rfl committed.gone (fun _ gone => gone) committed.made committed.free
    (fun none => ?_) own (fun u different => Function.update_of_ne different _ _)
    (fun _ _ _ => Iff.rfl) fun _ _ _ _ _ => ⟨rfl, rfl⟩
  exact (Function.update_self _ _ _).trans (ends none)

theorem Committed.start (committed : Committed site history files) (joined : Joined site history)
    {task : Task} (client : κ) (vars : Locals) (free : site.jobs t = none)
    (known : history.latest task.inum ≠ none) : ∃ files', atomic.Moves files (some (.start t task)) files' ∧
      Committed (site.set t (some ⟨client, task, task.body vars, none⟩)) history files' := by
  have idle : ∀ lid, site.holder lid ≠ some t := by
    intro lid held
    obtain ⟨job, there, _⟩ := joined.locked.held lid t held
    cases free.symm.trans there
  refine ⟨_, .steps (.start (committed.idle t free) (mt (committed.made _).mp known)),
    committed.turn (fun none => by cases none) fun job same => ?_⟩
  rw [← Option.some.inj same]
  exact ⟨⟨.free, [], 0⟩, Function.update_self _ _ _, fun lid => iff_of_false (idle lid) (by simp [Hold.extent]),
    fun lid lost => (by cases lost), fun lid before now held => (by cases held),
    sectioned_task vars task⟩

theorem Committed.finish (committed : Committed site history files) (here : site.jobs t = some job)
    (done : job.rest = .done ()) :
    ∃ files', atomic.Moves files (some (.finish t)) files' ∧
      Committed (site.set t none) history files' := by
  obtain ⟨track, tracks⟩ := committed.jobs t job here
  have ends := tracks.rest
  rw [done] at ends
  exact ⟨_, .steps (.finish tracks.works ends.2), committed.turn (fun _ => rfl) fun job none => by cases none⟩

variable [DecidableEq κ]

theorem Committed.put (committed : Committed site history files) (joined : Joined site history)
    (here : site.jobs t = some job) {eid : Inum} {buf : Bytes} {rest : Status → Action Unit}
    (calls : job.rest = .call (.put eid buf) rest) (result : Table × Contents) (reply : Status) :
    Committed ((site.after job.client result).set t (some { job with rest := rest reply }))
      { history.use eid true with latest := Function.update history.latest eid (some buf) } files := by
  obtain ⟨track, tracks⟩ := committed.jobs t job here
  obtain ⟨extent, after⟩ := tracks.called calls
  obtain ⟨holder, _, data, before, latest, contents⟩ := committed.under joined here tracks extent
  have apart : ∀ {u lid}, site.holder lid = u → u ≠ some t → lid ≠ eid := by
    rintro u lid held different rfl
    exact different (held.symm.trans holder)
  refine committed.step rfl committed.gone (fun _ => id) (fun lid => ?_) (fun lid free kept => ?_)
    (fun none => by cases none) (fun job' same => ?_) (fun _ _ => rfl) (fun _ _ _ => Iff.rfl)
    fun u lid other held _ => ⟨rfl, Function.update_of_ne (apart held (by simpa using other)) _ _⟩
  · by_cases same : lid = eid
    · simp [same, contents]
    · simpa [same] using committed.made lid
  · exact (committed.free lid free kept).trans
      (Function.update_of_ne (apart free (by simp)) _ _).symm
  · rw [← Option.some.inj same]
    refine ⟨⟨track.hold.put buf, track.made, track.ended⟩, tracks.works, fun lid => ?_, fun lid lost => ?_,
      fun lid first now held kept => ?_, after reply⟩
    · rw [Hold.extent_put]
      exact tracks.extent lid
    · cases hold : track.hold with
      | free | held => simp [hold, Hold.put] at lost
      | lost eid' =>
        rw [hold] at lost
        exact tracks.lost lid (hold.trans lost)
    · obtain ⟨rfl, old, held⟩ := Hold.put_eq_held.mp held
      rw [Hold.extent_held held] at extent
      cases extent
      exact ⟨(tracks.held _ first old held kept).1, Function.update_self _ _ _⟩

theorem Committed.remove (committed : Committed site history files) (joined : Joined site history)
    (here : site.jobs t = some job) {eid : Inum} {rest : Status → Action Unit}
    (calls : job.rest = .call (.remove eid) rest) (result : Table × Contents) (reply : Status) :
    ∃ files', Atoms files (.remove t eid) files' ∧
      Committed ((site.after job.client result).set t (some { job with rest := rest reply }))
        { history with gone := Function.update history.gone eid true } files' := by
  obtain ⟨track, tracks⟩ := committed.jobs t job here
  obtain ⟨extent, removes, after⟩ := tracks.called calls
  obtain ⟨_, _, data, text, latest, contents⟩ := committed.under joined here tracks extent
  have earlier : ∀ {lid}, Function.update history.gone eid true lid = false →
      history.gone lid = false := by
    intro lid kept
    by_cases same : lid = eid
    · simp [same] at kept
    · rwa [Function.update_of_ne same] at kept
  have more : ∀ lid, history.gone lid = true → Function.update history.gone eid true lid = true := by
    intro lid gone
    by_cases same : lid = eid
    · simp [same]
    · rwa [Function.update_of_ne same]
  refine ⟨_, .remove tracks.works contents fun kept => ?_, ?_⟩
  · rw [committed.gone] at kept
    obtain ⟨before, now, hold, began, _⟩ := tracks.holding extent kept
    cases contents.symm.trans began
    exact removes _ now hold
  · refine committed.step rfl (by rw [committed.gone]) more committed.made
      (fun lid free kept => committed.free lid free (earlier kept)) (fun none => by cases none)
      (fun job' same => ?_) (fun _ _ => rfl) (fun _ _ _ => Iff.rfl) fun _ _ _ _ _ => ⟨rfl, rfl⟩
    rw [← Option.some.inj same]
    exact ⟨track, tracks.works, tracks.extent, fun lid lost => more lid (tracks.lost lid lost),
      fun lid before now held kept => tracks.held lid before now held (earlier kept), after reply⟩

theorem Committed.call (committed : Committed site history files) (joined : Joined site history)
    {rpc : Rpc Contents} (steady : Steady rpc) (env : Ambient) (here : site.jobs t = some job)
    {op : Op} {rest : op.Reply → Action Unit} (calls : job.rest = .call op rest) {eid : Inum}
    (extent : op.extent = some eid) : ∃ files',
      atomic.Moves files (Act.call (κ := κ) t op rpc).atom files' ∧
        Committed ((site.after job.client
          (handle rpc env op (site.table job.client, site.server)).1).set t (some { job with
            rest := rest (handle rpc env op (site.table job.client, site.server)).2 }))
          (history.after site (.call t op rpc)) files' := by
  cases op with
  | get id buf =>
    refine ⟨files, .stays, committed.goes here rfl rfl rfl rfl fun track tracks => ?_⟩
    obtain ⟨held, after⟩ := tracks.called calls
    exact ⟨_, Hold.extent_got, fun lid lost => committed.got joined here tracks steady env id buf held lost,
      fun lid before now same => (Hold.got_eq_held.mp same).1, after _⟩
  | getattr id attr | flush id =>
    refine ⟨files, .stays, committed.goes here rfl rfl rfl rfl fun track tracks => ?_⟩
    exact ⟨track.hold, rfl, fun lid => .inl, fun lid before now held => held, tracks.called calls _⟩
  | put id buf => exact ⟨files, .stays, committed.put joined here calls _ _⟩
  | remove id =>
    obtain ⟨files', steps, after⟩ := committed.remove joined here calls _ _
    exact ⟨files', .steps steps, after⟩
  | create type id | acquire lid | release lid => cases extent

theorem Committed.kept (committed : Committed site history files) (joined : Joined site history)
    {act : Act κ ι Contents} (served : Served site history act) (acts : Acts site act next) :
    ∃ files', atomic.Moves files act.atom files' ∧
      Committed next (history.after site act) files' := by
  cases acts with
  | start client task vars free => exact committed.start joined client vars free served
  | finish here done => exact committed.finish here done
  | acquire here calls free stays owner =>
    exact ⟨files, .stays, committed.acquire joined here calls free⟩
  | release here calls =>
    obtain ⟨files', steps, after⟩ := committed.release joined here calls
    exact ⟨files', .steps steps, after⟩
  | call env here calls extent rejects ran =>
    subst ran
    exact committed.call joined served env here calls extent
  | @request t job type arg rest rpc result here calls free ran =>
    have same : (history.after site (.request t type rpc)).latest = history.latest ∧
        (history.after site (.request t type rpc)).gone = history.gone := by
      simp only [History.after]
      split
      next => exact ⟨rfl, rfl⟩
      next => exact ⟨rfl, rfl⟩
    refine ⟨files, .stays, committed.goes here rfl rfl same.1 same.2 fun track tracks => ?_⟩
    exact ⟨track.hold, rfl, fun lid => .inl, fun lid before now held => held, tracks.rest⟩
  | record env here calls records =>
    obtain ⟨files', steps, after⟩ := committed.record joined here calls records _
    exact ⟨files', .steps steps, after⟩
  | leave owner free stays rejects ran =>
    exact ⟨files, .stays, committed.quiet rfl rfl rfl rfl⟩
  | handOver leaves => exact ⟨files, .stays, committed.quiet rfl rfl rfl rfl⟩

end Invariant

section System

variable {ι : Type}

variable [DecidableEq ι]

section Ends

variable {net : Network ι Process} {ledger : Ledger} {site : Site ClientId ι Contents}
  {history : History ClientId ι} {disk : Site ClientId ι Process} {files : Files ι} {eid : Inum}

omit [DecidableEq ι] in
theorem Committed.unheld (committed : Committed site history files) (joined : Joined site history)
    (mirrors : Mirrors net disk) (on : OnDisk disk ledger site history)
    (kept : ledger.gone eid = false)
    (unheld : ∀ client t, ⟨client, t, .holding⟩ ∉ (net.locks eid).pool) :
    files.contents eid = ledger.latest eid := by
  have free : site.holder eid = none := by
    cases holder : site.holder eid with
    | none => rfl
    | some t =>
      obtain ⟨job, _, owner, _⟩ := joined.locked.held eid t holder
      exact absurd (mirrors.holding (on.holder ▸ holder) (on.owner ▸ owner)) (unheld job.client t)
  rw [committed.free eid free (on.gone ▸ kept), on.latest]

theorem Committed.settled (committed : Committed site history files) (joined : Joined site history)
    (mirrors : Mirrors net disk) (on : OnDisk disk ledger site history)
    (reachable : Reachable network net) (kept : ledger.gone eid = false)
    (free : ∀ entry, (net.locks eid).server = some entry → entry.clientId = "") {data : Bytes}
    (contents : files.contents eid = some data) (wire : Wire) :
    ∃ next, wire.rpc.get net.server eid = (next, .OK, some data) := by
  have unowned := mirrors.unowned reachable free
  have unheld : site.holder eid = none := by
    cases holder : site.holder eid with
    | none => rfl
    | some t =>
      obtain ⟨job, _, owner, _⟩ := joined.locked.held eid t holder
      rw [on.owner, unowned] at owner
      cases owner
  rw [committed.free eid unheld (on.gone ▸ kept), on.latest] at contents
  rw [← mirrors.server]
  exact on.settled joined kept unowned contents wire

end Ends

end System

end NaiveFileSystem.Yfs
