import NaiveFileSystem.Cache.Remote
import NaiveFileSystem.Yfs.Joining

/-!
# Clients over the disk

A site whose server is the process of the extent server with its blocks and inodes.
While the process runs and no two files share the table of the far blocks, its runs are
runs over contents that are stored faithfully.
-/

namespace NaiveFileSystem.Yfs

open Extent Cache Transition Program

/-- The bytes put last on each extent that was made, and what was removed. -/
structure Ledger where
  latest : Inum → Option Bytes
  gone : Inum → Bool

section System

variable {κ ι σ : Type}

def Ledger.after (ledger : Ledger) : Act κ ι σ → Ledger
  | .call _ (.put eid buf) _ =>
    { ledger with latest := Function.update ledger.latest eid (some buf) }
  | .call _ (.remove eid) _ => { ledger with gone := Function.update ledger.gone eid true }
  | .record _ _ id => { ledger with latest := Function.update ledger.latest id (some []) }
  | _ => ledger

/-- A server that just started has an empty root. -/
def Ledger.initial : Ledger := ⟨fun eid => if eid = 1 then some [] else none, fun _ => false⟩

/-- What a flush of the client writes spares the tables of other files. -/
def WritesFarAlone (server : Process) (table : Table) (eid : Inum) : Prop :=
  ∀ im entry, server = some im → table eid = some entry → entry.mState = .MODIFIED →
    FarAlone im eid.toNat entry.data

/-- The calls go to the server process, which outlives the step; a task is about an extent
that was made. -/
def Sustains (site next : Site κ ι Process) (ledger : Ledger) (act : Act κ ι Process) : Prop :=
  next.server ≠ none ∧ match act with
  | .start _ _ task => ledger.latest task.inum ≠ none
  | .call t op rpc => (∃ wire : Wire, rpc = wire.rpc) ∧ ∀ job eid, site.jobs t = some job →
      op = .flush eid → WritesFarAlone site.server (site.table job.client) eid
  | .request _ _ rpc => ∃ wire : Wire, rpc = wire.rpc
  | .leave client lid rpc => (∃ wire : Wire, rpc = wire.rpc) ∧
      WritesFarAlone site.server (site.table client) lid
  | _ => True

variable [DecidableEq κ] [DecidableEq ι]

/-- Any clients at work over a server that just started. -/
def stored : System (Site κ ι Process × Ledger) (Act κ ι Process) where
  init state := state.1.Fresh ∧ state.2 = .initial ∧
    ∃ junk now, state.1.server = some (.init blockNum junk now)
  step state act next := Sustains state.1 next.1 state.2 act ∧ Acts state.1 act next.1 ∧
    next.2 = state.2.after act

end System

/-- The same act, over another server. -/
def Act.Alike {κ ι σ τ : Type} : Act κ ι σ → Act κ ι τ → Prop
  | .start t client task, other => other = .start t client task
  | .finish t, other => other = .finish t
  | .acquire t lid, other => other = .acquire t lid
  | .release t lid, other => other = .release t lid
  | .call t op _, other => ∃ rpc, other = .call t op rpc
  | .request t type _, other => ∃ rpc, other = .request t type rpc
  | .record t type id, other => other = .record t type id
  | .leave client lid _, other => ∃ rpc, other = .leave client lid rpc
  | .handOver lid, other => other = .handOver lid

/-- The disk site and its ledger, seen as a site over contents with a history. -/
structure OnDisk {κ ι : Type} (disk : Site κ ι Process) (ledger : Ledger) (site : Site κ ι Contents)
    (history : History κ ι) : Prop where
  serves : Serves disk.server site.server
  table : site.table = disk.table
  owner : site.owner = disk.owner
  leaving : site.leaving = disk.leaving
  holder : site.holder = disk.holder
  jobs : site.jobs = disk.jobs
  latest : history.latest = ledger.latest
  gone : history.gone = ledger.gone

theorem steady_timed (pick : ExtentId) (times : Attr) (garbled : ℤ) :
    Steady (timed pick times garbled) where
  toFaithful := faithful_timed pick times garbled
  rejects _ := ⟨.library garbled, rfl⟩

/-- A call that the process outlives is one of a steady server. -/
theorem handle_agrees {wire : Wire} {process : Process} {contents : Contents} {cache : Table}
    (serves : Serves process contents) (env : Ambient) {op : Op} {eid : Inum}
    (extent : op.extent = some eid) (read : ∀ buf, op = .get eid buf → contents eid ≠ none)
    (live : ∀ entry, cache eid = some entry → entry.mState = .MODIFIED → contents eid ≠ none)
    (spared : op = .flush eid → WritesFarAlone process cache eid)
    (alive : (handle wire.rpc env op (cache, process)).1.2 ≠ none) :
    ∃ rpc, Steady rpc ∧ Agrees (handle wire.rpc env op (cache, process))
      (handle rpc env op (cache, contents)) := by
  cases op with
  | get id buf =>
    cases extent
    obtain ⟨times, agrees⟩ := @get_agrees wire _ _ _ serves (read buf rfl) env buf cache
    exact ⟨_, steady_timed 1 times wire.garbled, agrees 1⟩
  | getattr id attr =>
    cases extent
    obtain ⟨times, agrees⟩ := @getattr_agrees wire _ _ eid serves attr cache
    exact ⟨_, steady_timed 1 times wire.garbled, agrees 1⟩
  | put id buf | remove id => exact ⟨_, steady_plain 1, rfl, rfl, serves⟩
  | flush id =>
    cases extent
    exact ⟨_, steady_timed 1 ⟨0, 0, 0, 0, 0⟩ wire.garbled,
      flush_agrees serves live (spared rfl) alive 1 ⟨0, 0, 0, 0, 0⟩⟩
  | create type id | acquire lid | release lid => cases extent

theorem ledger_after {κ ι σ : Type} {ledger : Ledger} {history : History κ ι} {act : Act κ ι σ}
    {site : Site κ ι Contents} {act' : Act κ ι Contents} (latest : history.latest = ledger.latest)
    (gone : history.gone = ledger.gone) (alike : act.Alike act') :
    (history.after site act').latest = (ledger.after act).latest ∧
      (history.after site act').gone = (ledger.after act).gone := by
  cases act with
  | call t op rpc =>
    obtain ⟨rpc', rfl⟩ := alike
    cases op <;> simp [History.after, History.use, Ledger.after, latest, gone]
  | request t type rpc =>
    obtain ⟨rpc', rfl⟩ := alike
    simp only [History.after]
    split <;> exact ⟨latest, gone⟩
  | leave client lid rpc =>
    obtain ⟨rpc', rfl⟩ := alike
    exact ⟨latest, gone⟩
  | record t type id =>
    cases alike
    simp [History.after, Ledger.after, latest, gone]
  | start | finish | acquire | release | handOver =>
    cases alike
    exact ⟨latest, gone⟩

theorem OnDisk.owner_reads {κ ι : Type} {disk : Site κ ι Process} {ledger : Ledger}
    {site : Site κ ι Contents} {history : History κ ι} (on : OnDisk disk ledger site history)
    (joined : Joined site history) {client : κ} {eid : Inum} {data : Bytes}
    (kept : ledger.gone eid = false) (owner : disk.owner eid = some client)
    (latest : ledger.latest eid = some data) (wire : Wire) (env : Ambient) (buf : Bytes) :
    ∃ result, ExtentClientCache.get wire.rpc env eid buf (disk.table client) disk.server =
      (result, .OK, data) := by
  rw [← on.gone] at kept
  rw [← on.latest] at latest
  rw [← on.owner] at owner
  rw [← on.table]
  have reads := (joined.coherent eid kept).owner_reads owner latest
  obtain ⟨times, agrees⟩ := @get_agrees wire _ _ _ on.serves
    (joined.stocked.live eid (by simp [latest])) env buf (site.table client)
  obtain ⟨entry, ran, _⟩ :=
    ExtentClientCache.get_ok (faithful_timed 1 times wire.garbled) env buf reads
  have reply := (agrees 1).reply
  rw [show ExtentClientCache.get (timed 1 times wire.garbled) env eid buf (site.table client)
    site.server = _ from ran] at reply
  exact ⟨_, Prod.ext rfl reply⟩

/-- A lock that nobody owns covers bytes that are on the disk. -/
theorem OnDisk.settled {κ ι : Type} {disk : Site κ ι Process} {ledger : Ledger}
    {site : Site κ ι Contents} {history : History κ ι} (on : OnDisk disk ledger site history)
    (joined : Joined site history) {eid : Inum} {data : Bytes} (kept : ledger.gone eid = false)
    (owner : disk.owner eid = none) (latest : ledger.latest eid = some data) (wire : Wire) :
    ∃ next, wire.rpc.get disk.server eid = (next, .OK, some data) := by
  rw [← on.gone] at kept
  rw [← on.latest] at latest
  rw [← on.owner] at owner
  have coherent := joined.coherent eid kept
  obtain ⟨file, found, rfl⟩ :=
    Option.map_eq_some_iff.mp (coherent.settled (coherent.not_used owner) data latest)
  obtain ⟨next, ran, _⟩ := @Serves.get wire _ _ _ _ on.serves found
  exact ⟨next, ran⟩

section Step

variable {κ ι : Type} [DecidableEq κ] [DecidableEq ι] {disk next : Site κ ι Process}
  {site : Site κ ι Contents} {ledger : Ledger} {history : History κ ι} {act : Act κ ι Process}

theorem OnDisk.step (on : OnDisk disk ledger site history) (joined : Joined site history)
    (sustains : Sustains disk next ledger act) (acts : Acts disk act next) :
    ∃ act' site', act.Alike act' ∧ serving.step (site, history) act' (site', history.after site act') ∧
      OnDisk next (ledger.after act) site' (history.after site act') := by
  obtain ⟨serves, table, owner, leaving, holder, jobs, latest, gone⟩ := on
  obtain ⟨alive, needs⟩ := sustains
  -- It is enough to find the step: the ledger and the history are told alike.
  suffices steps : ∃ act' site', act.Alike act' ∧ Served site history act' ∧ Acts site act' site' ∧
      Serves next.server site'.server ∧ site'.table = next.table ∧ site'.owner = next.owner ∧
      site'.leaving = next.leaving ∧ site'.holder = next.holder ∧ site'.jobs = next.jobs by
    obtain ⟨act', site', alike, served, acts', serves', table', owner', leaving', holder', jobs'⟩ := steps
    obtain ⟨latest', gone'⟩ := @ledger_after _ _ _ _ _ _ site _ latest gone alike
    exact ⟨act', site', alike, ⟨served, acts', rfl⟩,
      ⟨serves', table', owner', leaving', holder', jobs', latest', gone'⟩⟩
  obtain ⟨contents, _, _, _, _, _⟩ := site
  dsimp only at serves table owner leaving holder jobs
  subst table owner leaving holder jobs
  cases acts with
  | @start t client task vars free =>
    refine ⟨_, _, rfl, ?_, .start client task vars free, serves, rfl, rfl, rfl, rfl, rfl⟩
    show history.latest task.inum ≠ none
    rw [latest]
    exact needs
  | finish here done =>
    exact ⟨_, _, rfl, trivial, .finish here done, serves, rfl, rfl, rfl, rfl, rfl⟩
  | acquire here calls free stays owner =>
    exact ⟨_, _, rfl, trivial, .acquire here calls free stays owner, serves, rfl, rfl, rfl, rfl, rfl⟩
  | release here calls =>
    exact ⟨_, _, rfl, trivial, .release here calls, serves, rfl, rfl, rfl, rfl, rfl⟩
  | @call t job op rest eid rpc result env here calls extent rejects ran =>
    subst ran
    obtain ⟨⟨wire, rfl⟩, spares⟩ := needs
    obtain ⟨rpc, steady, agrees⟩ := handle_agrees serves env extent
      (fun buf get => joined.stocked.live eid (joined.locked.call_owned here calls (.inl get)).known)
      (joined.stocked.modified job.client eid) (spares job eid here) alive
    refine ⟨_, _, ⟨rpc, rfl⟩, steady, .call env here calls extent steady.rejects_all rfl,
      agrees.serves, ?_, rfl, rfl, rfl, ?_⟩
    · exact congrArg (Function.update disk.table job.client) agrees.table.symm
    · exact congrArg (fun reply => Function.update disk.jobs t (some { job with rest := rest reply }))
        agrees.reply.symm
  | @request t job type arg rest rpc result here calls free ran =>
    subst ran
    obtain ⟨wire, rfl⟩ := needs
    obtain ⟨guard, guards⟩ := joined.locked.jobs t job here
    have known := guards.rest
    rw [calls] at known
    obtain ⟨⟨type, rfl⟩, _⟩ := known
    obtain ⟨process, id, ran, fresh, after⟩ := serves.create type alive
    have made : (plain id).create contents type.code =
        (Function.update contents id (some ⟨type, []⟩), .OK, some id) := by
      simp [plain, typeOf_code]
    refine ⟨_, _, ⟨plain id, rfl⟩, ⟨steady_plain id, _, id, made, fresh⟩,
      .request here calls free made, ?_, rfl, rfl, rfl, rfl, ?_⟩
    · rw [ran]
      exact after
    · rw [ran]
      rfl
  | @record t job type arg rest ret id env here calls recording =>
    exact ⟨_, _, rfl, trivial, .record env here calls recording, serves, rfl, rfl, rfl, rfl, rfl⟩
  | @leave client lid rpc result ret owner free stays rejects ran =>
    obtain ⟨⟨wire, rfl⟩, spares⟩ := needs
    have agrees := flush_agrees serves (joined.stocked.modified client lid) spares
      (by rw [ran]; exact alive) 1 ⟨0, 0, 0, 0, 0⟩
    rw [ran] at agrees
    have steady := steady_timed 1 ⟨0, 0, 0, 0, 0⟩ wire.garbled
    refine ⟨_, _, ⟨_, rfl⟩, steady, .leave owner free stays steady.rejects_all rfl, agrees.serves,
      ?_, rfl, rfl, rfl, rfl⟩
    exact congrArg (Function.update disk.table client) agrees.table.symm
  | handOver leaves =>
    exact ⟨_, _, rfl, trivial, .handOver leaves, serves, rfl, rfl, rfl, rfl, rfl⟩

def booted : System (Site κ ι Contents × History κ ι) (Act κ ι Contents) where
  init state := serving.init state ∧ state.1.server = fun eid => Store.initial eid.toNat
  step := serving.step

theorem initial_latest : (fun eid : Inum => (Store.initial eid.toNat).map File.data) =
    Ledger.initial.latest := by
  have root : ∀ eid : Inum, eid.toNat = 1 ↔ eid = 1 := fun eid => by
    rw [← UInt64.toNat_inj]
    rfl
  funext eid
  simp only [Ledger.initial, Store.initial, root]
  split <;> rfl

theorem OnDisk.init (fresh : disk.Fresh) {junk : Fin (ndirect + 1) → BlockId} {now : UInt32}
    (running : disk.server = some (.init blockNum junk now)) :
    ∃ spec : Site κ ι Contents × History κ ι, booted.init spec ∧ OnDisk disk .initial spec.1 spec.2 := by
  refine ⟨(⟨fun eid => Store.initial eid.toNat, disk.table, disk.owner, disk.leaving, disk.holder,
    disk.jobs⟩, .initial _), ⟨⟨⟨fresh.table, fresh.owner, fresh.leaving, fresh.holder, fresh.jobs⟩,
    rfl, rfl⟩, rfl⟩, ⟨_, _, running, .init junk now, fun _ => rfl⟩, rfl, rfl, rfl, rfl, rfl,
    initial_latest, rfl⟩

end Step

end NaiveFileSystem.Yfs
