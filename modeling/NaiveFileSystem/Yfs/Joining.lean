import NaiveFileSystem.Cache.Coherence
import NaiveFileSystem.Yfs.Directory
import NaiveFileSystem.Yfs.Site

/-!
# Clients that join

A constructor puts an empty root under lock 1, while any clients work. A history
beside the site tells what was put last on each extent. The owner of a lock always
reads that, for every extent that nobody removed, and a constructor that finds the
root empty puts nothing new.
-/

namespace NaiveFileSystem.Yfs

open Extent Cache Transition Program

/-- What was put last, whether the owner used the extent since its last flush, which
creates are answered but not recorded, by whom, and what was removed. -/
structure History (κ ι : Type) where
  latest : Inum → Option Bytes
  used : Inum → Bool
  pending : Inum → Option (κ × ExtentType)
  maker : Inum → Option ι
  gone : Inum → Bool

section System

variable {κ ι : Type}

def History.use (history : History κ ι) (eid : Inum) (using_ : Bool) : History κ ι :=
  { history with used := Function.update history.used eid using_ }

def History.after (site : Site κ ι Contents) (history : History κ ι) :
    Act κ ι Contents → History κ ι
  | .call _ (.get eid _) _ => history.use eid true
  | .call _ (.put eid buf) _ =>
    { history.use eid true with latest := Function.update history.latest eid (some buf) }
  | .call _ (.flush eid) _ | .leave _ eid _ => history.use eid false
  | .call _ (.remove eid) _ => { history with gone := Function.update history.gone eid true }
  | .request t type rpc =>
    match (rpc.create site.server type).2.2, site.jobs t with
    | some id, some job => { history with
        pending := Function.update history.pending id (some (job.client, typeOf type))
        maker := Function.update history.maker id (some t) }
    | _, _ => history
  | .record _ _ id => { history with
      latest := Function.update history.latest id (some [])
      pending := Function.update history.pending id none }
  | _ => history

/-- The server is steady, a create gets a new inode, and a task is about an extent
that exists. -/
def Served (site : Site κ ι Contents) (history : History κ ι) : Act κ ι Contents → Prop
  | .start _ _ task => history.latest task.inum ≠ none
  | .call _ _ rpc | .leave _ _ rpc => Steady rpc
  | .request _ type rpc => Steady rpc ∧ ∃ next id,
    rpc.create site.server type = (next, .OK, some id) ∧ site.server id = none
  | _ => True

/-- The put of a constructor finds the root empty. -/
def JoinsEmpty (site : Site κ ι Contents) (history : History κ ι) : Act κ ι Contents → Prop
  | .call t (.put _ _) _ => ∀ job, site.jobs t = some job → job.task = .basic .init →
    history.latest 1 = some []
  | _ => True

/-- Nothing happened yet over the contents. -/
def History.initial (contents : Contents) : History κ ι :=
  ⟨fun eid => (contents eid).map File.data, fun _ => false, fun _ => none, fun _ => none,
    fun _ => false⟩

variable [DecidableEq κ] [DecidableEq ι]

/-- Any clients at work over any contents with a root. -/
def serving : System (Site κ ι Contents × History κ ι) (Act κ ι Contents) where
  init state := state.1.Fresh ∧ state.2 = .initial state.1.server ∧
    (state.1.server 1).map File.type = some .T_DIR
  step state act next := Served state.1 state.2 act ∧ Acts state.1 act next.1 ∧
    next.2 = state.2.after state.1 act

/-- The runs in which every constructor finds the root empty. -/
def joining : System (Site κ ι Contents × History κ ι) (Act κ ι Contents) where
  init := serving.init
  step state act next := JoinsEmpty state.1 state.2 act ∧ serving.step state act next

end System

section Invariant

variable {κ ι : Type}

/-- The caches of a site, with its history. No answer is on its way: a site's calls are
one step each. -/
def Site.caches (site : Site κ ι Contents) (history : History κ ι) : State κ :=
  ⟨site.server, site.table, site.owner, history.used, history.latest, history.pending,
    fun _ => none⟩

structure Stocked (site : Site κ ι Contents) (history : History κ ι) : Prop where
  live : ∀ eid, history.latest eid ≠ none → site.server eid ≠ none
  modified : ∀ client eid entry, site.table client eid = some entry → entry.mState = .MODIFIED →
    site.server eid ≠ none
  root : (site.server 1).map File.type = some .T_DIR

structure Recording (site : Site κ ι Contents) (history : History κ ι) (t : ι) (job : Job κ)
    (ret : Status) (id : Inum) : Prop where
  accepted : ret = .OK
  maker : history.maker id = some t
  held : site.server id ≠ none
  call : ∃ (type : ExtentType) (arg : Inum) (rest : Status × ExtentId → Action Unit),
    job.rest = .call (.create type.code arg) rest ∧ history.pending id = some (job.client, type)

structure Joined (site : Site κ ι Contents) (history : History κ ι) : Prop where
  locked : Locked (history.latest · ≠ none) site
  coherent : ∀ eid, history.gone eid = false → CoherentAt (site.caches history) eid
  stocked : Stocked site history
  idle : ∀ lid, site.leaving lid = true → history.used lid = false
  recording : ∀ t job ret id, site.jobs t = some job → job.recording = some (ret, id) →
    Recording site history t job ret id

variable {site next : Site κ ι Contents} {history : History κ ι} {t : ι} {job : Job κ} {client : κ}
  {eid other : Inum}

theorem Joined.call_frame (joined : Joined site history) {rpc : Rpc Contents} (steady : Steady rpc)
    (env : Ambient) (here : site.jobs t = some job) {op : Op} {rest : op.Reply → Action Unit}
    (calls : job.rest = .call op rest) (extent : op.extent = some eid) :
    Frame eid (site.table job.client, site.server)
        (handle rpc env op (site.table job.client, site.server)).1 ∧
      (NotWritten (site.table job.client eid)
        ((handle rpc env op (site.table job.client, site.server)).1.1 eid) ∨ site.server eid ≠ none) := by
  obtain ⟨frame, calm⟩ := handle_frame steady env extent (fun buf get =>
    joined.stocked.live eid (joined.locked.call_owned here calls (.inl get)).known)
    (joined.stocked.modified job.client eid)
  refine ⟨frame, ?_⟩
  by_cases put : ∃ buf, op = .put eid buf
  · obtain ⟨buf, put⟩ := put
    exact .inr (joined.stocked.live eid (joined.locked.call_owned here calls (.inr (.inl put))).known)
  · exact .inl (calm fun buf same => put ⟨buf, same⟩)

theorem after_latest {act : Act κ ι Contents} (known : history.latest eid ≠ none) :
    (history.after site act).latest eid ≠ none := by
  have updated : ∀ (id : Inum) (data : Bytes),
      Function.update history.latest id (some data) eid ≠ none := by
    intro id data
    by_cases same : eid = id
    · simp [same]
    · simpa [same] using known
  cases act with
  | call t op rpc =>
    cases op with
    | put id buf => exact updated id buf
    | get | getattr | remove | flush | create | acquire | release => exact known
  | record t type id => exact updated id []
  | request t type rpc =>
    simp only [History.after]
    split
    next => exact known
    next => exact known
  | start | finish | acquire | release | leave | handOver => exact known

theorem Recording.congr {history' : History κ ι} {ret : Status} {id : Inum}
    (recording : Recording site history t job ret id)
    (maker : history'.maker id = history.maker id) (pending : history'.pending id = history.pending id)
    (held : next.server id ≠ none) : Recording next history' t job ret id := by
  obtain ⟨accepted, made, _, call⟩ := recording
  exact ⟨accepted, maker.trans made, held, by rwa [pending]⟩

theorem Joined.not_recording (joined : Joined site history) (here : site.jobs t = some job)
    {op : Op} {rest : op.Reply → Action Unit} (calls : job.rest = .call op rest)
    (other : ∀ code arg, op ≠ .create code arg) : job.recording = none := by
  cases records : job.recording with
  | none => rfl
  | some answer =>
    obtain ⟨type, arg, rest', creates, _⟩ :=
      (joined.recording t job answer.1 answer.2 here records).call
    rw [calls] at creates
    cases creates
    exact absurd rfl (other _ _)

theorem Joined.acquired (joined : Joined site history) {lid : Inum} {owner : κ}
    (owned : site.owner lid = some owner ∨ site.owner lid = none) (kept : history.gone eid = false) :
    CoherentAt (Site.caches { site with owner := Function.update site.owner lid (some owner) } history)
      eid := by
  have before := joined.coherent eid kept
  by_cases same : eid = lid
  · subst same
    rcases owned with mine | none
    · refine before.congr ⟨rfl, fun _ => rfl, ?_, rfl, rfl, rfl⟩
      exact (Function.update_self _ _ _).trans mine.symm
    · exact before.handOver (before.not_used none) _
  · exact before.congr ⟨rfl, fun _ => rfl, Function.update_of_ne same _ _, rfl, rfl, rfl⟩

theorem Joined.handOver (joined : Joined site history) {lid : Inum} (leaves : site.leaving lid = true)
    (locked : Locked (history.latest · ≠ none) { site with
      owner := Function.update site.owner lid none
      leaving := Function.update site.leaving lid false }) :
    Joined { site with
      owner := Function.update site.owner lid none
      leaving := Function.update site.leaving lid false } history := by
  refine ⟨locked, fun other kept => ?_,
    ⟨joined.stocked.live, joined.stocked.modified, joined.stocked.root⟩, fun other leaves' => ?_,
    fun u job ret id here records => (joined.recording u job ret id here records).congr rfl rfl
      (joined.recording u job ret id here records).held⟩
  · by_cases same : other = lid
    · subst same
      exact (joined.coherent other kept).handOver (joined.idle other leaves) none
    · exact (joined.coherent other kept).congr
        ⟨rfl, fun _ => rfl, Function.update_of_ne same _ _, rfl, rfl, rfl⟩
  · by_cases same : other = lid
    · simp [same] at leaves'
    · exact joined.idle other ((Function.update_of_ne same _ _).symm.trans leaves')

section Threads

variable [DecidableEq ι]

theorem Joined.recordings (joined : Joined site history) {history' : History κ ι}
    {slot : Option (Job κ)} (jobs : next.jobs = Function.update site.jobs t slot)
    (own : ∀ job ret id, slot = some job → job.recording = some (ret, id) →
      Recording next history' t job ret id)
    (others : ∀ u job ret id, u ≠ t → Recording site history u job ret id →
      history'.maker id = history.maker id ∧ history'.pending id = history.pending id ∧
        next.server id ≠ none) :
    ∀ u job ret id, next.jobs u = some job → job.recording = some (ret, id) →
      Recording next history' u job ret id := by
  intro u job ret id here records
  rw [jobs] at here
  by_cases same : u = t
  · subst same
    rw [Function.update_self] at here
    exact own job ret id here records
  · rw [Function.update_of_ne same] at here
    have before := joined.recording u job ret id here records
    obtain ⟨maker, pending, held⟩ := others u job ret id same before
    exact before.congr maker pending held

theorem Joined.quiet (joined : Joined site history) {slot : Option (Job κ)}
    (jobs : next.jobs = Function.update site.jobs t slot)
    (recording : ∀ job, slot = some job → job.recording = none)
    (locked : Locked (history.latest · ≠ none) next) (server : next.server = site.server)
    (table : next.table = site.table) (leaving : next.leaving = site.leaving)
    (coherent : ∀ eid, history.gone eid = false → CoherentAt (next.caches history) eid) :
    Joined next history where
  locked := locked
  coherent := coherent
  stocked := by
    obtain ⟨live, modified, root⟩ := joined.stocked
    exact ⟨server ▸ live, server ▸ table ▸ modified, server ▸ root⟩
  idle := by
    rw [leaving]
    exact joined.idle
  recording := by
    refine joined.recordings jobs (fun job ret id here records => ?_) fun u job ret id _ before => ?_
    · rw [recording job here] at records
      cases records
    · exact ⟨rfl, rfl, server ▸ before.held⟩

theorem Joined.request (joined : Joined site history) {rpc : Rpc Contents} (steady : Steady rpc)
    {type : ExtentType} {arg id : Inum}
    {rest : Status × ExtentId → Action Unit} (calls : job.rest = .call (.create type.code arg) rest)
    {contents : Contents}
    (ran : rpc.create site.server type.code = (contents, .OK, some id)) (fresh : site.server id = none)
    (locked : Locked (history.latest · ≠ none) (Site.set { site with server := contents } t
      (some { job with recording := some (.OK, id) }))) :
    Joined (Site.set { site with server := contents } t
      (some { job with recording := some (.OK, id) })) { history with
        pending := Function.update history.pending id (some (job.client, type))
        maker := Function.update history.maker id (some t) } := by
  have made := steady.create _ _ _ _ ran
  have live : ∀ {other}, site.server other ≠ none → contents other ≠ none := by
    intro other held
    rw [made]
    by_cases same : other = id
    · simp [same]
    · simpa [same] using held
  refine ⟨locked, fun other kept => ?_, ⟨fun other known => live (joined.stocked.live other known),
    fun client other entry there modified =>
      live (joined.stocked.modified client other entry there modified),
    ?_⟩, joined.idle, joined.recordings rfl (fun job' ret id' same records => ?_)
      fun u job' ret id' _ before => ?_⟩
  · by_cases same : other = id
    · subst same
      exact (joined.coherent other kept).request steady.toFaithful ran fresh
    · refine (joined.coherent other kept).congr ⟨?_, fun _ => rfl, rfl, rfl, rfl, ?_⟩
      · show contents other = _
        rw [made]
        exact Function.update_of_ne same _ _
      · exact Function.update_of_ne same _ _
  · have different : (1 : Inum) ≠ id := by
      rintro rfl
      have root := joined.stocked.root
      rw [fresh] at root
      cases root
    show (contents 1).map File.type = _
    rw [made, Function.update_of_ne different]
    exact joined.stocked.root
  · rw [← Option.some.inj same] at records ⊢
    cases records
    refine ⟨rfl, Function.update_self _ _ _, ?_, type, arg, rest, calls, Function.update_self _ _ _⟩
    show contents id ≠ none
    simp [made]
  · have different : id' ≠ id := by
      rintro rfl
      exact before.held fresh
    exact ⟨Function.update_of_ne different _ _, Function.update_of_ne different _ _, live before.held⟩

end Threads

variable [DecidableEq κ]

theorem coherent_frame (history : History κ ι) {result : Table × Contents} {used : Inum → Bool}
    {latest : Inum → Option Bytes}
    (coherent : CoherentAt (site.caches history) other)
    (frame : Frame eid (site.table client, site.server) result) (different : other ≠ eid)
    (sameUse : used other = history.used other) (sameLatest : latest other = history.latest other) :
    CoherentAt ⟨result.2, Function.update site.table client result.1, site.owner, used, latest,
      history.pending, fun _ => none⟩ other := by
  refine coherent.congr ⟨frame.server other different, fun client' => ?_, rfl, sameUse, sameLatest, rfl⟩
  by_cases same : client' = client
  · subst same
    show Function.update site.table client' result.1 client' other = site.table client' other
    rw [Function.update_self]
    exact frame.table other different
  · exact congrFun (Function.update_of_ne same _ _) other

theorem Stocked.frame (stocked : Stocked site history) {result : Table × Contents}
    (frame : Frame eid (site.table client, site.server) result)
    (table : next.table = Function.update site.table client result.1) (server : next.server = result.2)
    {history' : History κ ι} (latest : ∀ eid, history'.latest eid ≠ none → history.latest eid ≠ none)
    (calm : NotWritten (site.table client eid) (result.1 eid) ∨ site.server eid ≠ none) :
    Stocked next history' where
  live other known := by
    rw [server]
    exact frame.live (stocked.live other (latest other known))
  modified client' other entry here kind := by
    rw [table] at here
    rw [server]
    apply frame.live
    by_cases same : client' = client
    · subst same
      rw [Function.update_self] at here
      by_cases target : other = eid
      · subst target
        rcases calm with calm | live
        · obtain ⟨before, there, kind'⟩ := calm entry here kind
          exact stocked.modified _ _ before there kind'
        · exact live
      · rw [frame.table other target] at here
        exact stocked.modified _ _ entry here kind
    · rw [Function.update_of_ne same] at here
      exact stocked.modified _ _ entry here kind
  root := by
    rw [server]
    by_cases same : eid = 1
    · subst same
      rw [frame.type]
      exact stocked.root
    · rw [frame.server 1 (Ne.symm same)]
      exact stocked.root

theorem Joined.coherent_call [DecidableEq ι] (joined : Joined site history) {rpc : Rpc Contents}
    (steady : Steady rpc) (env : Ambient) (here : site.jobs t = some job) {op : Op}
    {rest : op.Reply → Action Unit} (calls : job.rest = .call op rest) (extent : op.extent = some eid)
    (slot : Option (Job κ)) (kept : (history.after site (.call t op rpc)).gone other = false) :
    CoherentAt (Site.caches ((site.after job.client
      (handle rpc env op (site.table job.client, site.server)).1).set t slot)
      (history.after site (.call t op rpc))) other := by
  have frame := (joined.call_frame steady env here calls extent).1
  cases op with
  | get eid' buf =>
    cases extent
    by_cases same : other = eid
    · subst same
      have owned := joined.locked.call_owned here calls (.inl rfl)
      obtain ⟨data, latest⟩ := Option.ne_none_iff_exists'.mp owned.known
      exact (joined.coherent other kept).get steady.toFaithful owned.owner latest env buf
    · exact coherent_frame history (joined.coherent other kept) frame same
        (Function.update_of_ne same _ _) rfl
  | getattr eid' attr =>
    cases extent
    by_cases same : other = eid
    · subst same
      exact (joined.coherent other kept).getattr steady.toFaithful attr
    · exact coherent_frame history (joined.coherent other kept) frame same rfl rfl
  | put eid' buf =>
    cases extent
    by_cases same : other = eid
    · subst same
      have owned := joined.locked.call_owned here calls (.inr (.inl rfl))
      obtain ⟨data, latest⟩ := Option.ne_none_iff_exists'.mp owned.known
      exact (joined.coherent other kept).put owned.owner latest env buf
    · exact coherent_frame history (joined.coherent other kept) frame same
        (Function.update_of_ne same _ _) (Function.update_of_ne same _ _)
  | remove eid' =>
    cases extent
    by_cases same : other = eid
    · subst same
      have removed : (history.after site (.call t (.remove other) rpc)).gone other = true :=
        Function.update_self _ _ _
      rw [removed] at kept
      cases kept
    · have before : history.gone other = false := by
        rw [← kept]
        exact (Function.update_of_ne same _ _).symm
      exact coherent_frame history (joined.coherent other before) frame same rfl rfl
  | flush eid' =>
    cases extent
    by_cases same : other = eid
    · subst same
      have owned := @Locked.call_owned _ _ _ _ site t job joined.locked here _ _ calls other []
        (.inr (.inr rfl))
      exact (joined.coherent other kept).flush steady.toFaithful owned.owner
    · exact coherent_frame history (joined.coherent other kept) frame same
        (Function.update_of_ne same _ _) rfl
  | create type id | acquire lid | release lid => cases extent

theorem Joined.leave (joined : Joined site history) {rpc : Rpc Contents} (steady : Steady rpc)
    {lid : Inum} (owner : site.owner lid = some client) {result : Table × Contents} {ret : Status}
    (ran : ExtentClientCache.flush rpc lid (site.table client) site.server = (result, ret))
    (locked : Locked (history.latest · ≠ none) { site.after client result with
      leaving := Function.update site.leaving lid true }) :
    Joined { site.after client result with leaving := Function.update site.leaving lid true }
      (history.use lid false) := by
  obtain ⟨frame, erased⟩ := flush_frame steady (joined.stocked.modified client lid)
  rw [ran] at frame erased
  refine ⟨locked, fun other kept => ?_, joined.stocked.frame frame rfl rfl (fun _ => id) (.inl ?_),
    fun other leaves => ?_, fun u job ret id here records => ?_⟩
  · by_cases same : other = lid
    · subst same
      have flushed := (joined.coherent other kept).flush steady.toFaithful owner
      rw [show ExtentClientCache.flush rpc other (site.caches history |>.table client)
        (site.caches history).server = _ from ran] at flushed
      exact flushed
    · exact coherent_frame history (joined.coherent other kept) frame same
        (Function.update_of_ne same _ _) rfl
  · intro entry here
    rw [erased] at here
    cases here
  · show Function.update history.used lid false other = false
    by_cases same : other = lid
    · simp [same]
    · rw [Function.update_of_ne same]
      exact joined.idle other ((Function.update_of_ne same _ _).symm.trans leaves)
  · have before := joined.recording u job ret id here records
    exact before.congr rfl rfl (frame.live before.held)

variable [DecidableEq ι]

theorem Joined.call (joined : Joined site history) {rpc : Rpc Contents} (steady : Steady rpc)
    (env : Ambient) (here : site.jobs t = some job) {op : Op} {rest : op.Reply → Action Unit}
    (calls : job.rest = .call op rest) (extent : op.extent = some eid) {after : Action Unit}
    (locked : Locked ((history.after site (.call t op rpc)).latest · ≠ none)
      ((site.after job.client (handle rpc env op (site.table job.client, site.server)).1).set t
        (some { job with rest := after }))) :
    Joined ((site.after job.client (handle rpc env op (site.table job.client, site.server)).1).set t
      (some { job with rest := after })) (history.after site (.call t op rpc)) := by
  obtain ⟨frame, calm⟩ := joined.call_frame steady env here calls extent
  have quiet := joined.not_recording here calls fun code arg same => by
    rw [same] at extent
    cases extent
  refine ⟨locked, fun other kept => joined.coherent_call steady env here calls extent _ kept,
    joined.stocked.frame frame rfl rfl (fun other known => ?_) calm, fun lid leaves => ?_,
    joined.recordings rfl (fun job' ret id same records => ?_) fun u job' ret id _ before => ?_⟩
  · cases op with
    | put target buf =>
      have owned := joined.locked.call_owned here calls (.inr (.inl rfl))
      by_cases same : other = target
      · exact same ▸ owned.known
      · rwa [← Function.update_of_ne same (some buf) history.latest]
    | get | getattr | remove | flush | create | acquire | release => exact known
  · have before := joined.idle lid leaves
    have stays : ∀ target buf, op = .get target buf ∨ op = .put target buf → lid ≠ target := by
      rintro target buf under rfl
      have owned := joined.locked.call_owned here calls
        (under.elim .inl fun put => .inr (.inl put))
      cases owned.stays.symm.trans leaves
    cases op with
    | get target buf => exact (Function.update_of_ne (stays target buf (.inl rfl)) _ _).trans before
    | put target buf => exact (Function.update_of_ne (stays target buf (.inr rfl)) _ _).trans before
    | flush target =>
      show Function.update history.used target false lid = false
      by_cases same : lid = target
      · simp [same]
      · simpa [same] using before
    | getattr | remove | create | acquire | release => exact before
  · rw [← Option.some.inj same] at records
    cases quiet.symm.trans records
  · refine ⟨?_, ?_, frame.live before.held⟩
    · cases op with
      | get | getattr | put | remove | flush | create | acquire | release => rfl
    · cases op with
      | get | getattr | put | remove | flush | create | acquire | release => rfl

theorem Joined.record (joined : Joined site history) (env : Ambient) (here : site.jobs t = some job)
    {type : UInt32} {arg id : Inum} {ret : Status} {rest : Status × ExtentId → Action Unit}
    (calls : job.rest = .call (.create type arg) rest) (records : job.recording = some (ret, id))
    (locked : Locked ((history.after site (.record t type id)).latest · ≠ none) (Site.set { site with
          table := Function.update site.table job.client
            (ExtentClientCache.recordCreated env type id (site.table job.client)) } t
        (some { job with rest := rest (ret, id), recording := none }))) :
    Joined (Site.set { site with
          table := Function.update site.table job.client
            (ExtentClientCache.recordCreated env type id (site.table job.client)) } t
        (some { job with rest := rest (ret, id), recording := none }))
      (history.after site (.record t type id)) := by
  obtain ⟨_, maker, held, type', arg', rest', creates, pending⟩ :=
    joined.recording t job ret id here records
  cases calls.symm.trans creates
  have slots : ∀ client other, other ≠ id → Function.update site.table job.client
      (ExtentClientCache.recordCreated env type'.code id (site.table job.client)) client other =
        site.table client other := by
    intro client other different
    by_cases same : client = job.client
    · subst same
      rw [Function.update_self]
      exact ExtentClientCache.recordCreated_of_ne env _ different
    · exact congrFun (Function.update_of_ne same _ _) other
  refine ⟨locked, fun other kept => ?_,
    ⟨fun other known => ?_, fun client other entry there modified => ?_, joined.stocked.root⟩,
    joined.idle, joined.recordings rfl (fun job' ret' id' same recorded => ?_)
      fun u job' ret' id' different before => ?_⟩
  · by_cases same : other = id
    · subst same
      exact (joined.coherent other kept).record pending env
    · exact (joined.coherent other kept).congr ⟨rfl, fun client => slots client other same, rfl, rfl,
        Function.update_of_ne same _ _, Function.update_of_ne same _ _⟩
  · by_cases same : other = id
    · exact same ▸ held
    · refine joined.stocked.live other ?_
      rwa [← Function.update_of_ne same (some []) history.latest]
  · by_cases same : other = id
    · exact same ▸ held
    · have before := (slots client other same).symm.trans there
      exact joined.stocked.modified client other entry before modified
  · rw [← Option.some.inj same] at recorded
    cases recorded
  · have apart : id' ≠ id := by
      rintro rfl
      exact different (Option.some.inj (before.maker.symm.trans maker))
    exact ⟨rfl, Function.update_of_ne apart _ _, before.held⟩

theorem Joined.kept (joined : Joined site history) {act : Act κ ι Contents}
    (served : Served site history act) (acts : Acts site act next) :
    Joined next (history.after site act) := by
  have locked : Locked ((history.after site act).latest · ≠ none) next := by
    refine joined.locked.kept (fun ino => after_latest) ?_ ?_ acts
    · rintro t client task rfl
      exact served
    · rintro t type id rfl
      show Function.update history.latest id (some []) id ≠ none
      simp
  cases acts with
  | start client task vars free =>
    refine joined.quiet rfl (fun job same => ?_) locked rfl rfl rfl joined.coherent
    rw [← Option.some.inj same]
  | finish here done =>
    exact joined.quiet rfl (fun job none => by cases none) locked rfl rfl rfl joined.coherent
  | @acquire t job lid rest here calls free stays owner =>
    refine joined.quiet rfl (fun job' same => ?_) locked rfl rfl rfl fun eid kept =>
      joined.acquired owner kept
    have quiet := joined.not_recording here calls (by simp)
    rw [← Option.some.inj same, quiet]
  | @release t job lid rest here calls =>
    refine joined.quiet rfl (fun job' same => ?_) locked rfl rfl rfl joined.coherent
    have quiet := joined.not_recording here calls (by simp)
    rw [← Option.some.inj same, quiet]
  | call env here calls extent rejects ran =>
    subst ran
    exact joined.call served env here calls extent locked
  | @request t job code arg rest rpc result here calls free ran =>
    obtain ⟨steady, contents, id, created, fresh⟩ := served
    obtain ⟨guard, guards⟩ := joined.locked.jobs t job here
    have needs := guards.rest
    rw [calls] at needs
    obtain ⟨⟨type, rfl⟩, _⟩ := needs
    cases ran.symm.trans created
    have after : history.after site (.request t type.code rpc) = { history with
        pending := Function.update history.pending id (some (job.client, type))
        maker := Function.update history.maker id (some t) } := by
      simp only [History.after, created, here, typeOf_code]
    rw [after] at locked ⊢
    exact joined.request steady calls created fresh locked
  | record env here calls records => exact joined.record env here calls records locked
  | leave owner free stays rejects ran => exact joined.leave served owner ran locked
  | handOver leaves => exact joined.handOver leaves locked

theorem joined_of_reachable {state : Site κ ι Contents × History κ ι}
    (reachable : Reachable serving state) : Joined state.1 state.2 := by
  refine @Reachable.invariant _ _ serving (fun state => Joined state.1 state.2) ?_ ?_ _ reachable
  · rintro ⟨site, history⟩ ⟨fresh, begins, root⟩
    have initial : history = .initial site.server := begins
    subst initial
    have coherent : Coherent (site.caches (.initial site.server)) :=
      coherent_of_init
        ⟨fresh.table, fresh.owner, fun _ => rfl, fun _ => rfl, fun _ => rfl, fun _ => rfl⟩
    refine ⟨fresh.locked, fun eid _ => coherent eid, ⟨fun eid known missing => ?_,
      fun client eid entry here => ?_, root⟩, fun lid _ => rfl, fun t job ret id here => ?_⟩
    · exact known (congrArg (Option.map File.data) missing)
    · rw [fresh.table] at here
      cases here
    · rw [fresh.jobs] at here
      cases here
  · rintro ⟨site, history⟩ act ⟨next, history'⟩ joined ⟨served, acts, rfl⟩
    exact joined.kept served acts

end Invariant

section Constructors

variable {κ ι : Type}

/-- The calls of a constructor. -/
def rootOnly : Spec Op.Reply Unit := fun op _ post =>
  (op = .acquire 1 ∨ op = .put 1 [] ∨ op = .release 1) ∧ ∀ reply, post () reply

/-- A constructor has only such calls ahead of it. -/
def Constructors (site : Site κ ι Contents) : Prop :=
  ∀ t job, site.jobs t = some job → job.task = .basic .init →
    job.rest.wp rootOnly () fun _ _ => True

def Act.thread : Act κ ι Contents → Option ι
  | .start t _ _ | .finish t | .acquire t _ | .release t _ | .call t _ _ | .request t _ _
  | .record t _ _ => some t
  | .leave _ _ _ | .handOver _ => none

/-- A constructor takes the step. -/
def Constructing (site : Site κ ι Contents) (act : Act κ ι Contents) : Prop :=
  ∃ t job, act.thread = some t ∧ site.jobs t = some job ∧ job.task = .basic .init

variable [DecidableEq ι] {site next : Site κ ι Contents} {act : Act κ ι Contents}

theorem Constructors.step (constructors : Constructors site) {t : ι} {slot : Option (Job κ)}
    (jobs : next.jobs = Function.update site.jobs t slot)
    (own : ∀ job, slot = some job → job.task = .basic .init →
      job.rest.wp rootOnly () fun _ _ => True) : Constructors next := by
  intro u job here init
  rw [jobs] at here
  by_cases same : u = t
  · subst same
    rw [Function.update_self] at here
    exact own job here init
  · rw [Function.update_of_ne same] at here
    exact constructors u job here init

theorem Constructors.advance (constructors : Constructors site) {t : ι} {job : Job κ}
    (here : site.jobs t = some job) {op : Op} {rest : op.Reply → Action Unit}
    (calls : job.rest = .call op rest) (reply : op.Reply) {recording : Option (Status × Inum)}
    (jobs : next.jobs = Function.update site.jobs t
      (some { job with rest := rest reply, recording := recording })) : Constructors next := by
  refine constructors.step jobs fun job' same init => ?_
  rw [← Option.some.inj same] at init ⊢
  have needs := constructors t job here init
  rw [calls] at needs
  exact needs.2 reply

variable [DecidableEq κ]

theorem Constructors.kept (constructors : Constructors site) (acts : Acts site act next) :
    Constructors next := by
  cases acts with
  | start client task vars free =>
    refine constructors.step rfl fun job same init => ?_
    rw [← Option.some.inj same] at init ⊢
    have task : task = .basic .init := init
    subst task
    exact ⟨.inl rfl, fun _ => ⟨.inr (.inl rfl), fun _ => ⟨.inr (.inr rfl), fun _ => trivial⟩⟩⟩
  | finish here done => exact constructors.step rfl fun job none => by cases none
  | acquire here calls free stays owner => exact constructors.advance here calls _ rfl
  | release here calls => exact constructors.advance here calls _ rfl
  | call env here calls extent rejects ran => exact constructors.advance here calls _ rfl
  | @request t job type arg rest rpc result here calls free ran =>
    refine constructors.step rfl fun job' same init => ?_
    rw [← Option.some.inj same] at init ⊢
    exact constructors t job here init
  | record env here calls records => exact constructors.advance here calls _ rfl
  | leave owner free stays rejects ran => exact constructors
  | handOver leaves => exact constructors

/-- A constructor that finds the root empty puts what is there, and touches no other
extent. -/
theorem Constructors.quiet (constructors : Constructors site) {history : History κ ι}
    (empty : JoinsEmpty site history act) (acts : Acts site act next)
    (constructing : Constructing site act) :
    (history.after site act).latest = history.latest ∧ next.server = site.server ∧
      ∀ client eid, eid ≠ 1 → next.table client eid = site.table client eid := by
  obtain ⟨t, job, thread, here, init⟩ := constructing
  have needs := constructors t job here init
  cases acts with
  | start client task vars free | finish here done | acquire here' calls free stays owner
  | release here' calls => exact ⟨rfl, rfl, fun _ _ _ => rfl⟩
  | @call t' job' op rest eid rpc result env here' calls extent rejects ran =>
    cases thread
    cases here.symm.trans here'
    rw [calls] at needs
    rcases needs.1 with rfl | rfl | rfl
    · cases extent
    · subst ran
      have root := empty job here init
      obtain ⟨slot, put⟩ := @put_frame (site.table job.client) 1 env []
      refine ⟨?_, rfl, fun client eid different => ?_⟩
      · show Function.update history.latest 1 (some []) = history.latest
        rw [← root]
        exact Function.update_eq_self 1 history.latest
      · show Function.update site.table job.client
          (ExtentClientCache.put env 1 [] (site.table job.client)).1 client eid = site.table client eid
        rw [put, slot_update, if_neg fun both => different both.2]
    · cases extent
  | @request t' job' type arg rest rpc result here' calls free ran =>
    cases thread
    cases here.symm.trans here'
    rw [calls] at needs
    rcases needs.1 with create | create | create
    · cases create
    · cases create
    · cases create
  | @record t' job' type arg rest ret id env here' calls records =>
    cases thread
    cases here.symm.trans here'
    rw [calls] at needs
    rcases needs.1 with create | create | create
    · cases create
    · cases create
    · cases create
  | leave owner free stays rejects ran => cases thread
  | handOver leaves => cases thread

theorem constructors_of_reachable {state : Site κ ι Contents × History κ ι}
    (reachable : Reachable serving state) : Constructors state.1 := by
  refine @Reachable.invariant _ _ serving (fun state => Constructors state.1) ?_ ?_ _ reachable
  · rintro ⟨site, history⟩ ⟨fresh, _⟩ t job here
    rw [fresh.jobs] at here
    cases here
  · rintro ⟨site, history⟩ act ⟨next, history'⟩ constructors ⟨_, acts, _⟩
    exact constructors.kept acts

theorem serving_of_joining {state : Site κ ι Contents × History κ ι}
    (reachable : Reachable joining state) : Reachable serving state :=
  reachable.mono (fun _ begins => begins) fun _ _ _ steps => steps.2

/-- If every constructor finds the root empty, none changes what is put last on any
extent, and the owner of a lock always reads that; it finds every entry of the root. -/
theorem joining_transparent {state : Site κ ι Contents × History κ ι}
    (reachable : Reachable joining state) :
    (∀ act next, joining.step state act next → Constructing state.1 act →
      next.2.latest = state.2.latest ∧ next.1.server = state.1.server ∧
        ∀ client eid, eid ≠ 1 → next.1.table client eid = state.1.table client eid) ∧
    (∀ eid client data, state.2.gone eid = false → state.1.owner eid = some client →
      state.2.latest eid = some data → ∀ rpc, Faithful rpc → ∀ env buf, ∃ result,
        ExtentClientCache.get rpc env eid buf (state.1.table client) state.1.server =
          (result, .OK, data)) ∧
    ∀ client listing, state.2.gone 1 = false → state.1.owner 1 = some client →
      state.2.latest 1 = some (textOf listing) → Proper 1 listing →
      (∀ entry, state.1.table client 1 = some entry → entry.attr.type = ExtentType.T_DIR.code) →
      ∀ rpc, Faithful rpc → ∀ vars env,
        (∀ list, ∃ next, (YfsClient.readdir vars 1 list).run (handle rpc env)
            (state.1.table client, state.1.server) =
          (next, Result.OK, list ++ listing.map fun entry => ⟨entry.1, entry.2⟩)) ∧
        ∀ name found inoOut, ∃ next, (YfsClient.lookup vars 1 name found inoOut).run (handle rpc env)
            (state.1.table client, state.1.server) =
          (next, match listing.find? (·.1 = name) with
            | some entry => (Result.OK, true, entry.2)
            | none => (Result.IOERR, false, inoOut)) := by
  have served := serving_of_joining reachable
  have joined := joined_of_reachable served
  refine ⟨fun act next step constructing => ?_,
    fun eid client data kept owner latest rpc faithful env buf => ?_,
    fun client listing kept owner latest proper typed rpc faithful vars env => ?_⟩
  · obtain ⟨empty, _, acts, after⟩ := step
    rw [after]
    exact (constructors_of_reachable served).quiet empty acts constructing
  · have reads := (joined.coherent eid kept).owner_reads owner latest
    obtain ⟨entry, ran, _⟩ := ExtentClientCache.get_ok faithful env buf reads
    exact ⟨_, ran⟩
  · have holds : Holds 1 (textOf listing) (state.1.table client, state.1.server) := by
      refine ⟨(joined.coherent 1 kept).owner_reads owner latest, typed, fun _ file found => ?_⟩
      have root := joined.stocked.root
      rw [show state.1.server 1 = some file from found] at root
      exact Option.some.inj root
    refine ⟨fun list => ?_, fun name found inoOut => ?_⟩
    · obtain ⟨next, ran, _⟩ := readdir_ok faithful proper holds vars env list
      exact ⟨next, ran⟩
    · obtain ⟨next, ran, _⟩ := lookup_ok faithful proper holds vars env name found inoOut
      exact ⟨next, ran⟩

end Constructors

def untouched (contents : Contents) : Site Bool Unit Contents × History Bool Unit :=
  (⟨contents, fun _ _ => none, fun _ => none, fun _ => false, fun _ => none, fun _ => none⟩,
    .initial contents)

theorem untouched_init {contents : Contents} (root : (contents 1).map File.type = some .T_DIR) :
    serving.init (untouched contents) :=
  ⟨⟨fun _ _ => rfl, fun _ => rfl, fun _ => rfl, fun _ => rfl, fun _ => rfl⟩, rfl, root⟩

/-- A client joins over an empty root, creates two files and hands the root over; another
one reads it. -/
theorem joining_transparent_read : ∃ (state : Site Bool Unit Contents × History Bool Unit)
    (next : Table × Contents), Reachable joining state ∧ state.1.owner 1 = some true ∧
    (YfsClient.readdir ⟨⟨0, 0, 0, 0, 0⟩, 0⟩ 1 []).run (handle (plain 4) ⟨0, ⟨0, 0, 0, 0, 0⟩⟩)
      (state.1.table true, state.1.server) = (next, Result.OK, [⟨[97], 2⟩, ⟨[98], 3⟩]) := by
  let env : Ambient := ⟨0, ⟨0, 0, 0, 0, 0⟩⟩
  let vars : Locals := ⟨env.junk, 0⟩
  let contents : Contents := fun id => if id = 1 then some ⟨.T_DIR, []⟩ else none
  have begins : Reachable joining (untouched contents) := ⟨[], .start (untouched_init rfl)⟩
  have begun := begins.extend (show joining.step _ (.start () false (.basic .init)) (_, _) from
    ⟨trivial, fun none => (by cases none), .start false (.basic .init) vars rfl, rfl⟩)
  have taken := begun.extend (show joining.step _ (.acquire () 1) (_, _) from
    ⟨trivial, trivial, .acquire rfl rfl rfl rfl (.inr rfl), rfl⟩)
  have written := taken.extend (show joining.step _ (.call () (.put 1 []) (plain 2)) (_, _) from
    ⟨fun _ _ _ => rfl, steady_plain 2, .call env rfl rfl rfl (steady_plain 2).rejects_all rfl, rfl⟩)
  have freed := written.extend (show joining.step _ (.release () 1) (_, _) from
    ⟨trivial, trivial, .release rfl rfl, rfl⟩)
  have ended := freed.extend (show joining.step _ (.finish ()) (_, _) from
    ⟨trivial, trivial, .finish rfl rfl, rfl⟩)
  -- It creates file 2.
  have opens₁ := ended.extend (show joining.step _ (.start () false (.basic (.create 1 [97] 0))) (_, _)
    from ⟨trivial, fun none => (by cases none), .start false (.basic (.create 1 [97] 0)) vars rfl, rfl⟩)
  have takes₁ := opens₁.extend (show joining.step _ (.acquire () 1) (_, _) from
    ⟨trivial, trivial, .acquire rfl rfl rfl rfl (.inl rfl), rfl⟩)
  have asks₁ := takes₁.extend (show joining.step _ (.request () 2 (plain 2)) (_, _) from
    ⟨trivial, ⟨steady_plain 2, _, 2, rfl, rfl⟩, .request rfl rfl rfl rfl, rfl⟩)
  have made₁ := asks₁.extend (show joining.step _ (.record () 2 2) (_, _) from
    ⟨trivial, trivial, .record env rfl rfl rfl, rfl⟩)
  have got₁ := made₁.extend (show joining.step _ (.call () (.get 1 []) (plain 2)) (_, _) from
    ⟨trivial, steady_plain 2, .call env rfl rfl rfl (steady_plain 2).rejects_all rfl, rfl⟩)
  have put₁ := got₁.extend (show joining.step _ (.call () (.put 1 _) (plain 2)) (_, _) from
    ⟨fun job here init => (by cases here; cases init), steady_plain 2,
      .call env rfl rfl rfl (steady_plain 2).rejects_all rfl, rfl⟩)
  have freed₁ := put₁.extend (show joining.step _ (.release () 1) (_, _) from
    ⟨trivial, trivial, .release rfl rfl, rfl⟩)
  have ends₁ := freed₁.extend (show joining.step _ (.finish ()) (_, _) from
    ⟨trivial, trivial, .finish rfl rfl, rfl⟩)
  -- It creates file 3.
  have opens₂ := ends₁.extend (show joining.step _ (.start () false (.basic (.create 1 [98] 0))) (_, _)
    from ⟨trivial, fun none => (by cases none), .start false (.basic (.create 1 [98] 0)) vars rfl, rfl⟩)
  have takes₂ := opens₂.extend (show joining.step _ (.acquire () 1) (_, _) from
    ⟨trivial, trivial, .acquire rfl rfl rfl rfl (.inl rfl), rfl⟩)
  have asks₂ := takes₂.extend (show joining.step _ (.request () 2 (plain 3)) (_, _) from
    ⟨trivial, ⟨steady_plain 3, _, 3, rfl, rfl⟩, .request rfl rfl rfl rfl, rfl⟩)
  have made₂ := asks₂.extend (show joining.step _ (.record () 2 3) (_, _) from
    ⟨trivial, trivial, .record env rfl rfl rfl, rfl⟩)
  have got₂ := made₂.extend (show joining.step _ (.call () (.get 1 []) (plain 3)) (_, _) from
    ⟨trivial, steady_plain 3, .call env rfl rfl rfl (steady_plain 3).rejects_all rfl, rfl⟩)
  have put₂ := got₂.extend (show joining.step _ (.call () (.put 1 _) (plain 3)) (_, _) from
    ⟨fun job here init => (by cases here; cases init), steady_plain 3,
      .call env rfl rfl rfl (steady_plain 3).rejects_all rfl, rfl⟩)
  have freed₂ := put₂.extend (show joining.step _ (.release () 1) (_, _) from
    ⟨trivial, trivial, .release rfl rfl, rfl⟩)
  have ends₂ := freed₂.extend (show joining.step _ (.finish ()) (_, _) from
    ⟨trivial, trivial, .finish rfl rfl, rfl⟩)
  have flushed := ends₂.extend (show joining.step _ (.leave false 1 (plain 2)) (_, _) from
    ⟨trivial, steady_plain 2, .leave rfl rfl rfl (steady_plain 2).rejects_all rfl, rfl⟩)
  have handed := flushed.extend (show joining.step _ (.handOver 1) (_, _) from
    ⟨trivial, trivial, .handOver rfl, rfl⟩)
  have started := handed.extend (show joining.step _ (.start () true (.readdir 1 [])) (_, _) from
    ⟨trivial, fun none => (by cases none), .start true (.readdir 1 []) vars rfl, rfl⟩)
  have reads := started.extend (show joining.step _ (.acquire () 1) (_, _) from
    ⟨trivial, trivial, .acquire rfl rfl rfl rfl (.inr rfl), rfl⟩)
  have latest : _ = some (textOf [([97], 2), ([98], 3)]) := rfl
  obtain ⟨next, ran⟩ := ((joining_transparent reads).2.2 true [([97], 2), ([98], 3)] rfl rfl latest
    (by simp [Proper]) (fun entry here => by cases here) _ (faithful_plain 4) vars env).1 []
  exact ⟨_, next, reads, rfl, ran⟩

/-- A client joins over a root with an entry. The owner of lock 1 reads the entry before
the put; after the hand-over another client reads an empty root. -/
theorem root_wiped : ∃ (before last : Site Bool Unit Contents × History Bool Unit)
    (found lost : Table × Contents),
    Run serving [.start () false (.basic .init), .acquire () 1] before ∧
    ExtentClientCache.get (plain 3) ⟨0, ⟨0, 0, 0, 0, 0⟩⟩ 1 [] (before.1.table false)
      before.1.server = (found, .OK, textOf [([97], 2)]) ∧
    Run serving [.start () false (.basic .init), .acquire () 1, .call () (.put 1 []) (plain 3),
      .release () 1, .finish (), .leave false 1 (plain 3), .handOver 1,
      .start () true (.readdir 1 []), .acquire () 1] last ∧
    last.1.owner 1 = some true ∧ last.2.gone 1 = false ∧
    ExtentClientCache.get (plain 3) ⟨0, ⟨0, 0, 0, 0, 0⟩⟩ 1 [] (last.1.table true) last.1.server =
      (lost, .OK, []) := by
  let env : Ambient := ⟨0, ⟨0, 0, 0, 0, 0⟩⟩
  let vars : Locals := ⟨env.junk, 0⟩
  let contents : Contents := fun id =>
    if id = 1 then some ⟨.T_DIR, textOf [([97], 2)]⟩ else if id = 2 then some ⟨.T_FILE, []⟩ else none
  have begins : Run serving [] (untouched contents) := .start (untouched_init rfl)
  have begun := begins.extend (show serving.step _ (.start () false (.basic .init)) (_, _) from
    ⟨fun none => (by cases none), .start false (.basic .init) vars rfl, rfl⟩)
  have taken := begun.extend (show serving.step _ (.acquire () 1) (_, _) from
    ⟨trivial, .acquire rfl rfl rfl rfl (.inr rfl), rfl⟩)
  have written := taken.extend (show serving.step _ (.call () (.put 1 []) (plain 3)) (_, _) from
    ⟨steady_plain 3, .call env rfl rfl rfl (steady_plain 3).rejects_all rfl, rfl⟩)
  have freed := written.extend (show serving.step _ (.release () 1) (_, _) from
    ⟨trivial, .release rfl rfl, rfl⟩)
  have ended := freed.extend (show serving.step _ (.finish ()) (_, _) from
    ⟨trivial, .finish rfl rfl, rfl⟩)
  have flushed := ended.extend (show serving.step _ (.leave false 1 (plain 3)) (_, _) from
    ⟨steady_plain 3, .leave rfl rfl rfl (steady_plain 3).rejects_all rfl, rfl⟩)
  have handed := flushed.extend (show serving.step _ (.handOver 1) (_, _) from
    ⟨trivial, .handOver rfl, rfl⟩)
  have started := handed.extend (show serving.step _ (.start () true (.readdir 1 [])) (_, _) from
    ⟨fun none => (by cases none), .start true (.readdir 1 []) vars rfl, rfl⟩)
  have reads := started.extend (show serving.step _ (.acquire () 1) (_, _) from
    ⟨trivial, .acquire rfl rfl rfl rfl (.inr rfl), rfl⟩)
  exact ⟨_, _, _, _, taken, rfl, reads, rfl, rfl, rfl⟩

end NaiveFileSystem.Yfs
