import NaiveFileSystem.Yfs.Clients

/-!
# Attribute coherence of the clients

In every considerate run the holder of a lock finds the size of the content it
reads, and `setattr` leaves exactly the bytes asked for. A thread's program is
judged by the lock discipline, with what the thread knows: it alone changes the
content under its lock.
-/

namespace NaiveFileSystem.Yfs

open Extent Cache Transition Program

variable {κ ι : Type}

def HoldsLock (world : World κ ι) (t : ι) (thread : Thread κ) : Option (Inum × Bytes × Bytes) → Prop
  | none => thread.held = none ∧ ∀ lid, world.holder lid ≠ some t
  | some (lid, start, now) => thread.held = some (lid, start) ∧
    (∀ other, world.holder other = some t ↔ other = lid) ∧
    world.caches.owner lid = some thread.client ∧ world.caches.latest lid = some now

/-- The rest of the thread's program keeps to the discipline. -/
def ThreadOk (world : World κ ι) (t : ι) (thread : Thread κ) : Prop :=
  (∀ type id, thread.recording = some (type, id) →
    world.caches.pending id = some (thread.client, type)) ∧
  ∃ knows : Knows, (∀ ino, knows.live ino → world.caches.latest ino ≠ none) ∧
    HoldsLock world t thread knows.held ∧
    thread.rest.wp (discipline thread.call.promise) knows fun after _ => after.held = none

structure WorldOk (world : World κ ι) : Prop where
  coherent : Coherent world.caches
  awaited : Awaited world.caches
  sized : Sized world.caches
  threads : ∀ t thread, world.threads t = some thread → ThreadOk world t thread
  held : ∀ lid t, world.holder lid = some t → world.threads t ≠ none
  recording : ∀ t u first second type type' id, world.threads t = some first →
    world.threads u = some second → first.recording = some (type, id) →
    second.recording = some (type', id) → t = u

theorem HoldsLock.congr {world next : World κ ι} {t : ι} {thread thread' : Thread κ}
    {held : Option (Inum × Bytes × Bytes)}
    (lock : HoldsLock world t thread held) (ghost : thread'.held = thread.held)
    (client : thread'.client = thread.client)
    (holder : ∀ lid, next.holder lid = some t ↔ world.holder lid = some t)
    (owner : ∀ lid, world.holder lid = some t → next.caches.owner lid = world.caches.owner lid)
    (latest : ∀ lid, world.holder lid = some t → next.caches.latest lid = world.caches.latest lid) :
    HoldsLock next t thread' held := by
  cases held with
  | none =>
    obtain ⟨none, free⟩ := lock
    exact ⟨ghost.trans none, fun lid same => free lid ((holder lid).mp same)⟩
  | some lock' =>
    obtain ⟨lid, start, now⟩ := lock'
    obtain ⟨here, mine, owns, content⟩ := lock
    have held := (mine lid).mpr rfl
    refine ⟨ghost.trans here, fun other => (holder other).trans (mine other), ?_, ?_⟩
    · rw [owner lid held, owns, client]
    · rw [latest lid held, content]

structure Spared (world next : World κ ι) (t : ι) (thread : Thread κ) : Prop where
  latest : ∀ ino, world.caches.latest ino ≠ none → next.caches.latest ino ≠ none
  holder : ∀ lid, next.holder lid = some t ↔ world.holder lid = some t
  owner : ∀ lid, world.holder lid = some t → next.caches.owner lid = world.caches.owner lid
  content : ∀ lid, world.holder lid = some t → next.caches.latest lid = world.caches.latest lid
  pending : ∀ type id, thread.recording = some (type, id) →
    next.caches.pending id = world.caches.pending id

theorem ThreadOk.spared {world next : World κ ι} {t : ι} {thread : Thread κ}
    (ok : ThreadOk world t thread) (spared : Spared world next t thread) :
    ThreadOk next t thread := by
  obtain ⟨recorded, knows, live, held, rest⟩ := ok
  refine ⟨fun type id here => ?_, knows, fun ino known => spared.latest ino (live ino known),
    held.congr rfl rfl spared.holder spared.owner spared.content, rest⟩
  rw [spared.pending type id here]
  exact recorded type id here

theorem HoldsLock.inv {world : World κ ι} {t : ι} {thread : Thread κ}
    {held : Option (Inum × Bytes × Bytes)} {lid : Inum} {start now : Bytes}
    (lock : HoldsLock world t thread held) (locked : held = some (lid, start, now)) :
    thread.held = some (lid, start) ∧ (∀ other, world.holder other = some t ↔ other = lid) ∧
      world.caches.owner lid = some thread.client ∧ world.caches.latest lid = some now := by
  rw [locked] at lock
  exact lock

section Calls

variable [DecidableEq κ] {world : World κ ι} {t : ι} {thread : Thread κ}

/-- A call of the cache, seen from the lock discipline: it is allowed, changes no
lock, and no content but that under the thread's own lock. -/
structure Disciplines (world : World κ ι) (t : ι) (thread : Thread κ) (label : Label κ)
    (after : State κ) (rest : Action Unit) : Prop where
  allowed : Allowed world.caches label
  known : Known world.caches label
  owner : after.owner = world.caches.owner
  pending : after.pending = world.caches.pending
  live : ∀ ino, world.caches.latest ino ≠ none → after.latest ino ≠ none
  content : ∀ lid, world.holder lid ≠ some t → after.latest lid = world.caches.latest lid
  knows : ∃ knows : Knows, (∀ ino, knows.live ino → world.caches.latest ino ≠ none) ∧
    HoldsLock { world with caches := after } t thread knows.held ∧
    rest.wp (discipline thread.call.promise) knows fun after _ => after.held = none

omit [DecidableEq κ] in
/-- A call that changes no lock and no content. -/
theorem Disciplines.quiet {label : Label κ} {after : State κ} {rest : Action Unit} {knows : Knows}
    (allowed : Allowed world.caches label) (known : Known world.caches label)
    (owner : after.owner = world.caches.owner) (pending : after.pending = world.caches.pending)
    (latest : after.latest = world.caches.latest)
    (live : ∀ ino, knows.live ino → world.caches.latest ino ≠ none)
    (lock : HoldsLock world t thread knows.held)
    (goes : rest.wp (discipline thread.call.promise) knows fun after _ => after.held = none) :
    Disciplines world t thread label after rest where
  allowed := allowed
  known := known
  owner := owner
  pending := pending
  live ino known := by rwa [latest]
  content lid _ := by rw [latest]
  knows := ⟨knows, live, lock.congr rfl rfl (fun _ => Iff.rfl) (fun _ _ => congrFun owner _)
    fun _ _ => congrFun latest _, goes⟩

theorem disciplines_of_answered (ok : WorldOk world) (here : world.threads t = some thread) {op : Op}
    {rest : op.Reply → Action Unit} {reply : op.Reply} {label : Label κ} {after : State κ}
    (calls : thread.rest = .call op rest) (answered : Answered thread.client op reply label)
    (effect : Effect world.caches label after) :
    Disciplines world t thread label after (rest reply) := by
  obtain ⟨recorded, knows, live, lock, needs⟩ := ok.threads t thread here
  rw [calls] at needs
  cases answered with
  | @get eid buf ret reply =>
    obtain ⟨start, now, locked, goes⟩ := needs
    obtain ⟨_, _, owner, latest⟩ := lock.inv locked
    cases effect with
    | get env arg faithful _ ran =>
      obtain ⟨entry, got, _⟩ := ExtentClientCache.get_ok faithful env arg
        ((ok.coherent eid).owner_reads owner latest)
      cases got.symm.trans ran
      exact .quiet ⟨owner, by simp [latest]⟩ trivial rfl rfl rfl live lock goes
  | @getattr eid attr ret reply =>
    obtain ⟨known, goes⟩ := needs
    cases effect with
    | getattr arg faithful _ _ ran =>
      obtain ⟨_, a, asked⟩ := @ExtentClientCache.getattr_status _ _ world.caches.server eid faithful
        arg ((ok.coherent eid).not_removed (live eid known))
      cases asked.symm.trans ran
      refine .quiet trivial trivial rfl rfl rfl live lock (goes _ fun start now locked => ?_)
      obtain ⟨_, _, owner, latest⟩ := lock.inv locked
      obtain ⟨_, _, sized, size⟩ := ok.sized.owner_size ok.coherent owner latest faithful arg
      cases sized.symm.trans asked
      exact size
  | @put eid buf ret =>
    obtain ⟨start, now, locked, goes⟩ := needs
    obtain ⟨ghost, mine, owner, latest⟩ := lock.inv locked
    cases effect with
    | put env _ ran =>
      obtain ⟨_, stored, _⟩ := ExtentClientCache.put_ok env buf
        ((ok.coherent eid).owner_reads owner latest).not_removed
      cases stored.symm.trans ran
      refine ⟨⟨owner, by simp [latest]⟩, trivial, rfl, rfl, fun ino known => ?_, fun lid other => ?_,
        { knows with held := some (eid, start, buf) }, live, ⟨ghost, mine, owner, ?_⟩, goes⟩
      · by_cases same : ino = eid
        · simp [same]
        · simpa [same] using known
      · have different : lid ≠ eid := fun same => other ((mine lid).mpr same)
        simp [different]
      · simp
  | @flush eid ret =>
    obtain ⟨start, now, locked, goes⟩ := needs
    obtain ⟨_, _, owner, latest⟩ := lock.inv locked
    cases effect with
    | flush faithful _ ran =>
      exact .quiet owner trivial rfl rfl rfl live lock (goes ret)

theorem disciplines_of_ask (ok : WorldOk world) (here : world.threads t = some thread)
    {eid : ExtentId} {arg : Attr} {rest : Status × Attr → Action Unit} {attr : Attr} {after : State κ}
    (calls : thread.rest = .call (.getattr eid arg) rest)
    (effect : Effect world.caches (.ask thread.client eid attr) after) :
    Disciplines world t thread (.ask thread.client eid attr) after thread.rest := by
  obtain ⟨recorded, knows, live, lock, needs⟩ := ok.threads t thread here
  have known : knows.live eid := by
    rw [calls] at needs
    exact needs.1
  cases effect with
  | ask faithful _ _ ran =>
    exact .quiet trivial (live eid known) rfl rfl rfl live lock needs

theorem disciplines_of_note (ok : WorldOk world) (here : world.threads t = some thread)
    {eid : ExtentId} {arg : Attr} {rest : Status × Attr → Action Unit} {attr : Attr} {after : State κ}
    (calls : thread.rest = .call (.getattr eid arg) rest)
    (effect : Effect world.caches (.note thread.client eid attr) after) :
    Disciplines world t thread (.note thread.client eid attr) after (rest (.OK, attr)) := by
  obtain ⟨recorded, knows, live, lock, needs⟩ := ok.threads t thread here
  rw [calls] at needs
  obtain ⟨known, goes⟩ := needs
  cases effect with
  | note asked =>
    refine .quiet trivial trivial rfl rfl rfl live lock (goes attr fun start now locked => ?_)
    obtain ⟨_, _, owner, latest⟩ := lock.inv locked
    exact ok.sized.answer_size ok.coherent ok.awaited owner latest asked

theorem handOver_ok (ok : WorldOk world) {client : κ} {lid : Inum} {ret : Status} {after : State κ}
    (owner : world.caches.owner lid = some client) (free : world.holder lid = none)
    (effect : Effect world.caches (.flush client lid ret) after)
    (spares : Spares world.caches (.flush client lid ret)) :
    WorldOk { world with
      caches := { after with owner := Function.update after.owner lid none } } := by
  have allowed : Allowed world.caches (.flush client lid ret) := owner
  have coherent : Coherent after := ok.coherent.kept ok.awaited allowed effect
  have awaited : Awaited after := ok.awaited.kept effect
  have sized : Sized after := ok.sized.kept ok.coherent allowed trivial spares effect
  cases effect with
  | @flush client eid rpc result ret faithful _ ran =>
    have idle : ((world.caches.after client result).use lid false).used lid = false :=
      Function.update_self _ _ _
    have others : ∀ other u, world.holder other = some u → other ≠ lid := by
      rintro other u held rfl
      cases free.symm.trans held
    refine ⟨coherent.handOver idle none, awaited,
      fun eid => ⟨(sized eid).known, (sized eid).slots, (sized eid).asked, (sized eid).short⟩,
      fun t thread here => (ok.threads t thread here).spared ?_, ok.held, ok.recording⟩
    exact ⟨fun _ known => known, fun _ => Iff.rfl, fun other held =>
      Function.update_of_ne (others other t held) _ _, fun _ _ => rfl, fun _ _ _ => rfl⟩

end Calls

section Steps

variable [DecidableEq ι] {world next : World κ ι} {t : ι} {thread : Thread κ}

theorem WorldOk.step (ok : WorldOk world) {slot : Option (Thread κ)}
    (threads : next.threads = Function.update world.threads t slot)
    (coherent : Coherent next.caches) (awaited : Awaited next.caches) (sized : Sized next.caches)
    (own : ∀ thread', slot = some thread' → ThreadOk next t thread')
    (others : ∀ u thread', u ≠ t → world.threads u = some thread' → Spared world next u thread')
    (holder : ∀ lid u, next.holder lid = some u →
      (u = t ∧ slot ≠ none) ∨ (u ≠ t ∧ world.holder lid = some u))
    (recording : ∀ thread' type id, slot = some thread' → thread'.recording = some (type, id) →
      ∀ u other type', u ≠ t → world.threads u = some other → other.recording ≠ some (type', id)) :
    WorldOk next where
  coherent := coherent
  awaited := awaited
  sized := sized
  threads u thread' here := by
    rw [threads] at here
    by_cases same : u = t
    · subst same
      rw [Function.update_self] at here
      exact own thread' here
    · rw [Function.update_of_ne same] at here
      exact (ok.threads u thread' here).spared (others u thread' same here)
  held lid u here := by
    rw [threads]
    rcases holder lid u here with ⟨rfl, some⟩ | ⟨different, old⟩
    · rwa [Function.update_self]
    · rw [Function.update_of_ne different]
      exact ok.held lid u old
  recording u v first second type type' id here here' records records' := by
    rw [threads] at here here'
    by_cases same : u = t <;> by_cases same' : v = t
    · rw [same, same']
    · rw [same, Function.update_self] at here
      rw [Function.update_of_ne same'] at here'
      exact absurd records' (recording first type id here records v second type' same' here')
    · rw [Function.update_of_ne same] at here
      rw [same', Function.update_self] at here'
      exact absurd records (recording second type' id here' records' u first type same here)
    · rw [Function.update_of_ne same] at here
      rw [Function.update_of_ne same'] at here'
      exact ok.recording u v first second type type' id here here' records records'

theorem start_ok (ok : WorldOk world) {client : κ} {call : Call} (vars : Locals)
    (free : world.threads t = none) (live : world.caches.latest call.inum ≠ none) :
    WorldOk (world.set t (some ⟨client, call, call.body vars, none, false, none⟩)) := by
  refine ok.step rfl ok.coherent ok.awaited ok.sized (fun thread' here => ?_) (fun u thread' different _ =>
    ⟨fun _ known => known, fun _ => Iff.rfl, fun _ _ => rfl, fun _ _ => rfl, fun _ _ _ => rfl⟩)
    (fun lid u here => .inr ⟨?_, here⟩) fun thread' type id here records => ?_
  · rw [← Option.some.inj here]
    refine ⟨fun _ _ none => (by cases none), ⟨fun ino => ino = call.inum, none⟩, ?_, ⟨rfl, ?_⟩,
      disciplined vars call _ rfl⟩
    · rintro ino rfl
      exact live
    · exact fun lid here => ok.held lid t here free
  · rintro rfl
    exact ok.held lid u here free
  · rw [← Option.some.inj here] at records
    cases records

theorem finish_ok (ok : WorldOk world) (here : world.threads t = some thread)
    (done : thread.rest = .done ()) : WorldOk (world.set t none) := by
  obtain ⟨_, knows, _, lock, rest⟩ := ok.threads t thread here
  rw [done] at rest
  have unlocked : knows.held = none := rest
  rw [unlocked] at lock
  refine ok.step rfl ok.coherent ok.awaited ok.sized (fun thread' none => (by cases none))
    (fun u thread' _ _ =>
      ⟨fun _ known => known, fun _ => Iff.rfl, fun _ _ => rfl, fun _ _ => rfl, fun _ _ _ => rfl⟩)
    (fun lid u held => .inr ⟨?_, held⟩) fun thread' type id none => by cases none
  rintro rfl
  exact lock.2 lid held

theorem acquire_ok (ok : WorldOk world) (here : world.threads t = some thread) {lid : Inum}
    {rest : Unit → Action Unit} (calls : thread.rest = .call (.acquire lid) rest)
    (free : world.holder lid = none)
    (owner : world.caches.owner lid = some thread.client ∨ world.caches.owner lid = none) :
    WorldOk (World.set { world with
        caches := { world.caches with
          owner := Function.update world.caches.owner lid (some thread.client) }
        holder := Function.update world.holder lid (some t) } t
      (some { thread with
        rest := rest (), held := some (lid, (world.caches.latest lid).getD []) })) := by
  obtain ⟨recorded, knows, live, lock, needs⟩ := ok.threads t thread here
  rw [calls] at needs
  obtain ⟨known, unlocked, after⟩ := needs
  rw [unlocked] at lock
  obtain ⟨data, latest⟩ := Option.ne_none_iff_exists'.mp (live lid known)
  have others : ∀ other u, world.holder other = some u → other ≠ lid := by
    rintro other u held rfl
    cases free.symm.trans held
  refine ok.step rfl ?_ ok.awaited ?_ (fun thread' same => ?_) (fun u thread' different _ => ?_)
    (fun other u held => ?_) fun thread' type id same records u other type' different there clash => ?_
  · rcases owner with mine | none
    · have same : Function.update world.caches.owner lid (some thread.client) =
          world.caches.owner := by
        rw [← mine]
        exact Function.update_eq_self lid _
      show Coherent { world.caches with owner := _ }
      rw [same]
      exact ok.coherent
    · exact ok.coherent.handOver (ok.coherent.not_used none) _
  · exact fun eid =>
      ⟨(ok.sized eid).known, (ok.sized eid).slots, (ok.sized eid).asked, (ok.sized eid).short⟩
  · rw [← Option.some.inj same]
    refine ⟨recorded, { knows with held := some (lid, data, data) }, live, ?_, after data⟩
    refine ⟨by rw [latest, Option.getD_some], fun other => ?_, Function.update_self _ _ _, latest⟩
    by_cases same : other = lid
    · simp [World.set, same]
    · simp [World.set, same, lock.2 other]
  · refine ⟨fun _ known => known, fun other => ?_, fun other held => ?_, fun _ _ => rfl,
      fun _ _ _ => rfl⟩
    · by_cases same : other = lid
      · simp [World.set, same, free, different.symm]
      · simp [World.set, same]
    · exact Function.update_of_ne (others other u held) _ _
  · by_cases same : other = lid
    · have mine : u = t := by simpa [World.set, same, eq_comm] using held
      exact .inl ⟨mine, by simp⟩
    · have old : world.holder other = some u := by simpa [World.set, same] using held
      refine .inr ⟨?_, old⟩
      rintro rfl
      exact lock.2 other old
  · rw [← Option.some.inj same] at records
    exact different (ok.recording t u thread other type type' id here there records clash).symm

theorem release_ok (ok : WorldOk world) (here : world.threads t = some thread) {lid : Inum}
    {rest : Unit → Action Unit} (calls : thread.rest = .call (.release lid) rest) :
    WorldOk (World.set { world with holder := Function.update world.holder lid none } t
      (some { thread with rest := rest (), held := none })) := by
  obtain ⟨recorded, knows, live, lock, needs⟩ := ok.threads t thread here
  rw [calls] at needs
  obtain ⟨start, now, locked, _, after⟩ := needs
  rw [locked] at lock
  obtain ⟨_, mine, _, _⟩ := lock
  refine ok.step rfl ok.coherent ok.awaited ok.sized (fun thread' same => ?_) (fun u thread' different _ => ?_)
    (fun other u held => ?_) fun thread' type id same records u other type' different there clash => ?_
  · rw [← Option.some.inj same]
    refine ⟨recorded, { knows with held := none }, live, ⟨rfl, fun other held => ?_⟩, after⟩
    by_cases same : other = lid
    · simp [World.set, same] at held
    · simp only [World.set, Function.update_of_ne same] at held
      exact same ((mine other).mp held)
  · refine ⟨fun _ known => known, fun other => ?_, fun _ _ => rfl, fun _ _ => rfl, fun _ _ _ => rfl⟩
    by_cases same : other = lid
    · have held : world.holder lid = some t := (mine lid).mpr rfl
      simp [World.set, same, held, different.symm]
    · simp [World.set, same]
  · by_cases same : other = lid
    · simp [World.set, same] at held
    · have old : world.holder other = some u := by simpa [World.set, same] using held
      refine .inr ⟨?_, old⟩
      rintro rfl
      exact same ((mine other).mp old)
  · rw [← Option.some.inj same] at records
    exact different (ok.recording t u thread other type type' id here there records clash).symm

variable [DecidableEq κ]

theorem call_ok (ok : WorldOk world) (here : world.threads t = some thread) {rest : Action Unit}
    {label : Label κ} {after : State κ} (disciplines : Disciplines world t thread label after rest)
    (effect : Effect world.caches label after) (spares : Spares world.caches label) (asking : Bool) :
    WorldOk (World.set { world with caches := after } t
      (some { thread with rest := rest, asking := asking })) := by
  obtain ⟨allowed, known, owner, pending, live, content, knows, exist, lock, goes⟩ := disciplines
  refine ok.step rfl (ok.coherent.kept ok.awaited allowed effect) (ok.awaited.kept effect)
    (ok.sized.kept ok.coherent allowed known spares effect) (fun thread' same => ?_)
    (fun u thread' different _ => ⟨live, fun _ => Iff.rfl, fun _ _ => ?_, fun lid held => ?_,
      fun _ _ _ => ?_⟩)
    (fun lid u held => ?_) fun thread' type id same records u other type' different there clash => ?_
  · rw [← Option.some.inj same]
    refine ⟨fun type id records => ?_, knows, fun ino known => live ino (exist ino known),
      lock.congr rfl rfl (fun _ => Iff.rfl) (fun _ _ => rfl) fun _ _ => rfl, goes⟩
    show after.pending id = _
    rw [pending]
    exact (ok.threads t thread here).1 type id records
  · show after.owner _ = _
    rw [owner]
  · refine content lid fun mine => different ?_
    exact Option.some.inj (held.symm.trans mine)
  · show after.pending _ = _
    rw [pending]
  · by_cases mine : u = t
    · exact .inl ⟨mine, by simp⟩
    · exact .inr ⟨mine, held⟩
  · rw [← Option.some.inj same] at records
    exact different (ok.recording t u thread other type type' id here there records clash).symm

theorem request_ok (ok : WorldOk world) (here : world.threads t = some thread) {type : ExtentType}
    {id : Inum} {after : State κ}
    (effect : Effect world.caches (.request thread.client type id) after) :
    WorldOk (World.set { world with caches := after } t
      (some { thread with recording := some (type, id) })) := by
  obtain ⟨recorded, knows, live, lock, needs⟩ := ok.threads t thread here
  have fresh : ∀ u other type' id', world.threads u = some other →
      other.recording = some (type', id') → world.caches.server id = none → id' ≠ id := by
    rintro u other type' id' there records unknown rfl
    have pending := (ok.threads u other there).1 type' id' records
    rw [((ok.coherent id').pending _ _ pending).1] at unknown
    cases unknown
  have allowed : Allowed world.caches (.request thread.client type id) := trivial
  have coherent : Coherent after := ok.coherent.kept ok.awaited allowed effect
  have awaited : Awaited after := ok.awaited.kept effect
  have sized : Sized after := ok.sized.kept ok.coherent allowed trivial trivial effect
  cases effect with
  | request faithful ran unknown =>
    refine ok.step rfl coherent awaited sized (fun thread' same => ?_)
      (fun u thread' _ there => ⟨fun _ known => known, fun _ => Iff.rfl, fun _ _ => rfl,
        fun _ _ => rfl, fun type' id' records => ?_⟩)
      (fun lid u held => ?_)
      fun thread' type' id' same records u other type'' different there clash => ?_
    · rw [← Option.some.inj same]
      refine ⟨fun type' id' records => ?_, knows, live,
        lock.congr rfl rfl (fun _ => Iff.rfl) (fun _ _ => rfl) fun _ _ => rfl, needs⟩
      cases records
      exact Function.update_self _ _ _
    · exact Function.update_of_ne (fresh u thread' type' id' there records unknown) _ _
    · by_cases mine : u = t
      · exact .inl ⟨mine, by simp⟩
      · exact .inr ⟨mine, held⟩
    · rw [← Option.some.inj same] at records
      cases records
      exact fresh u other type'' id there clash unknown rfl

theorem record_ok (ok : WorldOk world) (here : world.threads t = some thread) {type : ExtentType}
    {code : UInt32} {arg id : Inum} {rest : Status × ExtentId → Action Unit} {after : State κ}
    (calls : thread.rest = .call (.create code arg) rest)
    (records : thread.recording = some (type, id))
    (effect : Effect world.caches (.record thread.client type id) after) :
    WorldOk (World.set { world with caches := after } t
      (some { thread with rest := rest (.OK, id), recording := none })) := by
  obtain ⟨recorded, knows, live, lock, needs⟩ := ok.threads t thread here
  rw [calls] at needs
  have pending := recorded type id records
  have unknown := ((ok.coherent id).pending _ _ pending).2
  have allowed : Allowed world.caches (.record thread.client type id) := pending
  have coherent : Coherent after := ok.coherent.kept ok.awaited allowed effect
  have awaited : Awaited after := ok.awaited.kept effect
  have sized : Sized after := ok.sized.kept ok.coherent allowed trivial trivial effect
  cases effect with
  | record env =>
    have known : ∀ ino, world.caches.latest ino ≠ none →
        Function.update world.caches.latest id (some []) ino ≠ none := by
      intro ino known
      by_cases same : ino = id
      · simp [same]
      · simpa [same] using known
    have under : ∀ u other lid, world.threads u = some other → world.holder lid = some u →
        lid ≠ id := by
      rintro u other lid there held rfl
      obtain ⟨_, knows, _, lock, _⟩ := ok.threads u other there
      cases locked : knows.held with
      | none =>
        rw [locked] at lock
        exact lock.2 lid held
      | some lock' =>
        obtain ⟨lid', start, now⟩ := lock'
        obtain ⟨_, mine, _, latest⟩ := lock.inv locked
        rw [(mine lid).mp held, latest] at unknown
        cases unknown
    refine ok.step rfl coherent awaited sized (fun thread' same => ?_)
      (fun u thread' different there => ⟨known, fun _ => Iff.rfl, fun _ _ => rfl, fun lid held =>
        Function.update_of_ne (under u thread' lid there held) _ _, fun type' id' records' => ?_⟩)
      (fun lid u held => ?_) fun thread' type' id' same records' => ?_
    · rw [← Option.some.inj same]
      refine ⟨fun _ _ none => (by cases none),
        { knows with live := fun ino => knows.live ino ∨ ino = id }, fun ino exist => ?_, ?_, needs id⟩
      · rcases exist with old | rfl
        · exact known ino (live ino old)
        · simp [World.set]
      · exact lock.congr rfl rfl (fun _ => Iff.rfl) (fun _ _ => rfl) fun lid held =>
          Function.update_of_ne (under t thread lid here held) _ _
    · refine Function.update_of_ne ?_ _ _
      rintro rfl
      exact different (ok.recording t u thread thread' type type' id' here there records records').symm
    · by_cases mine : u = t
      · exact .inl ⟨mine, by simp⟩
      · exact .inr ⟨mine, held⟩
    · rw [← Option.some.inj same] at records'
      cases records'

theorem WorldOk.kept (ok : WorldOk world) {event : Event κ ι} (kind : Considerate world event)
    (moves : Moves world event next) : WorldOk next := by
  cases moves with
  | start vars free live => exact start_ok ok vars free live
  | finish here done => exact finish_ok ok here done
  | acquire here calls free owner => exact acquire_ok ok here calls free owner
  | release here calls => exact release_ok ok here calls
  | call here calls answered effect =>
    exact call_ok ok here (disciplines_of_answered ok here calls answered effect) effect kind _
  | ask here client calls effect =>
    subst client
    exact call_ok ok here (disciplines_of_ask ok here calls effect) effect kind true
  | note here client calls _ effect =>
    subst client
    exact call_ok ok here (disciplines_of_note ok here calls effect) effect kind false
  | request here _ _ effect => exact request_ok ok here effect
  | record here calls records effect => exact record_ok ok here calls records effect
  | handOver owner free effect => exact handOver_ok ok owner free effect kind

theorem worldOk_of_reachable (reachable : Reachable considerate world) : WorldOk world := by
  refine @Reachable.invariant _ _ _ WorldOk ?_ ?_ _ reachable
  · rintro world ⟨begins, free, idle, short⟩
    obtain ⟨coherent, awaited⟩ := coherent_of_reachable ⟨[], .start begins⟩
    obtain ⟨tables, _, _, _, asked, latest⟩ := begins
    refine ⟨coherent, awaited, fun eid => ⟨fun client _ => tables client eid, fun client => ?_,
      fun client attr here => ?_, fun data here => ?_⟩, fun t thread here => ?_, fun lid t held => ?_,
      fun t _ first _ _ _ _ here => ?_⟩
    · rw [tables]
      exact slotSized_none _
    · cases (asked client).symm.trans here
    · rw [latest] at here
      obtain ⟨file, found, rfl⟩ := Option.map_eq_some_iff.mp here
      exact short eid file found
    · cases (idle t).symm.trans here
    · cases (free lid).symm.trans held
    · cases (idle t).symm.trans here
  · exact fun world event next ok step => ok.kept step.1 step.2

end Steps

/-- Whoever owns a lock in a considerate run finds the size of what it would read, in
its table, at the server or in the answer it waits for, and a `setattr` that is about
to release the lock has left the bytes asked for. -/
theorem attributes_coherent [DecidableEq κ] [DecidableEq ι] {world : World κ ι}
    (reachable : Reachable considerate world) :
    (∀ client eid, world.caches.owner eid = some client → world.caches.latest eid ≠ none →
      ∀ rpc, Faithful rpc → ∀ env arg buf, ∃ asked attr got data,
        ExtentClientCache.getattr rpc eid arg (world.caches.table client) world.caches.server =
          (asked, .OK, attr) ∧
        ExtentClientCache.get rpc env eid buf (world.caches.table client) world.caches.server =
          (got, .OK, data) ∧
        attr.size.toNat = data.length ∧
        ∀ answer, world.caches.asked client = some (eid, answer) →
          answer.size.toNat = data.length) ∧
    (∀ t thread ino size rest, world.threads t = some thread → thread.call = .setattr ino size →
      thread.rest = .call (.release ino) rest → ∃ start, thread.held = some (ino, start) ∧
        world.caches.latest ino = some (resize start size) ∧
        (resize start size).length = size) := by
  have ok := worldOk_of_reachable reachable
  refine ⟨fun client eid owner live rpc faithful env arg buf => ?_,
    fun t thread ino size rest here call calls => ?_⟩
  · obtain ⟨data, latest⟩ := Option.ne_none_iff_exists'.mp live
    obtain ⟨asked, attr, ran, size⟩ := ok.sized.owner_size ok.coherent owner latest faithful arg
    obtain ⟨entry, got, _⟩ := ExtentClientCache.get_ok faithful env buf
      ((ok.coherent eid).owner_reads owner latest)
    exact ⟨asked, attr, _, data, ran, got, size,
      fun answer => ok.sized.answer_size ok.coherent ok.awaited owner latest⟩
  · obtain ⟨_, knows, _, lock, needs⟩ := ok.threads t thread here
    rw [calls, call] at needs
    obtain ⟨start, now, locked, promise, _⟩ := needs
    obtain ⟨held, _, _, latest⟩ := lock.inv locked
    have left : now = resize start size := promise
    exact ⟨start, held, by rw [latest, left], length_resize start size⟩

/-! ## Runs over one file -/

/-- The root and a file. -/
def rootAndFile (data : Bytes) : Contents := fun id =>
  if id = 1 then some ⟨.T_DIR, []⟩ else if id = 2 then some ⟨.T_FILE, data⟩ else none

def fresh (data : Bytes) : World Bool Bool where
  caches := {
    server := rootAndFile data
    table := fun _ _ => none
    owner := fun _ => none
    used := fun _ => false
    latest := fun eid => (rootAndFile data eid).map File.data
    pending := fun _ => none
    asked := fun _ => none }
  holder := fun _ => none
  threads := fun _ => none

theorem fresh_init {data : Bytes} (short : data.length < 2 ^ 32) : clients.init (fresh data) := by
  refine ⟨⟨fun _ _ => rfl, fun _ => rfl, fun _ => rfl, fun _ => rfl, fun _ => rfl, fun _ => rfl⟩,
    fun _ => rfl, fun _ => rfl, fun eid file here => ?_⟩
  simp only [fresh, rootAndFile] at here
  split at here
  · rw [← Option.some.inj here]
    decide
  · split at here
    · rw [← Option.some.inj here]
      exact short
    · cases here

theorem spares_absent {state : State Bool} {client : Bool} {eid : ExtentId}
    (absent : state.table client eid = none) : Spares state (.flush client eid .OK) := by
  intro entry here
  cases absent.symm.trans here

theorem spares_rival {state : State Bool} {eid : ExtentId} {data : Bytes} {attr : Attr}
    (own : state.table true eid = some ⟨data, .MODIFIED, attr⟩) (idle : state.asked true = none)
    (entry : ∀ entry, state.table false eid = some entry → entry.attr.size = .ofNat data.length)
    (answer : ∀ attr, state.asked false = some (eid, attr) → attr.size = .ofNat data.length) :
    Spares state (.flush true eid .OK) := by
  intro mine here _ other size told
  cases own.symm.trans here
  cases told with
  | @entry theirs there bare =>
    cases other with
    | true =>
      cases own.symm.trans there
      cases bare
    | false => exact entry theirs there
  | @answer attr asked =>
    cases other with
    | true => cases idle.symm.trans asked
    | false => exact answer attr asked

/-- One client asks for the type of a file of five bytes. Five other bytes are written
back before the answer is in the table, and five others beside its entry. The client
still knows the size, and grows the file. -/
theorem attributes_coherent_grown : ∃ (world : World Bool Bool) (thread : Thread Bool)
    (rest : Unit → Action Unit), Reachable considerate world ∧
    world.threads false = some thread ∧ thread.call = .setattr 2 10 ∧
    thread.rest = .call (.release 2) rest ∧
    world.caches.latest 2 = some [6, 7, 8, 9, 10, 0, 0, 0, 0, 0] := by
  let vars : Locals := ⟨⟨0, 0, 0, 0, 0⟩, 0⟩
  let env : Ambient := ⟨0, ⟨0, 0, 0, 0, 0⟩⟩
  have server := faithful_plain 3
  have begins : Reachable considerate (fresh [0, 0, 0, 0, 0]) := ⟨[], .start (fresh_init (by decide))⟩
  have asks := begins.extend (show considerate.step _ (.start false false (.isfile 2)) _ from
    ⟨trivial, .start vars rfl (by decide)⟩)
  have asked := asks.extend (show considerate.step _ (.call false (.ask false 2 _)) _ from
    ⟨trivial, .ask rfl rfl rfl (.ask server rfl rfl rfl)⟩)
  have writes := asked.extend (show considerate.step _
    (.start true true (.write 2 0 [1, 2, 3, 4, 5])) _ from ⟨trivial, .start vars rfl (by decide)⟩)
  have locked := writes.extend (show considerate.step _ (.acquire true 2) _ from
    ⟨trivial, .acquire rfl rfl rfl (.inr rfl)⟩)
  have read := locked.extend (show considerate.step _ (.call true (.get true 2 .OK _)) _ from
    ⟨trivial, .call rfl rfl .get (.get env [] server rfl rfl)⟩)
  have put := read.extend (show considerate.step _ (.call true (.put true 2 _ .OK)) _ from
    ⟨Nat.lt_of_sub_eq_succ rfl, .call rfl rfl .put (.put env rfl rfl)⟩)
  have flushed := put.extend (show considerate.step _ (.call true (.flush true 2 .OK)) _ from
    ⟨spares_rival rfl rfl (fun _ here => by cases here) (fun _ here => by cases here; rfl),
      .call rfl rfl .flush (.flush server rfl rfl)⟩)
  have noted := flushed.extend (show considerate.step _ (.call false (.note false 2 _)) _ from
    ⟨trivial, .note rfl rfl rfl rfl (.note rfl)⟩)
  have typed := noted.extend (show considerate.step _ (.finish false) _ from
    ⟨trivial, .finish rfl rfl⟩)
  have freed := typed.extend (show considerate.step _ (.release true 2) _ from
    ⟨trivial, .release rfl rfl⟩)
  have done := freed.extend (show considerate.step _ (.finish true) _ from
    ⟨trivial, .finish rfl rfl⟩)
  have rewrites := done.extend (show considerate.step _
    (.start true true (.write 2 0 [6, 7, 8, 9, 10])) _ from ⟨trivial, .start vars rfl (by decide)⟩)
  have relocked := rewrites.extend (show considerate.step _ (.acquire true 2) _ from
    ⟨trivial, .acquire rfl rfl rfl (.inl rfl)⟩)
  have reread := relocked.extend (show considerate.step _ (.call true (.get true 2 .OK _)) _ from
    ⟨trivial, .call rfl rfl .get (.get env [] server rfl rfl)⟩)
  have reput := reread.extend (show considerate.step _ (.call true (.put true 2 _ .OK)) _ from
    ⟨Nat.lt_of_sub_eq_succ rfl, .call rfl rfl .put (.put env rfl rfl)⟩)
  have reflushed := reput.extend (show considerate.step _ (.call true (.flush true 2 .OK)) _ from
    ⟨spares_rival rfl rfl (fun _ here => by cases here; rfl) (fun _ here => by cases here),
      .call rfl rfl .flush (.flush server rfl rfl)⟩)
  have refreed := reflushed.extend (show considerate.step _ (.release true 2) _ from
    ⟨trivial, .release rfl rfl⟩)
  have handed := refreed.extend (show considerate.step _ (.handOver true 2) _ from
    ⟨spares_absent rfl, .handOver rfl rfl (.flush server rfl rfl)⟩)
  have resizes := handed.extend (show considerate.step _ (.start false false (.setattr 2 10)) _ from
    ⟨trivial, .start vars rfl (by decide)⟩)
  have owns := resizes.extend (show considerate.step _ (.acquire false 2) _ from
    ⟨trivial, .acquire rfl rfl rfl (.inr rfl)⟩)
  have sized := owns.extend (show considerate.step _ (.call false (.getattr false 2 .OK _)) _ from
    ⟨trivial, .call rfl rfl .getattr (.getattr vars.attr server rfl rfl rfl)⟩)
  have got := sized.extend (show considerate.step _ (.call false (.get false 2 .OK _)) _ from
    ⟨trivial, .call rfl rfl .get (.get env [] server rfl rfl)⟩)
  have last := got.extend (show considerate.step _ (.call false (.put false 2 _ .OK)) _ from
    ⟨Nat.lt_of_sub_eq_succ rfl, .call rfl rfl .put (.put env rfl rfl)⟩)
  obtain ⟨start, held, left, _⟩ := (attributes_coherent last).2 false _ 2 10 _ rfl rfl rfl
  obtain ⟨_, rfl⟩ := Prod.mk.inj (Option.some.inj held)
  exact ⟨_, _, _, last, rfl, rfl, rfl, left⟩

/-- One client asks for the type of an empty file, another one writes five bytes and
hands the lock over. The first client still finds the size 0 where it reads five
bytes, and its `setattr` to ten bytes leaves fifteen. -/
theorem stale_size : ∃ world later : World Bool Bool,
    Reachable clients world ∧ world.caches.owner 2 = some false ∧
    (∃ asked attr got, ExtentClientCache.getattr (plain 3) 2 ⟨0, 0, 0, 0, 0⟩
        (world.caches.table false) world.caches.server = (asked, .OK, attr) ∧ attr.size = 0 ∧
      ExtentClientCache.get (plain 3) ⟨0, ⟨0, 0, 0, 0, 0⟩⟩ 2 [] (world.caches.table false)
        world.caches.server = (got, .OK, [1, 2, 3, 4, 5])) ∧
    Reachable clients later ∧ ∃ thread rest, later.threads false = some thread ∧
      thread.call = .setattr 2 10 ∧ thread.rest = .call (.release 2) rest ∧
      thread.held = some (2, [1, 2, 3, 4, 5]) ∧
      later.caches.latest 2 = some [1, 2, 3, 4, 5, 0, 0, 0, 0, 0, 0, 0, 0, 0, 0] := by
  let vars : Locals := ⟨⟨0, 0, 0, 0, 0⟩, 0⟩
  let env : Ambient := ⟨0, ⟨0, 0, 0, 0, 0⟩⟩
  have server := faithful_plain 3
  have begins : Reachable clients (fresh []) := ⟨[], .start (fresh_init (by decide))⟩
  have asks := begins.extend (show clients.step _ (.start false false (.isfile 2)) _ from
    .start vars rfl (by decide))
  have asked := asks.extend (show clients.step _ (.call false (.ask false 2 _)) _ from
    .ask rfl rfl rfl (.ask server rfl rfl rfl))
  have cached := asked.extend (show clients.step _ (.call false (.note false 2 _)) _ from
    .note rfl rfl rfl rfl (.note rfl))
  have done := cached.extend (show clients.step _ (.finish false) _ from .finish rfl rfl)
  have writes := done.extend (show clients.step _ (.start true true (.write 2 0 [1, 2, 3, 4, 5])) _
    from .start vars rfl (by decide))
  have locked := writes.extend (show clients.step _ (.acquire true 2) _ from
    .acquire rfl rfl rfl (.inr rfl))
  have read := locked.extend (show clients.step _ (.call true (.get true 2 .OK _)) _ from
    .call rfl rfl .get (.get env [] server rfl rfl))
  have put := read.extend (show clients.step _ (.call true (.put true 2 _ .OK)) _ from
    .call rfl rfl .put (.put env rfl rfl))
  have flushed := put.extend (show clients.step _ (.call true (.flush true 2 .OK)) _ from
    .call rfl rfl .flush (.flush server rfl rfl))
  have free := flushed.extend (show clients.step _ (.release true 2) _ from .release rfl rfl)
  have handed := free.extend (show clients.step _ (.handOver true 2) _ from
    .handOver rfl rfl (.flush server rfl rfl))
  have resizes := handed.extend (show clients.step _ (.start false false (.setattr 2 10)) _ from
    .start vars rfl (by decide))
  have owns := resizes.extend (show clients.step _ (.acquire false 2) _ from
    .acquire rfl rfl rfl (.inr rfl))
  have sized := owns.extend (show clients.step _ (.call false (.getattr false 2 .OK _)) _ from
    .call rfl rfl .getattr (.getattr vars.attr server rfl rfl rfl))
  have got := sized.extend (show clients.step _ (.call false (.get false 2 .OK _)) _ from
    .call rfl rfl .get (.get env [] server rfl rfl))
  have last := got.extend (show clients.step _ (.call false (.put false 2 _ .OK)) _ from
    .call rfl rfl .put (.put env rfl rfl))
  exact ⟨_, _, owns, rfl, ⟨_, _, _, rfl, rfl, rfl⟩, last, _, _, rfl, rfl, rfl, rfl, rfl⟩

end NaiveFileSystem.Yfs
