import NaiveFileSystem.Lib.Transition
import NaiveFileSystem.Lock.Server

/-!
# The plain lock server

`lock_server` keeps one status for each lock and one condition variable for all of
them. A signal goes to any one of the waiting threads. It is lost on a thread that
waits for another lock, so a released lock has a waiter on its way only if every
release signals one of its own.
-/

namespace NaiveFileSystem

namespace LockServer

open LockProtocol Transition

universe u

/-- `lock_server::lock_status`. -/
inductive LockStatus
  | UNLOCKED | LOCKED
  deriving DecidableEq, Repr

/-- `lock_status_table`. -/
abbrev Table := LockId → Option LockStatus

/-- The loop of `acquire` up to its next wait, which is where no status is returned. -/
def recheck (table : Table) (lid : LockId) : Table × Option Status :=
  if table lid = some .LOCKED then (table, none)
  else (Function.update table lid (some .LOCKED), some .OK)

def acquire (table : Table) (lid : LockId) : Table × Option Status :=
  match table lid with
  | none => (Function.update table lid (some .LOCKED), some .OK)
  | some _ => recheck table lid

/-- The table, the status, and whether the condition variable was signalled. -/
def release (table : Table) (lid : LockId) : Table × Status × Bool :=
  match table lid with
  | none => (table, .NOENT, false)
  | some _ => (Function.update table lid (some .UNLOCKED), .OK, true)

/-- Where a thread is between two sections. -/
inductive Phase
  | outside
  | waiting (lid : LockId)
  | signalled (lid : LockId)
  deriving DecidableEq

def Phase.ofAnswer (lid : LockId) : Option Status → Phase
  | none => .waiting lid
  | some _ => .outside

structure State (Thread : Type u) where
  table : Table
  phase : Thread → Phase

/-- `release` names the thread that its signal reached. -/
inductive Event (Thread : Type u)
  | acquire (thread : Thread) (lid : LockId)
  | resume (thread : Thread)
  | release (thread : Thread) (lid : LockId) (woken : Option Thread)

section Threads

variable {Thread : Type u} [DecidableEq Thread]

/-- `pthread_cond_signal` wakes one of the waiting threads, if there are any. -/
inductive Signal (phase : Thread → Phase) : Option Thread → (Thread → Phase) → Prop
  | nobody : (∀ thread lid, phase thread ≠ .waiting lid) → Signal phase none phase
  | wakes {thread lid} : phase thread = .waiting lid →
      Signal phase (some thread) (Function.update phase thread (.signalled lid))

/-- One section under the mutex. -/
inductive Step : State Thread → Event Thread → State Thread → Prop
  | acquire {table phase thread lid next answer} : phase thread = .outside →
      acquire table lid = (next, answer) →
      Step ⟨table, phase⟩ (.acquire thread lid)
        ⟨next, Function.update phase thread (.ofAnswer lid answer)⟩
  | resume {table phase thread lid next answer} : phase thread = .signalled lid →
      recheck table lid = (next, answer) →
      Step ⟨table, phase⟩ (.resume thread)
        ⟨next, Function.update phase thread (.ofAnswer lid answer)⟩
  | release {table phase thread lid next ret woken after} : phase thread = .outside →
      release table lid = (next, ret, true) → Signal phase woken after →
      Step ⟨table, phase⟩ (.release thread lid woken) ⟨next, after⟩
  | unknown {table phase thread lid next ret} : phase thread = .outside →
      release table lid = (next, ret, false) →
      Step ⟨table, phase⟩ (.release thread lid none) ⟨next, phase⟩

/-- Some thread waits for the lock. -/
def State.Awaited (state : State Thread) (lid : LockId) : Prop :=
  ∃ thread, state.phase thread = .waiting lid

/-- A waiter of the lock was signalled and is still to run. -/
def State.Coming (state : State Thread) (lid : LockId) : Prop :=
  ∃ thread, state.phase thread = .signalled lid

/-- Where a lock is unlocked and a thread waits for it, a waiter of it is on its way. -/
def State.Served (state : State Thread) : Prop :=
  ∀ lid, state.table lid = some .UNLOCKED → state.Awaited lid → state.Coming lid

/-- The release of a lock that threads wait for signals one of these, unless one that
was signalled earlier is still to run. -/
def State.Directs (state : State Thread) : Event Thread → Prop
  | .release _ lid woken => state.Awaited lid →
      state.Coming lid ∨ ∃ thread, woken = some thread ∧ state.phase thread = .waiting lid
  | _ => True

def lockServer : System (State Thread) (Event Thread) where
  init state := (∀ lid, state.table lid = none) ∧ ∀ thread, state.phase thread = .outside
  step := Step

/-- Those runs in which every release directs its signal. -/
def directing : System (State Thread) (Event Thread) where
  init := lockServer.init
  step state event next := state.Directs event ∧ Step state event next

/-! ## What a section does -/

/-- A thread at its lock waits, where it is locked, or takes it. -/
def Attempt (table : Table) (lid : LockId) (next : Table) (answer : Option Status) : Prop :=
  (answer = none ∧ next = table ∧ table lid = some .LOCKED) ∨
    (answer = some .OK ∧ next = Function.update table lid (some .LOCKED))

theorem attempt_recheck {table next : Table} {lid : LockId} {answer : Option Status}
    (ran : recheck table lid = (next, answer)) : Attempt table lid next answer := by
  by_cases locked : table lid = some .LOCKED
  · simp only [recheck, if_pos locked] at ran
    cases ran
    exact .inl ⟨rfl, rfl, locked⟩
  · simp only [recheck, if_neg locked] at ran
    cases ran
    exact .inr ⟨rfl, rfl⟩

theorem attempt_acquire {table next : Table} {lid : LockId} {answer : Option Status}
    (ran : acquire table lid = (next, answer)) : Attempt table lid next answer := by
  cases slot : table lid with
  | none =>
    simp only [acquire, slot] at ran
    cases ran
    exact .inr ⟨rfl, rfl⟩
  | some status =>
    simp only [acquire, slot] at ran
    exact attempt_recheck ran

theorem release_cases {table next : Table} {lid : LockId} {ret : Status} {signals : Bool}
    (ran : release table lid = (next, ret, signals)) :
    (table lid = none ∧ next = table ∧ signals = false) ∨
    (table lid ≠ none ∧ next = Function.update table lid (some .UNLOCKED) ∧ signals = true) := by
  cases slot : table lid with
  | none =>
    simp only [release, slot] at ran
    cases ran
    exact .inl ⟨rfl, rfl, rfl⟩
  | some status =>
    simp only [release, slot] at ran
    cases ran
    exact .inr ⟨by simp, rfl, rfl⟩

/-! ## What every step keeps -/

structure State.Sound (state : State Thread) : Prop where
  served : state.Served
  known : ∀ lid, state.Awaited lid → state.table lid ≠ none

section Kept

variable {table next : Table} {phase after : Thread → Phase} {thread : Thread} {lid other : LockId}
  {answer : Option Status} {woken : Option Thread}

theorem Attempt.locks (attempt : Attempt table lid next answer) : next lid = some .LOCKED := by
  rcases attempt with ⟨_, rfl, locked⟩ | ⟨_, rfl⟩
  · exact locked
  · exact Function.update_self _ _ _

theorem Attempt.elsewhere (attempt : Attempt table lid next answer) (different : other ≠ lid) :
    next other = table other := by
  rcases attempt with ⟨_, rfl, _⟩ | ⟨_, rfl⟩
  · rfl
  · exact Function.update_of_ne different _ _

theorem awaited_ofAnswer (different : other ≠ lid)
    (waits : State.Awaited ⟨next, Function.update phase thread (.ofAnswer lid answer)⟩ other) :
    State.Awaited ⟨table, phase⟩ other := by
  obtain ⟨waiter, waits⟩ := waits
  by_cases same : waiter = thread
  · subst same
    simp only [Function.update_self] at waits
    cases answer with
    | none => cases waits; exact absurd rfl different
    | some ret => cases waits
  · exact ⟨waiter, (Function.update_of_ne same _ _).symm.trans waits⟩

theorem coming_update {changed : Phase} (coming : State.Coming ⟨table, phase⟩ other)
    (elsewhere : phase thread ≠ .signalled other) :
    State.Coming ⟨next, Function.update phase thread changed⟩ other := by
  obtain ⟨runner, comes⟩ := coming
  refine ⟨runner, ?_⟩
  have different : runner ≠ thread := by
    rintro rfl
    exact elsewhere comes
  exact (Function.update_of_ne different _ _).trans comes

theorem State.Sound.attempt (sound : State.Sound ⟨table, phase⟩)
    (running : phase thread = .outside ∨ phase thread = .signalled lid)
    (attempt : Attempt table lid next answer) :
    State.Sound ⟨next, Function.update phase thread (.ofAnswer lid answer)⟩ := by
  constructor
  · intro other unlocked waits
    have different : other ≠ lid := by
      rintro rfl
      cases attempt.locks.symm.trans unlocked
    have earlier := sound.served other ((attempt.elsewhere different).symm.trans unlocked)
      (awaited_ofAnswer different waits)
    refine coming_update earlier fun comes => ?_
    rcases running with idle | signalled
    · cases idle.symm.trans comes
    · cases signalled.symm.trans comes
      exact different rfl
  · intro other waits
    by_cases same : other = lid
    · subst same
      intro absent
      cases attempt.locks.symm.trans absent
    · intro absent
      exact sound.known other (awaited_ofAnswer same waits)
        ((attempt.elsewhere same).symm.trans absent)

theorem Signal.awaited (signal : Signal phase woken after)
    (waits : State.Awaited ⟨next, after⟩ other) : State.Awaited ⟨table, phase⟩ other := by
  cases signal with
  | nobody => exact waits
  | @wakes runner _ _ =>
    obtain ⟨waiter, waits⟩ := waits
    by_cases same : waiter = runner
    · subst same
      simp only [Function.update_self] at waits
      cases waits
    · exact ⟨waiter, (Function.update_of_ne same _ _).symm.trans waits⟩

theorem Signal.coming (signal : Signal phase woken after)
    (coming : State.Coming ⟨table, phase⟩ other) : State.Coming ⟨next, after⟩ other := by
  cases signal with
  | nobody => exact coming
  | wakes waits => exact coming_update coming (by rw [waits]; simp)

theorem State.Sound.release (sound : State.Sound ⟨table, phase⟩) (signal : Signal phase woken after)
    (directs : State.Directs ⟨table, phase⟩ (.release thread lid woken)) :
    State.Sound ⟨Function.update table lid (some .UNLOCKED), after⟩ := by
  constructor
  · intro other unlocked waits
    have earlier : State.Awaited ⟨table, phase⟩ other := signal.awaited waits
    by_cases same : other = lid
    · subst same
      rcases directs earlier with coming | ⟨waiter, rfl, waited⟩
      · exact signal.coming coming
      · cases signal with
        | wakes mine =>
          cases mine.symm.trans waited
          exact ⟨waiter, Function.update_self _ _ _⟩
    · simp only [Function.update_of_ne same] at unlocked
      exact signal.coming (sound.served other unlocked earlier)
  · intro other waits
    by_cases same : other = lid
    · subst same
      simp
    · simp only [Function.update_of_ne same]
      exact sound.known other (signal.awaited waits)

theorem Signal.directs (signal : Signal phase woken after)
    (served : State.Served ⟨Function.update table lid (some .UNLOCKED), after⟩) :
    State.Directs ⟨table, phase⟩ (.release thread lid woken) := by
  intro waits
  cases signal with
  | nobody none =>
    obtain ⟨waiter, waits⟩ := waits
    exact absurd waits (none waiter lid)
  | @wakes runner woke mine =>
    by_cases same : woke = lid
    · subst same
      exact .inr ⟨runner, rfl, mine⟩
    · obtain ⟨waiter, waits⟩ := waits
      have different : waiter ≠ runner := by
        rintro rfl
        cases mine.symm.trans waits
        exact same rfl
      obtain ⟨comer, comes⟩ := served lid (Function.update_self _ _ _)
        ⟨waiter, (Function.update_of_ne different _ _).trans waits⟩
      refine .inl ⟨comer, ?_⟩
      by_cases runs : comer = runner
      · subst runs
        simp only [Function.update_self] at comes
        cases comes
        exact absurd rfl same
      · exact (Function.update_of_ne runs _ _).symm.trans comes

end Kept

/-- A step of a sound server leaves every lock served if and only if it directs its signal. -/
theorem State.Sound.step {state next : State Thread} {event : Event Thread} (sound : state.Sound)
    (steps : Step state event next) :
    (state.Directs event → next.Sound) ∧ (next.Served → state.Directs event) := by
  cases steps with
  | acquire idle ran =>
    exact ⟨fun _ => sound.attempt (.inl idle) (attempt_acquire ran), fun _ => trivial⟩
  | resume signalled ran =>
    exact ⟨fun _ => sound.attempt (.inr signalled) (attempt_recheck ran), fun _ => trivial⟩
  | release idle ran signal =>
    rcases release_cases ran with ⟨_, _, wrong⟩ | ⟨_, rfl, _⟩
    · cases wrong
    · exact ⟨sound.release signal, signal.directs⟩
  | @unknown table phase thread lid _ _ idle ran =>
    rcases release_cases ran with ⟨absent, rfl, _⟩ | ⟨_, _, wrong⟩
    · exact ⟨fun _ => sound, fun _ waits => absurd absent (sound.known lid waits)⟩
    · cases wrong

/-- As long as every release directs its signal, a released lock has a waiter of its
own on its way, and the first signal that is not directed leaves one without. -/
theorem wakeup_not_lost {state : State Thread} (reachable : Reachable directing state) :
    state.Served ∧ ∀ event next, Step state event next → (next.Served ↔ state.Directs event) := by
  have sound : state.Sound := by
    refine reachable.invariant (fun start begins => ?_) ?_
    · refine ⟨fun lid unlocked _ => ?_, fun lid waits => ?_⟩
      · cases (begins.1 lid).symm.trans unlocked
      · obtain ⟨waiter, waits⟩ := waits
        cases (begins.2 waiter).symm.trans waits
    · intro earlier event later sound steps
      exact (sound.step steps.2).1 steps.1
  refine ⟨sound.served, fun event next steps => ⟨(sound.step steps).2, fun directs => ?_⟩⟩
  exact ((sound.step steps).1 directs).served

end Threads

def untouched : State ℕ := ⟨fun _ => none, fun _ => .outside⟩

/-- One lock with a holder and a waiter, which is signalled. -/
theorem wakeup_not_lost_signalled : ∃ state : State ℕ, state.table 1 = some .UNLOCKED ∧
    state.Coming 1 ∧ state.Served := by
  have begins : Reachable directing untouched := ⟨[], .start ⟨fun _ => rfl, fun _ => rfl⟩⟩
  have held := @Reachable.extend _ _ directing _ _ (.acquire 0 1) begins ⟨trivial, .acquire rfl rfl⟩
  have waited := @Reachable.extend _ _ directing _ _ (.acquire 1 1) held ⟨trivial, .acquire rfl rfl⟩
  have signalled := @Reachable.extend _ _ directing _ _ (.release 0 1 (some 1)) waited
    ⟨fun _ => .inr ⟨1, rfl, rfl⟩, .release rfl rfl (.wakes rfl)⟩
  exact ⟨_, rfl, ⟨1, rfl⟩, (wakeup_not_lost signalled).1⟩

/-- Two locks, each with a waiter: the first is released and the signal goes to the
waiter of the second, which finds its lock locked and waits on. -/
theorem wakeup_lost : ∃ state : State ℕ, Reachable lockServer state ∧
    ∃ lid, state.table lid = some .UNLOCKED ∧ state.Awaited lid ∧ ∀ other, ¬ state.Coming other := by
  have begins : Reachable lockServer untouched := ⟨[], .start ⟨fun _ => rfl, fun _ => rfl⟩⟩
  have first := @Reachable.extend _ _ lockServer _ _ (.acquire 0 1) begins (.acquire rfl rfl)
  have second := @Reachable.extend _ _ lockServer _ _ (.acquire 0 2) first (.acquire rfl rfl)
  have waited := @Reachable.extend _ _ lockServer _ _ (.acquire 1 1) second (.acquire rfl rfl)
  have both := @Reachable.extend _ _ lockServer _ _ (.acquire 2 2) waited (.acquire rfl rfl)
  have misled := @Reachable.extend _ _ lockServer _ _ (.release 0 1 (some 2)) both
    (.release rfl rfl (.wakes rfl))
  have lost := @Reachable.extend _ _ lockServer _ _ (.resume 2) misled (.resume rfl rfl)
  refine ⟨_, lost, 1, rfl, ⟨1, rfl⟩, fun other coming => ?_⟩
  obtain ⟨thread, comes⟩ := coming
  by_cases woken : thread = 2
  · subst woken
    cases comes
  · by_cases waits : thread = 1
    · subst waits
      cases comes
    · by_cases serves : thread = 0
      · subst serves
        cases comes
      · simp [woken, waits, serves] at comes

end LockServer

end NaiveFileSystem
