import Mathlib.Data.Multiset.Count
import NaiveFileSystem.Lib.Transition

/-!
# Handles of RPC clients

`handle_mgr` shares one `hinfo` among all handles to a destination and counts them.
An `hinfo` whose bind failed, or that is to be deleted, is marked and stays until the
last handle to it is destroyed. Objects have addresses that are never used twice, and
`none` stands for the use of an object that was deleted.
-/

namespace NaiveFileSystem

namespace HandleMgr

open Transition

universe u

abbrev Addr := ℕ

/-- `struct hinfo`. -/
structure HInfo (Rpcc : Type u) where
  cl : Option Rpcc
  refcnt : ℤ
  del : Bool
  m : String

variable {Rpcc : Type u}

/-- `handle_mgr`, with the objects that it allocated. -/
structure Mgr (Rpcc : Type u) where
  hmap : String → Option Addr
  heap : Addr → Option (HInfo Rpcc)
  allocated : ℕ

/-- An assignment to members of the object at `h`. -/
def Mgr.store (mgr : Mgr Rpcc) (h : Addr) (info : HInfo Rpcc) : Mgr Rpcc :=
  { mgr with heap := Function.update mgr.heap h (some info) }

/-- `new hinfo` with its entry in `hmap`. -/
def Mgr.create (mgr : Mgr Rpcc) (m : String) : Mgr Rpcc where
  hmap := Function.update mgr.hmap m (some mgr.allocated)
  heap := Function.update mgr.heap mgr.allocated (some ⟨none, 1, false, m⟩)
  allocated := mgr.allocated + 1

/-- `hmap.erase(m)`, and `delete h` with its connection. -/
def Mgr.erase (mgr : Mgr Rpcc) (m : String) (h : Addr) : Mgr Rpcc :=
  { mgr with hmap := Function.update mgr.hmap m none, heap := Function.update mgr.heap h none }

section Heap

variable {mgr : Mgr Rpcc} {m : String} {h other : Addr} {changed second : HInfo Rpcc}

theorem Mgr.heap_store (there : (mgr.store h changed).heap other = some second) :
    other = h ∧ changed = second ∨ other ≠ h ∧ mgr.heap other = some second := by
  by_cases same : other = h
  · subst same
    simp only [Mgr.store, Function.update_self] at there
    exact .inl ⟨rfl, Option.some.inj there⟩
  · exact .inr ⟨same, (Function.update_of_ne same _ _).symm.trans there⟩

theorem Mgr.heap_create (there : (mgr.create m).heap other = some second) :
    other = mgr.allocated ∧ ⟨none, 1, false, m⟩ = second ∨
      other ≠ mgr.allocated ∧ mgr.heap other = some second :=
  Mgr.heap_store there

theorem Mgr.heap_erase (there : (mgr.erase m h).heap other = some second) :
    other ≠ h ∧ mgr.heap other = some second := by
  have different : other ≠ h := by
    rintro rfl
    simp [Mgr.erase] at there
  exact ⟨different, (Function.update_of_ne different _ _).symm.trans there⟩

end Heap

def getHandle (mgr : Mgr Rpcc) (m : String) : Option (Mgr Rpcc × Option Addr) :=
  match mgr.hmap m with
  | none => some (mgr.create m, some mgr.allocated)
  | some h =>
    (mgr.heap h).map fun info =>
      if info.del then (mgr, none)
      else (mgr.store h { info with refcnt := info.refcnt + 1 }, some h)

def deleteHandleWo (mgr : Mgr Rpcc) (m : String) : Option (Mgr Rpcc) :=
  match mgr.hmap m with
  | none => some mgr
  | some h =>
    (mgr.heap h).map fun info =>
      if info.refcnt = 0 then mgr.erase m h else mgr.store h { info with del := true }

def doneHandle (mgr : Mgr Rpcc) (h : Addr) : Option (Mgr Rpcc) :=
  match mgr.heap h with
  | none => none
  | some info =>
    let counted := { info with refcnt := info.refcnt - 1 }
    if counted.refcnt = 0 ∧ counted.del then deleteHandleWo (mgr.store h counted) counted.m
    else some (mgr.store h counted)

def deleteHandle (mgr : Mgr Rpcc) (m : String) : Option (Mgr Rpcc) := deleteHandleWo mgr m

/-- A handle, and the destination that it was constructed for. -/
structure Handle where
  m : String
  h : Option Addr
  deriving DecidableEq

/-- `cl` is the client that would be constructed, and `ret` what its bind returns. -/
def safebind (mgr : Mgr Rpcc) (handle : Handle) (cl : Rpcc) (ret : ℤ) :
    Option (Mgr Rpcc × Option Rpcc) :=
  match handle.h with
  | none => some (mgr, none)
  | some h =>
    (mgr.heap h).map fun info =>
      if info.del then (mgr, none)
      else
        match info.cl with
        | some bound => (mgr, some bound)
        | none =>
          if ret < 0 then (mgr.store h { info with del := true }, none)
          else (mgr.store h { info with cl := some cl }, some cl)

/-- `~handle`. -/
def destroy (mgr : Mgr Rpcc) (handle : Handle) : Option (Mgr Rpcc) :=
  match handle.h with
  | none => some mgr
  | some h => doneHandle mgr h

/-! ## All handles of a process -/

structure State (Rpcc : Type u) where
  mgr : Mgr Rpcc
  handles : Multiset Handle

inductive Event (Rpcc : Type u)
  | construct (handle : Handle)
  | safebind (handle : Handle) (cl : Rpcc) (ret : ℤ) (answer : Option Rpcc)
  | destroy (handle : Handle)
  | deleteHandle (m : String)

inductive Step : State Rpcc → Event Rpcc → State Rpcc → Prop
  | construct {mgr handles m next h} : getHandle mgr m = some (next, h) →
      Step ⟨mgr, handles⟩ (.construct ⟨m, h⟩) ⟨next, ⟨m, h⟩ ::ₘ handles⟩
  | safebind {mgr handles handle cl ret next answer} : handle ∈ handles →
      safebind mgr handle cl ret = some (next, answer) →
      Step ⟨mgr, handles⟩ (.safebind handle cl ret answer) ⟨next, handles⟩
  | destroy {mgr handle rest next} : destroy mgr handle = some next →
      Step ⟨mgr, handle ::ₘ rest⟩ (.destroy handle) ⟨next, rest⟩
  | deleteHandle {mgr handles m next} : deleteHandle mgr m = some next →
      Step ⟨mgr, handles⟩ (.deleteHandle m) ⟨next, handles⟩

/-- No destination has been contacted. -/
def State.Begins (state : State Rpcc) : Prop :=
  (∀ m, state.mgr.hmap m = none) ∧ (∀ h, state.mgr.heap h = none) ∧ state.handles = 0

def process : System (State Rpcc) (Event Rpcc) := ⟨State.Begins, Step⟩

def holders (handles : Multiset Handle) (h : Addr) : ℕ :=
  handles.countP fun handle => handle.h = some h

@[simp] theorem holders_cons (handle : Handle) (handles : Multiset Handle) (h : Addr) :
    holders (handle ::ₘ handles) h = holders handles h + if handle.h = some h then 1 else 0 :=
  Multiset.countP_cons _ _ _

theorem holders_pos {handles : Multiset Handle} {handle : Handle} {h : Addr}
    (live : handle ∈ handles) (holds : handle.h = some h) : 0 < holders handles h :=
  Multiset.countP_pos_of_mem live holds

theorem exists_holder {handles : Multiset Handle} {h : Addr} (held : holders handles h ≠ 0) :
    ∃ handle ∈ handles, handle.h = some h :=
  Multiset.countP_pos.mp (Nat.pos_of_ne_zero held)

/-- Entries and objects belong to each other, and the counts are right. -/
structure Sound (mgr : Mgr Rpcc) (handles : Multiset Handle) : Prop where
  mapped : ∀ m h, mgr.hmap m = some h → ∃ info, mgr.heap h = some info ∧ info.m = m
  named : ∀ h info, mgr.heap h = some info → mgr.hmap info.m = some h
  counted : ∀ h info, mgr.heap h = some info → info.refcnt = holders handles h
  marked : ∀ h info, mgr.heap h = some info → info.del = true → holders handles h ≠ 0
  held : ∀ handle ∈ handles, ∀ h, handle.h = some h →
    ∃ info, mgr.heap h = some info ∧ info.m = handle.m
  fresh : ∀ h, mgr.allocated ≤ h → mgr.heap h = none

structure Reheld (before after : Multiset Handle) (m : String) (h : Addr) : Prop where
  others : ∀ other, other ≠ h → holders after other = holders before other
  members : ∀ handle ∈ after, handle ∈ before ∨ handle.h = none ∨ handle = ⟨m, some h⟩

theorem Reheld.refl (handles : Multiset Handle) (m : String) (h : Addr) :
    Reheld handles handles m h :=
  ⟨fun _ _ => rfl, fun _ live => .inl live⟩

theorem Reheld.cons (handles : Multiset Handle) (m : String) (h : Addr) :
    Reheld handles (⟨m, some h⟩ ::ₘ handles) m h := by
  refine ⟨fun other different => ?_, fun handle live => ?_⟩
  · simp [Ne.symm different]
  · rcases Multiset.mem_cons.mp live with same | live
    · exact .inr (.inr same)
    · exact .inl live

theorem Reheld.rest {handle : Handle} {rest : Multiset Handle} {h : Addr}
    (holds : handle.h = some h) (m : String) : Reheld (handle ::ₘ rest) rest m h := by
  refine ⟨fun other different => ?_, fun other live => .inl (Multiset.mem_cons_of_mem live)⟩
  simp [holds, Ne.symm different]

section Kept

variable {mgr : Mgr Rpcc} {handles before after : Multiset Handle} {m : String} {h : Addr}
  {info changed : HInfo Rpcc}

theorem Sound.unique (sound : Sound mgr handles) {other : Addr} {second : HInfo Rpcc}
    (here : mgr.heap h = some info) (there : mgr.heap other = some second)
    (name : info.m = second.m) : h = other := by
  have first := sound.named h info here
  rw [name, sound.named other second there] at first
  cases first
  rfl

theorem Sound.create (sound : Sound mgr handles) (absent : mgr.hmap m = none) :
    Sound (mgr.create m) (⟨m, some mgr.allocated⟩ ::ₘ handles) := by
  have unused : mgr.heap mgr.allocated = none := sound.fresh _ (Nat.le_refl _)
  have unheld : holders handles mgr.allocated = 0 := by
    by_contra holds
    obtain ⟨handle, live, mine⟩ := exists_holder holds
    obtain ⟨info, here, _⟩ := sound.held handle live _ mine
    cases unused.symm.trans here
  have older : ∀ {h info}, mgr.heap h = some info → h ≠ mgr.allocated := by
    rintro h info here rfl
    cases unused.symm.trans here
  constructor
  · intro name h entry
    by_cases same : name = m
    · subst same
      simp only [Mgr.create, Function.update_self] at entry ⊢
      cases entry
      exact ⟨_, Function.update_self _ _ _, rfl⟩
    · simp only [Mgr.create, Function.update_of_ne same] at entry ⊢
      obtain ⟨info, here, named⟩ := sound.mapped name h entry
      exact ⟨info, (Function.update_of_ne (older here) _ _).trans here, named⟩
  · intro h info here
    obtain ⟨rfl, rfl⟩ | ⟨_, here⟩ := Mgr.heap_create here
    · exact Function.update_self _ _ _
    · have entry := sound.named h info here
      have different : info.m ≠ m := by
        rintro rfl
        cases absent.symm.trans entry
      exact (Function.update_of_ne different _ _).trans entry
  · intro h info here
    obtain ⟨rfl, rfl⟩ | ⟨older, here⟩ := Mgr.heap_create here
    · simp [unheld]
    · simp [sound.counted h info here, Ne.symm older]
  · intro h info here marked
    obtain ⟨rfl, rfl⟩ | ⟨_, here⟩ := Mgr.heap_create here
    · simp
    · simp [sound.marked h info here marked]
  · intro handle live h holds
    rcases Multiset.mem_cons.mp live with rfl | live
    · cases holds
      exact ⟨_, Function.update_self _ _ _, rfl⟩
    · obtain ⟨info, here, name⟩ := sound.held handle live h holds
      exact ⟨info, (Function.update_of_ne (older here) _ _).trans here, name⟩
  · intro h beyond
    have later : mgr.allocated < h := beyond
    exact (Function.update_of_ne later.ne' _ _).trans (sound.fresh h later.le)

theorem Sound.store (sound : Sound mgr before) (here : mgr.heap h = some info)
    (name : changed.m = info.m) (reheld : Reheld before after info.m h)
    (counted : changed.refcnt = holders after h)
    (marked : changed.del = true → holders after h ≠ 0) :
    Sound (mgr.store h changed) after := by
  constructor
  · intro m other entry
    obtain ⟨second, there, named⟩ := sound.mapped m other entry
    by_cases same : other = h
    · subst same
      cases here.symm.trans there
      exact ⟨changed, Function.update_self _ _ _, name.trans named⟩
    · exact ⟨second, (Function.update_of_ne same _ _).trans there, named⟩
  · intro other second there
    obtain ⟨rfl, rfl⟩ | ⟨_, there⟩ := Mgr.heap_store there
    · rw [name]
      exact sound.named other info here
    · exact sound.named other second there
  · intro other second there
    obtain ⟨rfl, rfl⟩ | ⟨different, there⟩ := Mgr.heap_store there
    · exact counted
    · rw [reheld.others other different]
      exact sound.counted other second there
  · intro other second there isMarked
    obtain ⟨rfl, rfl⟩ | ⟨different, there⟩ := Mgr.heap_store there
    · exact marked isMarked
    · rw [reheld.others other different]
      exact sound.marked other second there isMarked
  · intro handle live other holds
    by_cases same : other = h
    · subst same
      refine ⟨changed, Function.update_self _ _ _, name.trans ?_⟩
      rcases reheld.members handle live with live | none | rfl
      · obtain ⟨_, there, named⟩ := sound.held handle live other holds
        cases here.symm.trans there
        exact named
      · cases none.symm.trans holds
      · rfl
    · have earlier : handle ∈ before := by
        rcases reheld.members handle live with live | none | rfl
        · exact live
        · cases none.symm.trans holds
        · cases holds
          exact absurd rfl same
      obtain ⟨second, there, named⟩ := sound.held handle earlier other holds
      exact ⟨second, (Function.update_of_ne same _ _).trans there, named⟩
  · intro other beyond
    have unused : mgr.heap other = none := sound.fresh other beyond
    have different : other ≠ h := by
      rintro rfl
      cases unused.symm.trans here
    exact (Function.update_of_ne different _ _).trans unused

theorem Sound.erase (sound : Sound mgr before) (here : mgr.heap h = some info)
    (reheld : Reheld before after info.m h) (unheld : holders after h = 0) :
    Sound (mgr.erase info.m h) after := by
  constructor
  · intro m other entry
    by_cases same : m = info.m
    · subst same
      simp only [Mgr.erase, Function.update_self] at entry
      cases entry
    · simp only [Mgr.erase, Function.update_of_ne same] at entry
      obtain ⟨second, there, named⟩ := sound.mapped m other entry
      have different : other ≠ h := by
        rintro rfl
        cases here.symm.trans there
        exact same named.symm
      exact ⟨second, (Function.update_of_ne different _ _).trans there, named⟩
  · intro other second there
    obtain ⟨different, there⟩ := Mgr.heap_erase there
    have name : second.m ≠ info.m := fun same => different (sound.unique there here same)
    exact (Function.update_of_ne name _ _).trans (sound.named other second there)
  · intro other second there
    obtain ⟨different, there⟩ := Mgr.heap_erase there
    rw [reheld.others other different]
    exact sound.counted other second there
  · intro other second there marked
    obtain ⟨different, there⟩ := Mgr.heap_erase there
    rw [reheld.others other different]
    exact sound.marked other second there marked
  · intro handle live other holds
    have different : other ≠ h := by
      rintro rfl
      exact (holders_pos live holds).ne' unheld
    have earlier : handle ∈ before := by
      rcases reheld.members handle live with live | none | rfl
      · exact live
      · cases none.symm.trans holds
      · cases holds
        exact absurd rfl different
    obtain ⟨second, there, named⟩ := sound.held handle earlier other holds
    exact ⟨second, (Function.update_of_ne different _ _).trans there, named⟩
  · intro other beyond
    have unused : mgr.heap other = none := sound.fresh other beyond
    by_cases same : other = h
    · subst same
      exact Function.update_self _ _ _
    · exact (Function.update_of_ne same _ _).trans unused

end Kept

/-! ## What an operation does to the objects -/

/-- An operation creates an object, deletes one or assigns to one. It takes no mark
away, and marks or binds only what it touches. -/
inductive Change (mgr : Mgr Rpcc) (touches : String → Prop) : Mgr Rpcc → Prop
  | same : Change mgr touches mgr
  | created {m} : mgr.hmap m = none → Change mgr touches (mgr.create m)
  | stored {h info changed} : mgr.heap h = some info → changed.m = info.m →
      (info.del = true → changed.del = true) →
      (¬ touches info.m → changed.del = info.del ∧ changed.cl = info.cl) →
      Change mgr touches (mgr.store h changed)
  | erased {h info} : mgr.heap h = some info → Change mgr touches (mgr.erase info.m h)

section Operations

variable {mgr : Mgr Rpcc} {handles : Multiset Handle} {touches : String → Prop}

theorem Sound.getHandle (sound : Sound mgr handles) (m : String) :
    ∃ next h, getHandle mgr m = some (next, h) ∧ Sound next (⟨m, h⟩ ::ₘ handles) ∧
      Change mgr touches next := by
  cases entry : mgr.hmap m with
  | none =>
    refine ⟨_, _, ?_, sound.create entry, .created entry⟩
    simp only [HandleMgr.getHandle, entry]
  | some h =>
    obtain ⟨info, here, rfl⟩ := sound.mapped m h entry
    cases marked : info.del with
    | true =>
      refine ⟨mgr, none, ?_, ?_, .same⟩
      · simp only [HandleMgr.getHandle, entry, here, Option.map_some, marked, if_true]
      · refine ⟨sound.mapped, sound.named, fun h info here => ?_, fun h info here marked => ?_,
          fun handle live h holds => ?_, sound.fresh⟩
        · simp [sound.counted h info here]
        · simp [sound.marked h info here marked]
        · rcases Multiset.mem_cons.mp live with rfl | live
          · cases holds
          · exact sound.held handle live h holds
    | false =>
      refine ⟨mgr.store h { info with refcnt := info.refcnt + 1 }, some h, ?_, ?_, ?_⟩
      · simp [HandleMgr.getHandle, entry, here, marked]
      · refine sound.store here rfl (.cons handles info.m h) ?_ ?_
        · simp [sound.counted h info here]
        · simp
      · exact .stored here rfl id fun _ => ⟨rfl, rfl⟩

theorem Sound.deleteHandleWo (sound : Sound mgr handles) (m : String) (touched : touches m) :
    ∃ next, deleteHandleWo mgr m = some next ∧ Sound next handles ∧ Change mgr touches next := by
  cases entry : mgr.hmap m with
  | none => exact ⟨mgr, by simp only [HandleMgr.deleteHandleWo, entry], sound, .same⟩
  | some h =>
    obtain ⟨info, here, rfl⟩ := sound.mapped m h entry
    by_cases unused : info.refcnt = 0
    · refine ⟨mgr.erase info.m h, ?_, ?_, .erased here⟩
      · simp only [HandleMgr.deleteHandleWo, entry, here, Option.map_some, if_pos unused]
      · apply sound.erase here (.refl handles info.m h)
        have counted := sound.counted h info here
        omega
    · refine ⟨mgr.store h { info with del := true }, ?_, ?_, ?_⟩
      · simp only [HandleMgr.deleteHandleWo, entry, here, Option.map_some, if_neg unused]
      · refine sound.store here rfl (.refl handles info.m h) (sound.counted h info here) ?_
        have counted := sound.counted h info here
        intro _ unheld
        omega
      · exact .stored here rfl (fun _ => rfl) fun untouched => absurd touched untouched

theorem Sound.safebind {handle : Handle} (sound : Sound mgr handles) (live : handle ∈ handles)
    (cl : Rpcc) (ret : ℤ) (touched : touches handle.m) :
    ∃ next answer, safebind mgr handle cl ret = some (next, answer) ∧ Sound next handles ∧
      Change mgr touches next := by
  cases holds : handle.h with
  | none => exact ⟨mgr, none, by simp only [HandleMgr.safebind, holds], sound, .same⟩
  | some h =>
    obtain ⟨info, here, name⟩ := sound.held handle live h holds
    have stays : ∀ changed : HInfo Rpcc, changed.m = info.m → changed.refcnt = info.refcnt →
        (info.del = true → changed.del = true) →
        Sound (mgr.store h changed) handles ∧ Change mgr touches (mgr.store h changed) := by
      intro changed same count marks
      refine ⟨?_, .stored here same marks fun untouched => absurd (name ▸ touched) untouched⟩
      apply sound.store here same (.refl handles info.m h)
      · exact count.trans (sound.counted h info here)
      · exact fun _ => (holders_pos live holds).ne'
    cases marked : info.del with
    | true =>
      refine ⟨mgr, none, ?_, sound, .same⟩
      simp only [HandleMgr.safebind, holds, here, Option.map_some, marked, if_true]
    | false =>
      cases connection : info.cl with
      | some bound =>
        refine ⟨mgr, some bound, ?_, sound, .same⟩
        simp [HandleMgr.safebind, holds, here, marked, connection]
      | none =>
        by_cases failed : ret < 0
        · refine ⟨mgr.store h { info with del := true }, none, ?_, stays _ rfl rfl fun _ => rfl⟩
          simp [HandleMgr.safebind, holds, here, marked, connection, failed]
        · refine ⟨mgr.store h { info with cl := some cl }, some cl, ?_, stays _ rfl rfl id⟩
          simp [HandleMgr.safebind, holds, here, marked, connection, failed]

theorem Sound.destroy {handle : Handle} {rest : Multiset Handle}
    (sound : Sound mgr (handle ::ₘ rest)) :
    ∃ next, destroy mgr handle = some next ∧ Sound next rest ∧ Change mgr touches next := by
  cases holds : handle.h with
  | none =>
    refine ⟨mgr, by simp only [HandleMgr.destroy, holds], ?_, .same⟩
    refine ⟨sound.mapped, sound.named, fun h info here => ?_, fun h info here marked => ?_,
      fun other live => sound.held other (Multiset.mem_cons_of_mem live), sound.fresh⟩
    · simp [sound.counted h info here, holds]
    · have held := sound.marked h info here marked
      simpa [holds] using held
  | some h =>
    obtain ⟨info, here, _⟩ := sound.held handle (Multiset.mem_cons_self _ _) h holds
    have counted := sound.counted h info here
    rw [holders_cons, if_pos holds] at counted
    by_cases last : info.refcnt - 1 = 0 ∧ info.del = true
    · refine ⟨mgr.erase info.m h, ?_, ?_, .erased here⟩
      · have entry := sound.named h info here
        simp [HandleMgr.destroy, holds, HandleMgr.doneHandle, here, HandleMgr.deleteHandleWo,
          Mgr.store, entry, last, Mgr.erase]
      · exact sound.erase here (.rest holds info.m) (by omega)
    · refine ⟨mgr.store h { info with refcnt := info.refcnt - 1 }, ?_, ?_, ?_⟩
      · simp only [HandleMgr.destroy, holds, HandleMgr.doneHandle, here, if_neg last]
      · refine sound.store here rfl (.rest holds info.m) ?_ ?_
        · simp only [counted]
          omega
        · intro marked unheld
          exact last ⟨by omega, marked⟩
      · exact .stored here rfl id fun _ => ⟨rfl, rfl⟩

end Operations

/-! ## Runs -/

def Event.Touches : Event Rpcc → String → Prop
  | .safebind handle _ _ _, m => handle.m = m
  | .deleteHandle other, m => other = m
  | _, _ => False

theorem Sound.step {state next : State Rpcc} {event : Event Rpcc}
    (sound : Sound state.mgr state.handles) (steps : Step state event next) :
    Sound next.mgr next.handles ∧ Change state.mgr event.Touches next.mgr := by
  cases steps with
  | @construct _ _ m _ _ ran =>
    obtain ⟨_, _, same, kept⟩ := sound.getHandle m
    cases ran.symm.trans same
    exact kept
  | @safebind _ _ handle cl ret _ _ live ran =>
    obtain ⟨_, _, same, kept⟩ := sound.safebind live cl ret rfl
    cases ran.symm.trans same
    exact kept
  | destroy ran =>
    obtain ⟨_, same, kept⟩ := sound.destroy
    cases ran.symm.trans same
    exact kept
  | @deleteHandle _ _ m _ ran =>
    obtain ⟨_, same, kept⟩ := sound.deleteHandleWo m rfl
    cases ran.symm.trans same
    exact kept

theorem Sound.reachable {state : State Rpcc} (reachable : Reachable process state) :
    Sound state.mgr state.handles := by
  refine @Reachable.invariant _ _ process (fun state => Sound state.mgr state.handles)
    (fun start begins => ?_) (fun _ _ _ sound steps => (sound.step steps).1) _ reachable
  obtain ⟨noEntry, noObject, noHandle⟩ := begins
  constructor
  · intro m h entry
    cases (noEntry m).symm.trans entry
  · intro h info here
    cases (noObject h).symm.trans here
  · intro h info here
    cases (noObject h).symm.trans here
  · intro h info here
    cases (noObject h).symm.trans here
  · intro handle live
    simp [noHandle] at live
  · exact fun h _ => noObject h

/-- What is held is in `hmap` under its name with the right count, and what is marked
is held. -/
structure State.Counted (state : State Rpcc) : Prop where
  present : ∀ handle ∈ state.handles, ∀ h, handle.h = some h → ∃ info,
    state.mgr.heap h = some info ∧ info.m = handle.m ∧ state.mgr.hmap info.m = some h ∧
      info.refcnt = holders state.handles h
  marked : ∀ m h info, state.mgr.hmap m = some h → state.mgr.heap h = some info →
    info.del = true → 1 ≤ info.refcnt

/-- No operation uses an object that was deleted. -/
structure State.Defined (state : State Rpcc) : Prop where
  construct : ∀ m, getHandle state.mgr m ≠ none
  safebind : ∀ handle ∈ state.handles, ∀ cl ret, safebind state.mgr handle cl ret ≠ none
  destroy : ∀ handle ∈ state.handles, destroy state.mgr handle ≠ none
  deleteHandle : ∀ m, deleteHandle state.mgr m ≠ none

/-- `safebind` answers with what a bind gives. -/
def Mgr.Tries (mgr : Mgr Rpcc) (handle : Handle) : Prop :=
  ∀ cl ret, ∃ next, safebind mgr handle cl ret = some (next, if ret < 0 then none else some cl)

/-- `safebind` answers `NULL`, whatever a bind would give, and does nothing. -/
def Mgr.Refuses (mgr : Mgr Rpcc) (handle : Handle) : Prop :=
  ∀ cl ret, safebind mgr handle cl ret = some (mgr, none)

def continuing (state : State Rpcc) : System (State Rpcc) (Event Rpcc) := ⟨(· = state), Step⟩

/-- After a bind of the object `h` to `m` failed: as long as a handle holds `h`, all
handles to `m` refuse. Once the last one is destroyed, a new handle to `m` tries. -/
structure FailureLasts (failed : State Rpcc) (h : Addr) (m : String) : Prop where
  refuses : ∀ later, Reachable (continuing failed) later → holders later.handles h ≠ 0 →
    ∀ handle ∈ later.handles, handle.m = m → later.mgr.Refuses handle
  retries : ∀ later handle last, Reachable (continuing failed) later → handle.h = some h →
    Step later (.destroy handle) last → holders last.handles h = 0 →
    ∀ trace final, Run (continuing last) trace final → (∀ event ∈ trace, ¬ event.Touches m) →
      (∀ new next, Step final (.construct new) next → new.m = m → next.mgr.Tries new) ∧
      ∀ other ∈ final.handles, other.m = m → other.h ≠ none → final.mgr.Tries other

section Objects

variable {mgr next : Mgr Rpcc} {handles : Multiset Handle} {touches : String → Prop} {h : Addr}
  {m : String} {handle : Handle}

def Mgr.Doomed (mgr : Mgr Rpcc) (h : Addr) (m : String) : Prop :=
  h < mgr.allocated ∧ ∀ info, mgr.heap h = some info → info.del = true ∧ info.m = m

def Mgr.Open (mgr : Mgr Rpcc) (m : String) : Prop :=
  ∀ h info, mgr.heap h = some info → info.m = m → info.del = false ∧ info.cl = none

theorem Mgr.Doomed.change (doomed : mgr.Doomed h m) (change : Change mgr touches next) :
    next.Doomed h m := by
  obtain ⟨old, marked⟩ := doomed
  cases change with
  | same => exact ⟨old, marked⟩
  | created absent =>
    refine ⟨Nat.lt_succ_of_lt old, fun info here => marked info ?_⟩
    exact (Function.update_of_ne old.ne _ _).symm.trans here
  | @stored other info changed there name marks _ =>
    refine ⟨old, fun second here => ?_⟩
    obtain ⟨rfl, rfl⟩ | ⟨_, here⟩ := Mgr.heap_store here
    · exact ⟨marks (marked info there).1, name.trans (marked info there).2⟩
    · exact marked second here
  | erased there => exact ⟨old, fun second here => marked second (Mgr.heap_erase here).2⟩

theorem Change.before (change : Change mgr touches next) {info : HInfo Rpcc}
    (here : next.heap h = some info) : (info.del = false ∧ info.cl = none) ∨
      ∃ earlier, mgr.heap h = some earlier ∧ info.m = earlier.m ∧
        (¬ touches earlier.m → info.del = earlier.del ∧ info.cl = earlier.cl) := by
  cases change with
  | same => exact .inr ⟨info, here, rfl, fun _ => ⟨rfl, rfl⟩⟩
  | created absent =>
    obtain ⟨rfl, rfl⟩ | ⟨_, here⟩ := Mgr.heap_create here
    · exact .inl ⟨rfl, rfl⟩
    · exact .inr ⟨info, here, rfl, fun _ => ⟨rfl, rfl⟩⟩
  | @stored other earlier changed there name _ untouched =>
    obtain ⟨rfl, rfl⟩ | ⟨_, here⟩ := Mgr.heap_store here
    · exact .inr ⟨earlier, there, name, untouched⟩
    · exact .inr ⟨info, here, rfl, fun _ => ⟨rfl, rfl⟩⟩
  | erased there => exact .inr ⟨info, (Mgr.heap_erase here).2, rfl, fun _ => ⟨rfl, rfl⟩⟩

theorem Mgr.Open.change (isOpen : mgr.Open m) (untouched : ¬ touches m)
    (change : Change mgr touches next) : next.Open m := by
  intro h info here name
  rcases change.before here with new | ⟨earlier, there, same, kept⟩
  · exact new
  · have named : earlier.m = m := same.symm.trans name
    obtain ⟨del, cl⟩ := kept (by rwa [named])
    rw [del, cl]
    exact isOpen h earlier there named

/-- All handles to the name of a marked object refuse. -/
theorem Mgr.Doomed.refuses (doomed : mgr.Doomed h m) (sound : Sound mgr handles)
    (held : holders handles h ≠ 0) (live : handle ∈ handles) (name : handle.m = m) :
    mgr.Refuses handle := by
  obtain ⟨holder, holds, mine⟩ := exists_holder held
  obtain ⟨info, here, _⟩ := sound.held holder holds h mine
  obtain ⟨marked, named⟩ := doomed.2 info here
  intro cl ret
  cases has : handle.h with
  | none => simp only [HandleMgr.safebind, has]
  | some other =>
    obtain ⟨second, there, same⟩ := sound.held handle live other has
    obtain rfl := sound.unique here there (named.trans (name.symm.trans same.symm))
    simp only [HandleMgr.safebind, has, here, Option.map_some, marked, if_true]

theorem Mgr.Open.tries (isOpen : mgr.Open m) (sound : Sound mgr handles) (live : handle ∈ handles)
    (name : handle.m = m) (holds : handle.h ≠ none) : mgr.Tries handle := by
  obtain ⟨h, has⟩ := Option.ne_none_iff_exists'.mp holds
  obtain ⟨info, here, named⟩ := sound.held handle live h has
  obtain ⟨unmarked, unbound⟩ := isOpen h info here (named.trans name)
  intro cl ret
  by_cases fails : ret < 0
  · refine ⟨mgr.store h { info with del := true }, ?_⟩
    simp [HandleMgr.safebind, has, here, unmarked, unbound, fails]
  · refine ⟨mgr.store h { info with cl := some cl }, ?_⟩
    simp [HandleMgr.safebind, has, here, unmarked, unbound, fails]

theorem Mgr.Open.getHandle (isOpen : mgr.Open m) (sound : Sound mgr handles) {given : Option Addr}
    (ran : getHandle mgr m = some (next, given)) : given ≠ none := by
  cases entry : mgr.hmap m with
  | none =>
    simp only [HandleMgr.getHandle, entry] at ran
    cases ran
    simp
  | some h =>
    obtain ⟨info, here, name⟩ := sound.mapped m h entry
    have unmarked := (isOpen h info here name).1
    simp only [HandleMgr.getHandle, entry, here, Option.map_some, unmarked] at ran
    cases ran
    simp

theorem Mgr.Tries.fails (tries : mgr.Tries handle) (sound : Sound mgr handles)
    (live : handle ∈ handles) {cl : Rpcc} {ret : ℤ} (failed : ret < 0) {answer : Option Rpcc}
    (ran : safebind mgr handle cl ret = some (next, answer)) :
    ∃ h, handle.h = some h ∧ next.Doomed h handle.m := by
  obtain ⟨_, succeeds⟩ := tries cl 0
  obtain ⟨_, denies⟩ := tries cl ret
  cases has : handle.h with
  | none =>
    simp [HandleMgr.safebind, has] at succeeds
  | some h =>
    obtain ⟨info, here, name⟩ := sound.held handle live h has
    have old : h < mgr.allocated := by
      by_contra beyond
      cases (sound.fresh h (Nat.le_of_not_lt beyond)).symm.trans here
    cases marked : info.del with
    | true => simp [HandleMgr.safebind, has, here, marked] at succeeds
    | false =>
      cases connection : info.cl with
      | some bound => simp [HandleMgr.safebind, has, here, marked, connection, failed] at denies
      | none =>
        simp only [HandleMgr.safebind, has, here, Option.map_some, marked, connection,
          if_pos failed] at ran
        cases ran
        refine ⟨h, rfl, old, fun second there => ?_⟩
        obtain ⟨_, rfl⟩ | ⟨different, _⟩ := Mgr.heap_store there
        · exact ⟨rfl, name⟩
        · exact absurd rfl different

end Objects

theorem Sound.counted_state {state : State Rpcc} (sound : Sound state.mgr state.handles) :
    state.Counted := by
  refine ⟨fun handle live h holds => ?_, fun m h info entry here marked => ?_⟩
  · obtain ⟨info, here, name⟩ := sound.held handle live h holds
    exact ⟨info, here, name, sound.named h info here, sound.counted h info here⟩
  · have counted := sound.counted h info here
    have held := sound.marked h info here marked
    omega

theorem Sound.defined {state : State Rpcc} (sound : Sound state.mgr state.handles) :
    state.Defined := by
  refine ⟨fun m => ?_, fun handle live cl ret => ?_, fun handle live => ?_, fun m => ?_⟩
  · obtain ⟨_, _, ran, _⟩ := @Sound.getHandle _ _ _ (fun _ => True) sound m
    simp [ran]
  · obtain ⟨_, _, ran, _⟩ := @Sound.safebind _ _ _ (fun _ => True) _ sound live cl ret trivial
    simp [ran]
  · obtain ⟨rest, all⟩ := Multiset.exists_cons_of_mem live
    rw [all] at sound
    obtain ⟨_, ran, _⟩ := @Sound.destroy _ _ (fun _ => True) _ _ sound
    simp [ran]
  · obtain ⟨_, ran, _⟩ := @Sound.deleteHandleWo _ _ _ (fun _ => True) sound m trivial
    simp [deleteHandle, ran]

theorem Mgr.Doomed.opens {later last : State Rpcc} {handle : Handle} {h : Addr} {m : String}
    (doomed : later.mgr.Doomed h m) (sound : Sound later.mgr later.handles)
    (steps : Step later (.destroy handle) last) (holds : handle.h = some h)
    (released : holders last.handles h = 0) : last.mgr.Open m := by
  have live : handle ∈ later.handles := by
    cases steps
    exact Multiset.mem_cons_self _ _
  obtain ⟨info, here, _⟩ := sound.held handle live h holds
  obtain ⟨after, change⟩ := sound.step steps
  intro other second there name
  rcases change.before there with new | ⟨earlier, inside, same, _⟩
  · exact new
  · -- The only object of that name is the marked one, which nothing holds any more.
    have named : info.m = earlier.m := (doomed.2 info here).2.trans (name.symm.trans same)
    obtain rfl := sound.unique here inside named
    have marked := ((doomed.change change).2 second there).1
    exact absurd released (after.marked h second there marked)

theorem Mgr.Doomed.lasts {failed : State Rpcc} {h : Addr} {m : String}
    (doomed : failed.mgr.Doomed h m) (sound : Sound failed.mgr failed.handles) :
    FailureLasts failed h m := by
  have stays : ∀ later, Reachable (continuing failed) later →
      Sound later.mgr later.handles ∧ later.mgr.Doomed h m := by
    intro later reached
    refine @Reachable.invariant _ _ (continuing failed)
      (fun later => Sound later.mgr later.handles ∧ later.mgr.Doomed h m)
      (fun start begins => ?_) (fun before event after both steps => ?_) _ reached
    · cases begins
      exact ⟨sound, doomed⟩
    · obtain ⟨next, change⟩ := both.1.step steps
      exact ⟨next, both.2.change change⟩
  refine ⟨fun later reached held handle live name => ?_, ?_⟩
  · exact (stays later reached).2.refuses (stays later reached).1 held live name
  · intro later handle last reached holds steps released trace final run apart
    have starts := (stays later reached).2.opens (stays later reached).1 steps holds released
    have begins := ((stays later reached).1.step steps).1
    have ends : Sound final.mgr final.handles ∧ final.mgr.Open m := by
      induction run with
      | start same =>
        cases same
        exact ⟨begins, starts⟩
      | extend _ moves ih =>
        obtain ⟨sound, isOpen⟩ := ih fun event member => apart event (by simp [member])
        obtain ⟨next, change⟩ := sound.step moves
        exact ⟨next, isOpen.change (apart _ (by simp)) change⟩
    obtain ⟨sound, isOpen⟩ := ends
    refine ⟨fun new next moves name => ?_, fun other live name => isOpen.tries sound live name⟩
    obtain ⟨after, change⟩ := sound.step moves
    cases moves with
    | construct ran =>
      cases name
      have stillOpen := isOpen.change id change
      exact stillOpen.tries after (Multiset.mem_cons_self _ _) rfl (isOpen.getHandle sound ran)

/-- The counts of handles are right, no deleted object is used, none is deleted while
it is held, and a bind that failed is tried again once all its handles are gone. -/
theorem handles_counted {state : State Rpcc} (reachable : Reachable process state) :
    state.Counted ∧ state.Defined ∧
    (∀ event next h, Step state event next → state.mgr.heap h ≠ none → next.mgr.heap h = none →
      holders next.handles h = 0) ∧
    ∀ handle cl ret answer next, Step state (.safebind handle cl ret answer) next →
      state.mgr.Tries handle → ret < 0 → ∃ h, handle.h = some h ∧ FailureLasts next h handle.m := by
  have sound := Sound.reachable reachable
  refine ⟨sound.counted_state, sound.defined, ?_, ?_⟩
  · intro event next h steps _ gone
    by_contra held
    obtain ⟨handle, live, holds⟩ := exists_holder held
    obtain ⟨info, here, _⟩ := (sound.step steps).1.held handle live h holds
    cases gone.symm.trans here
  · intro handle cl ret answer next steps tries failed
    have after := (sound.step steps).1
    cases steps with
    | safebind live ran =>
      obtain ⟨h, holds, doomed⟩ := tries.fails sound live failed ran
      exact ⟨h, holds, doomed.lasts after⟩

def shared : State Unit where
  mgr := (Mgr.create ⟨fun _ => none, fun _ => none, 0⟩ "10.0.0.1:80").store 0
    ⟨none, 2, false, "10.0.0.1:80"⟩
  handles := {⟨"10.0.0.1:80", some 0⟩, ⟨"10.0.0.1:80", some 0⟩}

/-- The destination does not answer the bind of one of them. -/
theorem handles_counted_shared : shared.Counted ∧ ∃ next,
    Step shared (.safebind ⟨"10.0.0.1:80", some 0⟩ () (-1) none) next ∧
      FailureLasts next 0 "10.0.0.1:80" := by
  have begins : Reachable process (⟨⟨fun _ => none, fun _ => none, 0⟩, 0⟩ : State Unit) :=
    ⟨[], .start ⟨fun _ => rfl, fun _ => rfl, rfl⟩⟩
  have first := begins.extend (.construct (m := "10.0.0.1:80") rfl)
  have second : Reachable process shared := first.extend (.construct (m := "10.0.0.1:80") rfl)
  obtain ⟨counted, _, _, lasts⟩ := handles_counted second
  have isOpen : shared.mgr.Open "10.0.0.1:80" := by
    intro h info here _
    by_cases same : h = 0
    · subst same
      cases here
      exact ⟨rfl, rfl⟩
    · simp [shared, Mgr.store, Mgr.create, same] at here
  have live : ⟨"10.0.0.1:80", some 0⟩ ∈ shared.handles := by simp [shared]
  have tries : shared.mgr.Tries ⟨"10.0.0.1:80", some 0⟩ :=
    isOpen.tries (Sound.reachable second) live rfl (by simp)
  obtain ⟨h, holds, failure⟩ := lasts ⟨"10.0.0.1:80", some 0⟩ () (-1) none _
    (.safebind live rfl) tries (by decide)
  cases holds
  exact ⟨counted, _, .safebind live rfl, failure⟩

end HandleMgr

end NaiveFileSystem
