import NaiveFileSystem.Yfs.Discipline
import NaiveFileSystem.Yfs.Listing

/-!
# Operations whose calls fail

The calls on extents succeed or fail in any pattern. A call that fails changes no
extent and leaves its output argument alone. An operation is sound if it returns OK
only when all its calls did and it stored the edit of what was there, and if it
puts nothing behind a get or a create that failed.
-/

namespace NaiveFileSystem.Yfs

open Extent Cache Program YfsClient

/-- The stored extents. -/
structure Extents where
  type : ExtentId → UInt32
  data : ExtentId → Bytes

abbrev Log := List (Op × Status)

/-- The status of each call, by its number. The codes of the RPC library that
`setattr` hands on are no zeros. -/
structure Pattern where
  outcome : ℕ → Status
  failing : ∀ k, statusCode (outcome k) = 0 → outcome k = .OK

namespace Pattern

variable (pattern : Pattern)

/-- A call under the pattern; `id` is what `create` hands out. -/
def handle (id : ExtentId) : (op : Op) → Extents × Log → (Extents × Log) × op.Reply
  | .create type inoOut, (extents, log) =>
    let status := pattern.outcome log.length
    let made := ⟨Function.update extents.type id type, Function.update extents.data id []⟩
    ((if status = .OK then made else extents, log ++ [(.create type inoOut, status)]), status,
      if status = .OK then id else inoOut)
  | .get eid buf, (extents, log) =>
    let status := pattern.outcome log.length
    ((extents, log ++ [(.get eid buf, status)]), status,
      if status = .OK then extents.data eid else buf)
  | .getattr eid attr, (extents, log) =>
    let status := pattern.outcome log.length
    ((extents, log ++ [(.getattr eid attr, status)]), status,
      if status = .OK then
        { attr with type := extents.type eid, size := .ofNat (extents.data eid).length }
      else attr)
  | .put eid buf, (extents, log) =>
    let status := pattern.outcome log.length
    let stored := { extents with data := Function.update extents.data eid buf }
    ((if status = .OK then stored else extents, log ++ [(.put eid buf, status)]), status)
  | .remove eid, (extents, log) =>
    let status := pattern.outcome log.length
    ((extents, log ++ [(.remove eid, status)]), status)
  | .flush eid, (extents, log) =>
    let status := pattern.outcome log.length
    ((extents, log ++ [(.flush eid, status)]), status)
  | .acquire _, state | .release _, state => (state, ())

def Marks (log : Log) : Prop := ∀ k (inside : k < log.length), log[k].2 = pattern.outcome k

theorem marks_append {log : Log} (marks : pattern.Marks log) (op : Op) :
    pattern.Marks (log ++ [(op, pattern.outcome log.length)]) := by
  intro k inside
  rw [List.getElem_append]
  split
  next old => exact marks k old
  next new =>
    rw [List.length_append, List.length_singleton] at inside
    have last : k = log.length := by omega
    subst last
    simp

theorem handle_marks (id : ExtentId) (op : Op) (state : Extents × Log)
    (marks : pattern.Marks state.2) : pattern.Marks (pattern.handle id op state).1.2 := by
  cases op with
  | create type inoOut | put eid buf | get eid buf | getattr eid attr | remove eid | flush eid =>
    exact pattern.marks_append marks _
  | acquire lid | release lid => exact marks

theorem run_marks (id : ExtentId) {α : Type} (program : Action α) (state : Extents × Log)
    (marks : pattern.Marks state.2) : pattern.Marks (program.run (pattern.handle id) state).1.2 := by
  induction program generalizing state with
  | done value => exact marks
  | call op next ih => exact ih _ _ (pattern.handle_marks id op state marks)

theorem Marks.all_ok {pattern : Pattern} {log : Log} (marks : pattern.Marks log) :
    (∀ entry ∈ log, entry.2 = .OK) ↔ ∀ k < log.length, pattern.outcome k = .OK := by
  constructor
  · intro all k inside
    rw [← marks k inside]
    exact all _ (List.getElem_mem inside)
  · intro all entry member
    obtain ⟨k, inside, rfl⟩ := List.getElem_of_mem member
    rw [marks k inside]
    exact all k inside

end Pattern

/-- The operations that read an extent and write it back. `create` and `mkdir` are
`addfile` with their types. -/
inductive Edit
  | addfile (parent : Inum) (name : Bytes) (inoOut : Inum) (type : ExtentType)
  | symlink (parent : Inum) (link name : Bytes) (ino : Inum)
  | write (ino : Inum) (off : ℕ) (data : Bytes)
  | setattr (ino : Inum) (size : ℕ)
  | unlink (parent : Inum) (name : Bytes)

def passesOf (name data : Bytes) : List (Bytes × Bytes) :=
  (tokens data).filter (uncode ·.1 = name)

namespace Edit

def target : Edit → Inum
  | addfile ino _ _ _ | symlink ino _ _ _ | write ino _ _ | setattr ino _ | unlink ino _ => ino

def body (vars : Locals) : Edit → Action ℤ
  | addfile parent name inoOut type => do
    let (r, _) ← YfsClient.addfile parent name inoOut type
    return r
  | symlink parent link name ino => do
    let (r, _) ← YfsClient.symlink parent link name ino
    return r
  | write ino off data => do
    let (r, _) ← YfsClient.write ino off data
    return r
  | setattr ino size => YfsClient.setattr vars ino size
  | unlink parent name => YfsClient.unlink vars parent name

/-- The edit of a stored content, with the inum that a create hands out. -/
def applied (id : Inum) : Edit → Bytes → Bytes
  | addfile _ name _ _, stored | symlink _ _ name _, stored => stored ++ lineOf (name, id)
  | write _ off data, stored =>
    let grown := if stored.length < data.length + off then resize stored (off + data.length) else stored
    grown.take off ++ data ++ grown.drop (off + data.length)
  | setattr _ size, stored => resize stored size
  | unlink _ name, stored => withoutName name stored

def callCount : Edit → Bytes → ℕ
  | addfile _ _ _ _, _ | write _ _ _, _ | setattr _ _, _ => 3
  | symlink _ _ _ _, _ => 5
  | unlink _ name, stored =>
    if passesOf name stored = [] then 1 else (passesOf name stored).length + 2

/-- Operations that look at the status of their first call, or at what it left. -/
def Guarded : Edit → Prop
  | setattr _ _ | unlink _ _ => True
  | addfile _ _ _ _ | symlink _ _ _ _ | write _ _ _ => False

end Edit

/-- The calls that bring in what a later put is made of. -/
def Op.Reads : Op → Prop
  | .get _ _ | .create _ _ => True
  | _ => False

/-- What a run of an edit that ended in `state` with `result` is to satisfy. -/
structure Sound (edit : Edit) (id : Inum) (extents : Extents) (state : Extents × Log)
    (result : ℤ) : Prop where
  accepted : result = Result.OK → (∀ entry ∈ state.2, entry.2 = .OK) ∧
    state.1.data edit.target = edit.applied id (extents.data edit.target)
  refused : ∀ entry ∈ state.2, entry.1.Reads → entry.2 ≠ .OK →
    result ≠ Result.OK ∧ ∀ buf status, (Op.put edit.target buf, status) ∉ state.2

section Edits

variable {vars : Locals} {id : Inum} {extents : Extents} {pattern : Pattern}

theorem Sound.of_all {edit : Edit} {state : Extents × Log} {result : ℤ}
    (all : ∀ entry ∈ state.2, entry.2 = .OK)
    (content : result = Result.OK →
      state.1.data edit.target = edit.applied id (extents.data edit.target)) :
    Sound edit id extents state result :=
  ⟨fun ok => ⟨all, content ok⟩, fun entry member _ failed => absurd (all entry member) failed⟩

theorem Sound.iff_all {edit : Edit} {state : Extents × Log} {count : ℕ}
    (marks : pattern.Marks state.2) (length : state.2.length = count)
    (content : (∀ k < count, pattern.outcome k = .OK) →
      state.1.data edit.target = edit.applied id (extents.data edit.target)) :
    Sound edit id extents state Result.OK ↔ ∀ k < count, pattern.outcome k = .OK := by
  constructor
  · intro sound
    rw [← length, ← marks.all_ok]
    exact (sound.accepted rfl).1
  · intro all
    refine .of_all ?_ fun _ => content all
    rwa [marks.all_ok, length]

theorem start_marks : pattern.Marks [] := fun _ inside => absurd inside (Nat.not_lt_zero _)

def Edit.perform (vars : Locals) (id : Inum) (extents : Extents) (pattern : Pattern)
    (edit : Edit) : (Extents × Log) × ℤ :=
  (edit.body vars).run (pattern.handle id) (extents, [])

theorem sound_addfile (parent : Inum) (name : Bytes) (inoOut : Inum) (type : ExtentType)
    (apart : id ≠ parent) :
    Sound (.addfile parent name inoOut type) id extents
      ((Edit.addfile parent name inoOut type).perform vars id extents pattern).1 Result.OK ↔
      ∀ k < 3, pattern.outcome k = .OK := by
  refine Sound.iff_all (pattern.run_marks id _ _ start_marks) rfl fun all => ?_
  have created := all 0 (by decide)
  have got := all 1 (by decide)
  have put := all 2 (by decide)
  simp [Edit.perform, Edit.body, addfile, Pattern.handle, run_call, created, got, put, Edit.target,
    Edit.applied, lineOf, apart.symm]

theorem sound_symlink (parent : Inum) (link name : Bytes) (ino : Inum) (apart : id ≠ parent) :
    Sound (.symlink parent link name ino) id extents
      ((Edit.symlink parent link name ino).perform vars id extents pattern).1 Result.OK ↔
      ∀ k < 5, pattern.outcome k = .OK := by
  refine Sound.iff_all (pattern.run_marks id _ _ start_marks) rfl fun all => ?_
  have created := all 0 (by decide)
  have got := all 1 (by decide)
  have put := all 2 (by decide)
  have linked := all 3 (by decide)
  simp [Edit.perform, Edit.body, symlink, addfile, Pattern.handle, run_call, created, got, put,
    linked, Edit.target, Edit.applied, lineOf, apart.symm]

theorem sound_write (ino : Inum) (off : ℕ) (data : Bytes) :
    Sound (.write ino off data) id extents
      ((Edit.write ino off data).perform vars id extents pattern).1 Result.OK ↔
      ∀ k < 3, pattern.outcome k = .OK := by
  refine Sound.iff_all (pattern.run_marks id _ _ start_marks) rfl fun all => ?_
  have got := all 0 (by decide)
  have put := all 1 (by decide)
  simp [Edit.perform, Edit.body, write, Pattern.handle, run_call, got, put, Edit.target,
    Edit.applied]
  rfl

theorem sound_setattr (ino : Inum) (size : ℕ) (sized : (extents.data ino).length < 2 ^ 32) :
    Sound (.setattr ino size) id extents
      ((Edit.setattr ino size).perform vars id extents pattern).1
      ((Edit.setattr ino size).perform vars id extents pattern).2 ↔
      (∀ k < 3, pattern.outcome k = .OK) ∨ pattern.outcome 0 ≠ .OK := by
  by_cases asked : pattern.outcome 0 = .OK
  · have ran : ((Edit.setattr ino size).perform vars id extents pattern).2 = Result.OK := by
      simp [Edit.perform, Edit.body, setattr, Pattern.handle, run_call, asked]
    rw [ran, or_iff_left (not_not_intro asked)]
    refine Sound.iff_all (pattern.run_marks id _ _ start_marks) ?_ fun all => ?_
    · simp [Edit.perform, Edit.body, setattr, Pattern.handle, run_call, asked]
    · have got := all 1 (by decide)
      have put := all 2 (by decide)
      have length : (UInt32.ofNat (extents.data ino).length).toNat = (extents.data ino).length :=
        Nat.mod_eq_of_lt sized
      simp [Edit.perform, Edit.body, setattr, Pattern.handle, run_call, asked, got, put, Edit.target,
        Edit.applied, length, ← resize_eq]
  · have log : ((Edit.setattr ino size).perform vars id extents pattern).1.2 =
        [(.getattr ino vars.attr, pattern.outcome 0)] := by
      simp [Edit.perform, Edit.body, setattr, Pattern.handle, run_call, asked]
    have ran : ((Edit.setattr ino size).perform vars id extents pattern).2 =
        statusCode (pattern.outcome 0) := by
      simp [Edit.perform, Edit.body, setattr, Pattern.handle, run_call, asked]
    refine iff_of_true ⟨fun ok => ?_, fun entry member reads => ?_⟩ (.inr asked)
    · exact absurd (pattern.failing 0 (ran.symm.trans ok)) asked
    · rw [log, List.mem_singleton] at member
      rw [member] at reads
      exact reads.elim

theorem unlinkPasses_run (name : Bytes) (passes : List (Bytes × Bytes)) (flag : Bool)
    (result : Bytes) (log : Log) :
    ∃ after : Log, (unlinkPasses vars name passes flag result).run (pattern.handle id)
        (extents, log) = ((extents, after), flag || passes.any (uncode ·.1 = name),
          result ++ (passes.filter (uncode ·.1 ≠ name)).flatMap fun pass =>
            pass.1 ++ [32] ++ pass.2 ++ [32]) ∧
      after.length = log.length + (passes.filter (uncode ·.1 = name)).length := by
  induction passes generalizing flag result log with
  | nil => exact ⟨log, by simp [unlinkPasses], by simp⟩
  | cons pass rest ih =>
    by_cases same : uncode pass.1 = name
    · obtain ⟨after, ran, length⟩ := ih true result
        (log ++ [(.remove (n2i vars.finum pass.2), pattern.outcome log.length)])
      refine ⟨after, ?_, ?_⟩
      · rw [unlinkPasses, if_pos same]
        simp only [perform_bind, run_call, Pattern.handle, ran]
        simp [same]
      · rw [length, List.filter_cons_of_pos (by simpa using same)]
        simp
        omega
    · obtain ⟨after, ran, length⟩ := ih flag (result ++ (pass.1 ++ [32] ++ pass.2 ++ [32])) log
      refine ⟨after, ?_, ?_⟩
      · rw [unlinkPasses, if_neg same, ran]
        simp [same]
      · rw [length, List.filter_cons_of_neg (by simpa using same)]

theorem unlink_refused (parent : Inum) (name : Bytes) (failed : pattern.outcome 0 ≠ .OK) :
    (Edit.unlink parent name).perform vars id extents pattern =
      ((extents, [(.get parent [], pattern.outcome 0)]), Result.ENOENT) := by
  have none : tokens [] = [] := by
    rw [tokens, passes]
    simp
  simp [Edit.perform, Edit.body, unlink, Pattern.handle, run_call, failed, none, unlinkPasses,
    unlinkFinish]

/-- With the directory read, the loop removes the entries of the name. -/
theorem unlink_read (parent : Inum) (name : Bytes) (got : pattern.outcome 0 = .OK) :
    ∃ log : Log, log.length = (passesOf name (extents.data parent)).length + 1 ∧
      (Edit.unlink parent name).perform vars id extents pattern =
        (unlinkFinish parent (passesOf name (extents.data parent) ≠ [])
          (withoutName name (extents.data parent))).run (pattern.handle id) (extents, log) := by
  obtain ⟨log, ran, length⟩ := @unlinkPasses_run vars id extents pattern name
    (tokens (extents.data parent)) false [] [(.get parent [], .OK)]
  refine ⟨log, by rw [length, passesOf, List.length_singleton, Nat.add_comm], ?_⟩
  have flag : (tokens (extents.data parent)).any (uncode ·.1 = name) =
      decide (passesOf name (extents.data parent) ≠ []) := by
    rw [Bool.eq_iff_iff, decide_eq_true_eq, passesOf, ne_eq, List.filter_eq_nil_iff]
    simp
  rw [Bool.false_or, List.nil_append, flag] at ran
  have called : pattern.handle id (.get parent []) (extents, []) =
      ((extents, [(.get parent [], .OK)]), .OK, extents.data parent) := by
    simp [Pattern.handle, got]
  simp only [Edit.perform, Edit.body, unlink, perform_bind]
  rw [run_call_of rfl, run_call_of called, run_bind_of ran]
  rfl

theorem sound_unlink (parent : Inum) (name : Bytes) :
    Sound (.unlink parent name) id extents
      ((Edit.unlink parent name).perform vars id extents pattern).1
      ((Edit.unlink parent name).perform vars id extents pattern).2 ↔
      (∀ k < (Edit.unlink parent name).callCount (extents.data parent), pattern.outcome k = .OK) ∨
        pattern.outcome 0 ≠ .OK := by
  have refusal : Result.ENOENT ≠ Result.OK := by decide
  by_cases got : pattern.outcome 0 = .OK
  · have marks := pattern.run_marks id ((Edit.unlink parent name).body vars) (extents, []) start_marks
    obtain ⟨log, length, ran⟩ := @unlink_read vars id extents pattern parent name got
    rw [← Edit.perform, ran] at marks
    rw [or_iff_left (not_not_intro got), Edit.callCount, ran]
    split
    next absent =>
      rw [absent] at length
      simp only [absent, ne_eq, not_true, decide_false] at marks ⊢
      rw [List.length_nil, Nat.zero_add] at length
      have all : ∀ k < log.length, pattern.outcome k = .OK := by
        intro k only
        rw [length] at only
        rwa [Nat.lt_one_iff.mp only]
      refine iff_of_true (.of_all (marks.all_ok.mpr all) fun ok => absurd ok refusal) ?_
      rwa [length] at all
    next found =>
      simp only [found, ne_eq, not_false_eq_true, decide_true] at marks ⊢
      refine Sound.iff_all marks (by simp [unlinkFinish, run_call, Pattern.handle, length]) fun all => ?_
      have put : pattern.outcome log.length = .OK := all _ (by omega)
      simp [unlinkFinish, run_call, Pattern.handle, put, Edit.target, Edit.applied]
  · rw [unlink_refused parent name got]
    refine iff_of_true ⟨fun ok => absurd ok refusal, fun entry member _ _ => ?_⟩ (.inr got)
    exact ⟨refusal, fun buf status put => by simp at put⟩

end Edits

/-- An edit is sound exactly if all its calls succeed, or its first call fails and
the operation notices. The inum handed out is a new one, and a size has 32 bits. -/
theorem sound_iff (vars : Locals) (edit : Edit) (id : Inum) (extents : Extents) (pattern : Pattern)
    (apart : id ≠ edit.target) (sized : (extents.data edit.target).length < 2 ^ 32) :
    Sound edit id extents (edit.perform vars id extents pattern).1
      (edit.perform vars id extents pattern).2 ↔
      (∀ k < edit.callCount (extents.data edit.target), pattern.outcome k = .OK) ∨
        edit.Guarded ∧ pattern.outcome 0 ≠ .OK := by
  cases edit with
  | addfile parent name inoOut type =>
    rw [Edit.Guarded, false_and, or_false]
    exact sound_addfile parent name inoOut type apart
  | symlink parent link name ino =>
    rw [Edit.Guarded, false_and, or_false]
    exact sound_symlink parent link name ino apart
  | write ino off data =>
    rw [Edit.Guarded, false_and, or_false]
    exact sound_write ino off data
  | setattr ino size =>
    rw [Edit.Guarded, true_and]
    exact sound_setattr ino size sized
  | unlink parent name =>
    rw [Edit.Guarded, true_and]
    exact sound_unlink parent name

def oneEntry : Extents := ⟨fun _ => ExtentType.T_DIR.code, fun _ => textOf [([97], 2)]⟩

def failsAt (call : ℕ) : Pattern where
  outcome k := if k = call then .IOERR else .OK
  failing k zero := by
    split at zero
    next => cases zero
    next others => rw [if_neg others]

/-- An unlink that cannot read its directory. -/
theorem sound_iff_unlink : Sound (.unlink 1 [97]) 5 oneEntry
    ((Edit.unlink 1 [97]).perform ⟨⟨0, 0, 0, 0, 0⟩, 0⟩ 5 oneEntry (failsAt 0)).1
    ((Edit.unlink 1 [97]).perform ⟨⟨0, 0, 0, 0, 0⟩, 0⟩ 5 oneEntry (failsAt 0)).2 :=
  (sound_iff ⟨⟨0, 0, 0, 0, 0⟩, 0⟩ (.unlink 1 [97]) 5 oneEntry (failsAt 0) (by decide)
    (by decide +kernel)).mpr (.inr ⟨trivial, by decide⟩)

/-- A create that cannot read its directory leaves it with nothing but the new entry. -/
theorem directory_overwritten :
    ((Edit.addfile 1 [98] 0 .T_FILE).perform ⟨⟨0, 0, 0, 0, 0⟩, 0⟩ 5 oneEntry (failsAt 1)).2 =
      Result.OK ∧
    ((Edit.addfile 1 [98] 0 .T_FILE).perform ⟨⟨0, 0, 0, 0, 0⟩, 0⟩ 5 oneEntry
      (failsAt 1)).1.1.data 1 = lineOf ([98], 5) ∧
    ¬ Sound (.addfile 1 [98] 0 .T_FILE) 5 oneEntry
      ((Edit.addfile 1 [98] 0 .T_FILE).perform ⟨⟨0, 0, 0, 0, 0⟩, 0⟩ 5 oneEntry (failsAt 1)).1
      ((Edit.addfile 1 [98] 0 .T_FILE).perform ⟨⟨0, 0, 0, 0, 0⟩, 0⟩ 5 oneEntry (failsAt 1)).2 := by
  refine ⟨rfl, rfl, fun sound => ?_⟩
  have failed := (sound.accepted rfl).1 (.get 1 [], .IOERR) (by
    show _ ∈ [(Op.create 2 0, Status.OK), (Op.get 1 [], Status.IOERR), (Op.put 1 _, Status.OK)]
    simp)
  cases failed

end NaiveFileSystem.Yfs
