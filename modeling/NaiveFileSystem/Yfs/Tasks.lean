import NaiveFileSystem.Yfs.Discipline

/-!
# All operations under their locks

Every operation of a client, unlink and the links included, whatever its calls
reply. It holds one lock at a time, reads, writes and flushes the extent of that
lock alone, and asks for the attributes of any extent. An unlink also removes the
extents that a directory names, and for those it has no lock.
-/

namespace NaiveFileSystem.Yfs

open Extent Cache Program

/-- The operations. `getdir` and `getsymlink` make the calls of `getfile`. -/
inductive Task
  | basic (call : Call)
  | symlink (parent : Inum) (link name : Bytes) (ino : Inum)
  | unlink (parent : Inum) (name : Bytes)
  | readdir (dir : Inum) (list : List Dirent)
  | readlink (ino : Inum) (result : Bytes)

namespace Task

/-- The extent that a task is about. -/
def inum : Task → Inum
  | basic call => call.inum
  | symlink ino _ _ _ | unlink ino _ | readdir ino _ | readlink ino _ => ino

def body (vars : Locals) : Task → Action Unit
  | basic call => call.body vars
  | symlink parent link name ino => do let _ ← YfsClient.symlink parent link name ino
  | unlink parent name => do let _ ← YfsClient.unlink vars parent name
  | readdir dir list => do let _ ← YfsClient.readdir vars dir list
  | readlink ino result => do let _ ← YfsClient.readlink ino result

end Task

/-- What a thread goes by: the extents it knows of, and the lock it holds. -/
structure Guard where
  live : Inum → Prop
  held : Option Inum

/-- A call under the locks, whatever the reply. -/
def guarded : Spec Op.Reply Guard
  | .acquire lid, guard, post =>
    guard.live lid ∧ guard.held = none ∧ post { guard with held := some lid } ()
  | .release lid, guard, post => guard.held = some lid ∧ post { guard with held := none } ()
  | .get eid _, guard, post => guard.held = some eid ∧ ∀ reply, post guard reply
  | .put eid _, guard, post | .flush eid, guard, post =>
    guard.held = some eid ∧ ∀ reply, post guard reply
  | .getattr _ _, guard, post => ∀ reply, post guard reply
  | .remove _, guard, post => ∀ reply, post guard reply
  | .create code _, guard, post => (∃ type : ExtentType, code = type.code) ∧
    ∀ reply, post { guard with live := fun ino => guard.live ino ∨ ino = reply.2 } reply

theorem guarded_monotone : guarded.Monotone := by
  intro op guard first second weaker needs
  cases op with
  | acquire lid => exact ⟨needs.1, needs.2.1, weaker _ _ needs.2.2⟩
  | release lid => exact ⟨needs.1, weaker _ _ needs.2⟩
  | get eid buf | put eid buf | flush eid =>
    exact ⟨needs.1, fun reply => weaker _ _ (needs.2 reply)⟩
  | getattr eid attr | remove eid => exact fun reply => weaker _ _ (needs reply)
  | create code id => exact ⟨needs.1, fun reply => weaker _ _ (needs.2 reply)⟩

section Tasks

variable {live : Inum → Prop} (vars : Locals)

theorem guarded_addfile (parent : Inum) (name : Bytes) (inoOut : Inum) (type : ExtentType)
    (known : live parent) :
    (YfsClient.addfile parent name inoOut type).wp guarded ⟨live, none⟩
      fun after value => after.held = none ∧ after.live value.2 := by
  refine ⟨known, rfl, ⟨type, rfl⟩, fun made => ⟨rfl, fun got => ⟨rfl, fun put => ⟨rfl, rfl, ?_⟩⟩⟩⟩
  exact .inr rfl

theorem guarded_isType (type : ExtentType) (inum : Inum) (guard : Guard) :
    (YfsClient.isType vars type inum).wp guarded guard fun after _ => after = guard := by
  intro reply
  show wp _ (if reply.1 ≠ .OK then _ else _) _ _
  split
  next => exact rfl
  next => exact rfl

theorem guarded_find (parent : Inum) (name : Bytes) (found : Bool) (inoOut : Inum) (guard : Guard)
    (held : guard.held = some parent) :
    (YfsClient.find vars parent name found inoOut).wp guarded guard fun after _ => after = guard := by
  intro asked
  show wp _ (if asked.2.type ≠ ExtentType.T_DIR.code then _ else _) _ _
  split
  next => exact rfl
  next =>
    refine ⟨held, fun got => ?_⟩
    simp only [Program.bind]
    cases (tokens got.2).find? fun pass => uncode pass.1 = name with
    | none => exact rfl
    | some pass => exact rfl

theorem guarded_unlinkPasses (name : Bytes) (passes : List (Bytes × Bytes)) (flag : Bool)
    (result : Bytes) (guard : Guard) :
    (YfsClient.unlinkPasses vars name passes flag result).wp guarded guard
      fun after _ => after = guard := by
  induction passes generalizing flag result with
  | nil => exact rfl
  | cons pass rest ih =>
    unfold YfsClient.unlinkPasses
    split
    next => exact fun reply => ih true result
    next => exact ih flag _

theorem guarded_unlinkFinish (parent : Inum) (flag : Bool) (result : Bytes) (guard : Guard)
    (held : guard.held = some parent) :
    (YfsClient.unlinkFinish parent flag result).wp guarded guard
      fun after _ => after.held = none := by
  cases flag with
  | false => exact ⟨held, rfl⟩
  | true => exact ⟨held, fun put => ⟨held, rfl⟩⟩

theorem guarded_unlink (parent : Inum) (name : Bytes) (known : live parent) :
    (YfsClient.unlink vars parent name).wp guarded ⟨live, none⟩ fun after _ => after.held = none := by
  refine ⟨known, rfl, rfl, fun got => ?_⟩
  apply (wp_bind _ (YfsClient.unlinkPasses vars name (tokens got.2) false []) _ _ _).mpr
  apply wp_mono guarded_monotone _ _ _ (guarded_unlinkPasses vars name (tokens got.2) false [] _)
  intro after swept same
  rw [same]
  exact guarded_unlinkFinish parent swept.1 swept.2 _ rfl

theorem guarded_symlink (parent : Inum) (link name : Bytes) (ino : Inum) (known : live parent) :
    (YfsClient.symlink parent link name ino).wp guarded ⟨live, none⟩
      fun after _ => after.held = none := by
  apply (wp_bind _ (YfsClient.addfile parent name ino .T_SYMLK) _ _ _).mpr
  apply wp_mono guarded_monotone _ _ _ (guarded_addfile parent name ino .T_SYMLK known)
  intro after value free
  exact ⟨free.2, free.1, rfl, fun put => ⟨rfl, fun flushed => ⟨rfl, rfl⟩⟩⟩

theorem guarded_readdir (dir : Inum) (list : List Dirent) (known : live dir) :
    (YfsClient.readdir vars dir list).wp guarded ⟨live, none⟩ fun after _ => after.held = none := by
  refine ⟨known, rfl, ?_⟩
  apply (wp_bind _ (YfsClient.isdir vars dir) _ _ _).mpr
  apply wp_mono guarded_monotone _ _ _ (guarded_isType vars .T_DIR dir _)
  intro after directory same
  rw [same]
  cases directory with
  | false => exact ⟨rfl, rfl⟩
  | true => exact ⟨rfl, fun got => ⟨rfl, rfl⟩⟩

theorem guarded_setattr (ino : Inum) (size : ℕ) (known : live ino) :
    (YfsClient.setattr vars ino size).wp guarded ⟨live, none⟩ fun after _ => after.held = none := by
  refine ⟨known, rfl, fun asked => ?_⟩
  show wp _ (if asked.1 ≠ .OK then _ else _) _ _
  split
  next => exact ⟨rfl, rfl⟩
  next => exact ⟨rfl, fun got => ⟨rfl, fun put => ⟨rfl, rfl⟩⟩⟩

theorem guarded_getfile (inum : Inum) (known : live inum) :
    (YfsClient.getfile vars inum).wp guarded ⟨live, none⟩ fun after _ => after.held = none := by
  refine ⟨known, rfl, fun asked => ?_⟩
  show wp _ (if asked.1 ≠ .OK then _ else _) _ _
  split
  next => exact ⟨rfl, rfl⟩
  next => exact ⟨rfl, rfl⟩

theorem guarded_lookup (parent : Inum) (name : Bytes) (found : Bool) (inoOut : Inum)
    (known : live parent) :
    (YfsClient.lookup vars parent name found inoOut).wp guarded ⟨live, none⟩
      fun after _ => after.held = none := by
  refine ⟨known, rfl, ?_⟩
  apply (wp_bind _ (YfsClient.find vars parent name found inoOut) _ _ _).mpr
  apply wp_mono guarded_monotone _ _ _ (guarded_find vars parent name found inoOut _ rfl)
  intro after value same
  rw [same]
  exact ⟨rfl, rfl⟩

theorem guarded_dropped {α : Type} {program : Action α} {guard : Guard}
    (held : program.wp guarded guard fun after _ => after.held = none) :
    (do let _ ← program : Action Unit).wp guarded guard fun after _ => after.held = none :=
  (wp_bind _ program _ _ _).mpr held

theorem guarded_call (call : Call) (known : live call.inum) :
    (call.body vars).wp guarded ⟨live, none⟩ fun after _ => after.held = none := by
  have made : ∀ parent name inoOut type, live parent →
      (YfsClient.addfile parent name inoOut type).wp guarded ⟨live, none⟩
        fun after _ => after.held = none := by
    intro parent name inoOut type known
    exact wp_mono guarded_monotone (fun _ _ => And.left) _ _
      (guarded_addfile parent name inoOut type known)
  have typed : ∀ type inum, (YfsClient.isType vars type inum).wp guarded ⟨live, none⟩
      fun after _ => after.held = none := by
    intro type inum
    apply wp_mono guarded_monotone _ _ _ (guarded_isType vars type inum _)
    rintro after value rfl
    rfl
  cases call with
  | init => exact ⟨known, rfl, rfl, fun put => ⟨rfl, rfl⟩⟩
  | create parent name inoOut | mkdir parent name inoOut =>
    exact guarded_dropped (made parent name inoOut _ known)
  | lookup parent name found inoOut =>
    exact guarded_dropped (guarded_lookup vars parent name found inoOut known)
  | isfile inum | isdir inum | issymlink inum => exact guarded_dropped (typed _ inum)
  | getfile inum => exact guarded_dropped (guarded_getfile vars inum known)
  | read ino size off data => exact ⟨known, rfl, rfl, fun got => ⟨rfl, rfl⟩⟩
  | write ino off data =>
    exact ⟨known, rfl, rfl, fun got => ⟨rfl, fun put => ⟨rfl, fun flushed => ⟨rfl, rfl⟩⟩⟩⟩
  | setattr ino size => exact guarded_dropped (guarded_setattr vars ino size known)

theorem guarded_task (task : Task) (known : live task.inum) :
    (task.body vars).wp guarded ⟨live, none⟩ fun after _ => after.held = none := by
  cases task with
  | basic call => exact guarded_call vars call known
  | symlink parent link name ino => exact guarded_dropped (guarded_symlink parent link name ino known)
  | unlink parent name => exact guarded_dropped (guarded_unlink vars parent name known)
  | readdir dir list => exact guarded_dropped (guarded_readdir vars dir list known)
  | readlink ino result => exact ⟨known, rfl, rfl, fun got => ⟨rfl, rfl⟩⟩

end Tasks

end NaiveFileSystem.Yfs
