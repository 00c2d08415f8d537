import NaiveFileSystem.Yfs.Client

/-!
# The lock discipline of the operations

What each call needs and gives while other clients work: a lock protects the
content of the extent with its number, so the holder knows that content from the
acquire to the release. Every operation keeps to it, and the content that
`setattr` leaves is the one it promises.
-/

namespace NaiveFileSystem.Yfs

open Extent Cache Program

/-- The operations of the running clients. -/
inductive Call
  | init
  | create (parent : Inum) (name : Bytes) (inoOut : Inum)
  | mkdir (parent : Inum) (name : Bytes) (inoOut : Inum)
  | lookup (parent : Inum) (name : Bytes) (found : Bool) (inoOut : Inum)
  | isfile (inum : Inum)
  | isdir (inum : Inum)
  | issymlink (inum : Inum)
  | getfile (inum : Inum)
  | read (ino : Inum) (size off : ℕ) (data : Bytes)
  | write (ino : Inum) (off : ℕ) (data : Bytes)
  | setattr (ino : Inum) (size : ℕ)

namespace Call

/-- The extent that a call is about. -/
def inum : Call → Inum
  | init => 1
  | create ino _ _ | mkdir ino _ _ | lookup ino _ _ _ | isfile ino | isdir ino | issymlink ino
  | getfile ino | read ino _ _ _ | write ino _ _ | setattr ino _ => ino

def body (vars : Locals) : Call → Action Unit
  | init => YfsClient.init
  | create parent name inoOut => do let _ ← YfsClient.create parent name inoOut
  | mkdir parent name inoOut => do let _ ← YfsClient.mkdir parent name inoOut
  | lookup parent name found inoOut => do let _ ← YfsClient.lookup vars parent name found inoOut
  | isfile ino => do let _ ← YfsClient.isfile vars ino
  | isdir ino => do let _ ← YfsClient.isdir vars ino
  | issymlink ino => do let _ ← YfsClient.issymlink vars ino
  | getfile ino => do let _ ← YfsClient.getfile vars ino
  | read ino size off data => do let _ ← YfsClient.read ino size off data
  | write ino off data => do let _ ← YfsClient.write ino off data
  | setattr ino size => do let _ ← YfsClient.setattr vars ino size

/-- What a call promises of the content of a locked extent: the content when the
lock was granted, and the one when it is released. -/
def promise : Call → Bytes → Bytes → Prop
  | setattr _ size, start, final => final = resize start size
  | _, _, _ => True

end Call

/-- What a thread knows: which extents exist, and for the lock it holds the content
of the extent when the lock was granted and now. -/
structure Knows where
  live : Inum → Prop
  held : Option (Inum × Bytes × Bytes)

/-- A call under the discipline. The size that `getattr` returns is that of the
content only under the lock. -/
def discipline (promise : Bytes → Bytes → Prop) : Spec Op.Reply Knows
  | .acquire lid, knows, post => knows.live lid ∧ knows.held = none ∧
    ∀ data, post { knows with held := some (lid, data, data) } ()
  | .release lid, knows, post => ∃ start now, knows.held = some (lid, start, now) ∧
    promise start now ∧ post { knows with held := none } ()
  | .get eid _, knows, post => ∃ start now, knows.held = some (eid, start, now) ∧
    post knows (.OK, now)
  | .put eid buf, knows, post => ∃ start now, knows.held = some (eid, start, now) ∧
    post { knows with held := some (eid, start, buf) } .OK
  | .flush eid, knows, post => ∃ start now, knows.held = some (eid, start, now) ∧
    ∀ ret, post knows ret
  | .getattr eid _, knows, post => knows.live eid ∧ ∀ a : Attr,
    (∀ start now, knows.held = some (eid, start, now) → a.size.toNat = now.length) →
      post knows (.OK, a)
  | .create _ _, knows, post => ∀ id,
    post { knows with live := fun ino => knows.live ino ∨ ino = id } (.OK, id)
  | .remove _, _, _ => False

theorem discipline_monotone (promise : Bytes → Bytes → Prop) :
    (discipline promise).Monotone := by
  intro op knows first second weaker needs
  cases op with
  | acquire lid => exact ⟨needs.1, needs.2.1, fun data => weaker _ _ (needs.2.2 data)⟩
  | release lid =>
    obtain ⟨start, now, held, kept, after⟩ := needs
    exact ⟨start, now, held, kept, weaker _ _ after⟩
  | get eid buf | put eid buf =>
    obtain ⟨start, now, held, after⟩ := needs
    exact ⟨start, now, held, weaker _ _ after⟩
  | flush eid =>
    obtain ⟨start, now, held, after⟩ := needs
    exact ⟨start, now, held, fun ret => weaker _ _ (after ret)⟩
  | getattr eid attr => exact ⟨needs.1, fun a sized => weaker _ _ (needs.2 a sized)⟩
  | create type id => exact fun id => weaker _ _ (needs id)
  | remove eid => exact needs

theorem length_resize (buf : Bytes) (size : ℕ) : (resize buf size).length = size := by
  simp only [resize, List.length_append, List.length_take, List.length_replicate]
  omega

theorem resize_eq (buf : Bytes) (size : ℕ) :
    (if buf.length < size then buf ++ List.replicate (size - buf.length) 0
      else if size < buf.length then buf.take size else buf) = resize buf size := by
  rw [resize]
  split
  next grows => rw [List.take_of_length_le grows.le]
  next stays =>
    have none : size - buf.length = 0 := by omega
    rw [none, List.replicate_zero, List.append_nil]
    split
    next => rfl
    next same => rw [List.take_of_length_le (by omega)]

section Calls

variable {live : Inum → Prop} (vars : Locals)

abbrev Disciplined (call : Call) : Prop :=
  ∀ live : Inum → Prop, live call.inum → (call.body vars).wp (discipline call.promise)
    ⟨live, none⟩ fun after _ => after.held = none

theorem disciplined_setattr (ino : Inum) (size : ℕ) : Disciplined vars (.setattr ino size) := by
  intro live known
  refine ⟨known, rfl, fun data => ⟨known, fun a sized => ?_⟩⟩
  have length : a.size.toNat = data.length := sized data data rfl
  refine ⟨data, data, rfl, data, data, rfl, data, _, rfl, ?_, rfl⟩
  show (if a.size.toNat < size then _ else _) = _
  rw [length]
  exact resize_eq data size

theorem disciplined_addfile (parent : Inum) (name : Bytes) (inoOut : Inum) (type : ExtentType)
    {live : Inum → Prop} (known : live parent) :
    (YfsClient.addfile parent name inoOut type).wp (discipline fun _ _ => True) ⟨live, none⟩
      fun after _ => after.held = none := by
  refine ⟨known, rfl, fun data id => ?_⟩
  exact ⟨data, data, rfl, data, data, rfl, data, _, rfl, trivial, rfl⟩

theorem disciplined_find (parent : Inum) (name : Bytes) (found : Bool) (inoOut : Inum)
    (promise : Bytes → Bytes → Prop) {knows : Knows} {start now : Bytes} (known : knows.live parent)
    (held : knows.held = some (parent, start, now)) :
    (YfsClient.find vars parent name found inoOut).wp (discipline promise) knows
      fun after _ => after = knows := by
  refine ⟨known, fun a _ => ?_⟩
  show wp _ (if a.type ≠ ExtentType.T_DIR.code then _ else _) _ _
  split
  next => exact rfl
  next =>
    refine ⟨start, now, held, ?_⟩
    simp only [Program.bind]
    cases (tokens now).find? fun pass => uncode pass.1 = name with
    | none => exact rfl
    | some pass => exact rfl

theorem disciplined_lookup (parent : Inum) (name : Bytes) (found : Bool) (inoOut : Inum)
    {live : Inum → Prop} (known : live parent) :
    (YfsClient.lookup vars parent name found inoOut).wp (discipline fun _ _ => True) ⟨live, none⟩
      fun after _ => after.held = none := by
  refine ⟨known, rfl, fun data => ?_⟩
  apply (wp_bind _ (YfsClient.find vars parent name found inoOut) _ _ _).mpr
  refine wp_mono (discipline_monotone _) (fun after value same => ?_) _ _
    (disciplined_find vars parent name found inoOut _ known rfl)
  rw [same]
  exact ⟨data, data, rfl, trivial, rfl⟩

theorem disciplined (call : Call) : Disciplined vars call := by
  intro live known
  cases call with
  | init => exact ⟨known, rfl, fun data => ⟨data, data, rfl, data, _, rfl, trivial, rfl⟩⟩
  | create parent name inoOut =>
    exact (wp_bind _ _ _ _ _).mpr (disciplined_addfile parent name inoOut .T_FILE known)
  | mkdir parent name inoOut =>
    exact (wp_bind _ _ _ _ _).mpr (disciplined_addfile parent name inoOut .T_DIR known)
  | lookup parent name found inoOut =>
    exact (wp_bind _ _ _ _ _).mpr (disciplined_lookup vars parent name found inoOut known)
  | isfile ino | isdir ino | issymlink ino => exact ⟨known, fun a _ => rfl⟩
  | getfile ino =>
    exact ⟨known, rfl, fun data => ⟨known, fun a _ => ⟨data, data, rfl, trivial, rfl⟩⟩⟩
  | read ino size off data =>
    exact ⟨known, rfl, fun data => ⟨data, data, rfl, data, data, rfl, trivial, rfl⟩⟩
  | write ino off data =>
    refine ⟨known, rfl, fun data => ⟨data, data, rfl, data, data, rfl, data, _, rfl, fun ret => ?_⟩⟩
    exact ⟨data, _, rfl, trivial, rfl⟩
  | setattr ino size => exact disciplined_setattr vars ino size live known

end Calls

end NaiveFileSystem.Yfs
