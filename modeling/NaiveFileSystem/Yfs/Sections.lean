import NaiveFileSystem.Yfs.Lone
import NaiveFileSystem.Yfs.Tasks

/-!
# The sections of a task

What a task does to an extent between taking its lock and giving it back, as a
relation of the bytes that it finds and those that it leaves, and which extents an
unlink removes. A get under the lock shows the bytes of the section, unless the
extent is lost because somebody removed it.
-/

namespace NaiveFileSystem.Yfs

open Extent Cache Program

/-- The bytes after a `setattr` that takes them to be `known` long. -/
def resizedFrom (known size : ℕ) (buf : Bytes) : Bytes :=
  if known < size then buf ++ List.replicate (size - known) 0
  else if size < known then buf.take size
  else buf

namespace Task

/-- How many locks a task takes, one after the other. -/
def sections : Task → ℕ
  | basic (.isfile _) | basic (.isdir _) | basic (.issymlink _) => 0
  | symlink _ _ _ _ => 2
  | _ => 1

/-- What the section on its own extent makes of the bytes, where the task has made these
inodes. -/
def First (made : List Inum) : Task → Bytes → Bytes → Prop
  | basic .init, _, now => now = []
  | basic (.create _ name _), before, now | basic (.mkdir _ name _), before, now
  | symlink _ _ name _, before, now => ∃ id, made = [id] ∧ now = before ++ lineOf (name, id)
  | basic (.write _ off data), before, now => now = Growing.splice 0 before off data
  | basic (.setattr _ size), before, now => ∃ known, now = resizedFrom known size before
  | unlink _ name, before, now =>
    now = if ∃ pass ∈ tokens before, uncode pass.1 = name then withoutName name before
      else before
  | _, before, now => now = before

def Second : Task → Bytes → Prop
  | symlink _ link _ _, now => now = link
  | _, _ => False

/-- What the `nth` section makes of the bytes of an extent. -/
def Effect (task : Task) (made : List Inum) : ℕ → Inum → Bytes → Bytes → Prop
  | 0, eid, before, now => eid = task.inum ∧ task.First made before now
  | 1, eid, _, now => made = [eid] ∧ task.Second now
  | _, _, _, _ => False

/-- The directory names an extent that the task is to remove. -/
def Removes : Task → Bytes → Inum → Prop
  | unlink _ name, text, id => ∃ finum, ∃ pass ∈ tokens text, uncode pass.1 = name ∧
    id = n2i finum pass.2
  | _, _, _ => False

end Task

/-- The lock of a thread, with the bytes when it was taken and those now. -/
inductive Hold
  | free
  | lost (eid : Inum)
  | held (eid : Inum) (before now : Bytes)

namespace Hold

def extent : Hold → Option Inum
  | free => none
  | lost eid | held eid _ _ => some eid

def got (reply : Status × Bytes) : Hold → Hold
  | held eid before now => if reply = (.OK, now) then held eid before now else lost eid
  | hold => hold

def put (buf : Bytes) : Hold → Hold
  | held eid before _ => held eid before buf
  | hold => hold

variable {hold : Hold} {reply : Status × Bytes} {buf before now : Bytes} {eid : Inum}

@[simp] theorem extent_got : (hold.got reply).extent = hold.extent := by
  cases hold with
  | free | lost => rfl
  | held eid before now =>
    rw [got]
    split
    next => rfl
    next => rfl

@[simp] theorem extent_put : (hold.put buf).extent = hold.extent := by
  cases hold with
  | free | lost | held => rfl

@[simp] theorem got_eq_held : hold.got reply = held eid before now ↔
    hold = held eid before now ∧ reply = (.OK, now) := by
  cases hold with
  | free | lost => simp [got]
  | held eid' before' now' =>
    rw [got]
    split
    next same => simp_all
    next other =>
      simp only [reduceCtorEq, held.injEq, false_iff, not_and]
      rintro ⟨rfl, rfl, rfl⟩
      exact other

@[simp] theorem put_eq_held : hold.put buf = held eid before now ↔
    now = buf ∧ ∃ old, hold = held eid before old := by
  cases hold with
  | free | lost => simp [put]
  | held eid' before' now' =>
    simp only [put, held.injEq]
    exact ⟨fun same => ⟨same.2.2.symm, now', same.1, same.2.1, rfl⟩,
      fun ⟨written, old, same, first, _⟩ => ⟨same, first, written.symm⟩⟩

theorem extent_held (same : hold = held eid before now) : hold.extent = some eid := by
  rw [same]
  rfl

/-- The lock is held, and nothing was put yet. -/
structure Unchanged (hold : Hold) (eid : Inum) : Prop where
  extent : hold.extent = some eid
  same : ∀ before now, hold = held eid before now → now = before

theorem unchanged_taken (eid : Inum) (data : Bytes) : (held eid data data).Unchanged eid := by
  refine ⟨rfl, fun before now same => ?_⟩
  cases same
  rfl

theorem Unchanged.got (unchanged : hold.Unchanged eid) (reply : Status × Bytes) :
    (hold.got reply).Unchanged eid := by
  refine ⟨extent_got.trans unchanged.extent, fun before now same => ?_⟩
  exact unchanged.same before now (got_eq_held.mp same).1

end Hold

/-- A thread's lock, the inodes that its task has made, and how many sections have ended. -/
structure Track where
  hold : Hold
  made : List Inum
  ended : ℕ

/-- A call of a task, which leaves in each section what the task is for. -/
def sectioned (task : Task) : Spec Op.Reply Track
  | .acquire lid, track, post => track.hold = .free ∧
    ∀ data, post { track with hold := .held lid data data } ()
  | .release lid, track, post => track.hold.extent = some lid ∧
    (∀ before now, track.hold = .held lid before now →
      task.Effect track.made track.ended lid before now) ∧
    post { track with hold := .free, ended := track.ended + 1 } ()
  | .get eid _, track, post => track.hold.extent = some eid ∧
    ∀ reply, post { track with hold := track.hold.got reply } reply
  | .put eid buf, track, post => track.hold.extent = some eid ∧
    ∀ reply, post { track with hold := track.hold.put buf } reply
  | .flush _, track, post | .getattr _ _, track, post => ∀ reply, post track reply
  | .remove eid, track, post => track.hold.extent = some task.inum ∧
    (∀ before now, track.hold = .held task.inum before now → task.Removes before eid) ∧
    ∀ reply, post track reply
  | .create _ _, track, post => ∀ reply, post { track with made := reply.2 :: track.made } reply

theorem sectioned_monotone (task : Task) : (sectioned task).Monotone := by
  intro op track first second weaker needs
  cases op with
  | acquire lid => exact ⟨needs.1, fun data => weaker _ _ (needs.2 data)⟩
  | release lid => exact ⟨needs.1, needs.2.1, weaker _ _ needs.2.2⟩
  | get eid buf | put eid buf => exact ⟨needs.1, fun reply => weaker _ _ (needs.2 reply)⟩
  | flush eid | getattr eid attr => exact fun reply => weaker _ _ (needs reply)
  | remove eid => exact ⟨needs.1, needs.2.1, fun reply => weaker _ _ (needs.2.2 reply)⟩
  | create code id => exact fun reply => weaker _ _ (needs reply)

section Tasks

variable {task : Task} (vars : Locals) {track : Track}

theorem put_of_got {holds : Bytes → Bytes → Prop} {lid eid : Inum} {data before now buf : Bytes}
    {got : Status × Bytes} (effect : got.2 = data → holds data buf)
    (same : ((Hold.held lid data data).got got).put buf = .held eid before now) :
    holds before now := by
  simp only [Hold.put_eq_held, Hold.got_eq_held, Hold.held.injEq] at same
  obtain ⟨rfl, old, ⟨_, rfl, rfl⟩, rfl⟩ := same
  exact effect rfl

theorem release_unchanged {lid : Inum} {post : Track → Unit → Prop}
    (unchanged : track.hold.Unchanged lid)
    (effect : ∀ data, task.Effect track.made track.ended lid data data)
    (after : post { track with hold := .free, ended := track.ended + 1 } ()) :
    sectioned task (.release lid) track post := by
  refine ⟨unchanged.extent, fun before now same => ?_, after⟩
  rw [unchanged.same before now same]
  exact effect before

theorem sectioned_addfile (parent : Inum) (name : Bytes) (inoOut : Inum) (type : ExtentType)
    (effect : ∀ id before, task.Effect [id] 0 parent before (before ++ lineOf (name, id))) :
    (YfsClient.addfile parent name inoOut type).wp (sectioned task) ⟨.free, [], 0⟩
      fun after value => after = ⟨.free, [value.2], 1⟩ := by
  refine ⟨rfl, fun data answer => ⟨rfl, fun got => ⟨?_, fun put => ⟨?_, fun before now same => ?_, rfl⟩⟩⟩⟩
  · simp only [Hold.extent_got]
    rfl
  · simp only [Hold.extent_put, Hold.extent_got]
    rfl
  · refine put_of_got (fun read => ?_) same
    rw [read]
    exact effect answer.2 data

theorem sectioned_isType (type : ExtentType) (inum : Inum) :
    (YfsClient.isType vars type inum).wp (sectioned task) track fun after _ => after = track := by
  intro reply
  show wp _ (if reply.1 ≠ .OK then _ else _) _ _
  split
  next => exact rfl
  next => exact rfl

theorem sectioned_find (parent : Inum) (name : Bytes) (found : Bool) (inoOut : Inum)
    (unchanged : track.hold.Unchanged parent) :
    (YfsClient.find vars parent name found inoOut).wp (sectioned task) track fun after _ =>
      after.made = track.made ∧ after.ended = track.ended ∧ after.hold.Unchanged parent := by
  intro asked
  show wp _ (if asked.2.type ≠ ExtentType.T_DIR.code then _ else _) _ _
  split
  next => exact ⟨rfl, rfl, unchanged⟩
  next =>
    refine ⟨unchanged.extent, fun got => ?_⟩
    simp only [Program.bind]
    cases (tokens got.2).find? fun pass => uncode pass.1 = name with
    | none => exact ⟨rfl, rfl, unchanged.got got⟩
    | some pass => exact ⟨rfl, rfl, unchanged.got got⟩

def Once (after : Track) : Prop := after.hold = .free ∧ after.ended = 1

theorem sectioned_lookup (parent : Inum) (name : Bytes) (found : Bool) (inoOut : Inum)
    (effect : ∀ data, task.Effect [] 0 parent data data) :
    (YfsClient.lookup vars parent name found inoOut).wp (sectioned task) ⟨.free, [], 0⟩
      fun after _ => Once after := by
  refine ⟨rfl, fun data => ?_⟩
  apply (wp_bind _ (YfsClient.find vars parent name found inoOut) _ _ _).mpr
  apply wp_mono (sectioned_monotone task) _ _ _
    (sectioned_find vars parent name found inoOut (Hold.unchanged_taken parent data))
  rintro ⟨hold, _, _⟩ value ⟨rfl, rfl, unchanged⟩
  exact release_unchanged unchanged effect ⟨rfl, rfl⟩

theorem sectioned_readdir (dir : Inum) (list : List Dirent)
    (effect : ∀ data, task.Effect [] 0 dir data data) :
    (YfsClient.readdir vars dir list).wp (sectioned task) ⟨.free, [], 0⟩
      fun after _ => Once after := by
  refine ⟨rfl, fun data => ?_⟩
  have taken := Hold.unchanged_taken dir data
  apply (wp_bind _ (YfsClient.isdir vars dir) _ _ _).mpr
  apply wp_mono (sectioned_monotone task) _ _ _ (sectioned_isType vars .T_DIR dir)
  rintro after directory rfl
  cases directory with
  | false => exact release_unchanged taken effect ⟨rfl, rfl⟩
  | true => exact ⟨taken.extent, fun got => release_unchanged (taken.got got) effect ⟨rfl, rfl⟩⟩

theorem sectioned_getfile (inum : Inum) (effect : ∀ data, task.Effect [] 0 inum data data) :
    (YfsClient.getfile vars inum).wp (sectioned task) ⟨.free, [], 0⟩ fun after _ => Once after := by
  refine ⟨rfl, fun data asked => ?_⟩
  show wp _ (if asked.1 ≠ .OK then _ else _) _ _
  split
  next => exact release_unchanged (Hold.unchanged_taken inum data) effect ⟨rfl, rfl⟩
  next => exact release_unchanged (Hold.unchanged_taken inum data) effect ⟨rfl, rfl⟩

theorem sectioned_read (ino : Inum) (size off : ℕ) (buf : Bytes)
    (effect : ∀ data, task.Effect [] 0 ino data data) :
    (YfsClient.read ino size off buf).wp (sectioned task) ⟨.free, [], 0⟩ fun after _ => Once after :=
  ⟨rfl, fun data => ⟨rfl, fun got =>
    release_unchanged ((Hold.unchanged_taken ino data).got got) effect ⟨rfl, rfl⟩⟩⟩

theorem sectioned_readlink (ino : Inum) (result : Bytes)
    (effect : ∀ data, task.Effect [] 0 ino data data) :
    (YfsClient.readlink ino result).wp (sectioned task) ⟨.free, [], 0⟩ fun after _ => Once after :=
  ⟨rfl, fun data => ⟨rfl, fun got =>
    release_unchanged ((Hold.unchanged_taken ino data).got got) effect ⟨rfl, rfl⟩⟩⟩

theorem sectioned_setattr (ino : Inum) (size : ℕ)
    (effect : ∀ data known, task.Effect [] 0 ino data (resizedFrom known size data)) :
    (YfsClient.setattr vars ino size).wp (sectioned task) ⟨.free, [], 0⟩
      fun after _ => Once after := by
  refine ⟨rfl, fun data asked => ?_⟩
  show wp _ (if asked.1 ≠ .OK then _ else _) _ _
  split
  next =>
    refine release_unchanged (Hold.unchanged_taken ino data) (fun data => ?_) ⟨rfl, rfl⟩
    have same := effect data size
    rwa [resizedFrom, if_neg (lt_irrefl _), if_neg (lt_irrefl _)] at same
  next =>
    refine ⟨rfl, fun got => ⟨?_, fun put => ⟨?_, fun before now same => ?_, rfl, rfl⟩⟩⟩
    · simp only [Hold.extent_got]
      rfl
    · simp only [Hold.extent_put, Hold.extent_got]
      rfl
    · refine put_of_got (fun read => ?_) same
      rw [read]
      exact effect data asked.2.size.toNat

theorem sectioned_write (ino : Inum) (off : ℕ) (buf : Bytes)
    (effect : ∀ data, task.Effect [] 0 ino data (Growing.splice 0 data off buf)) :
    (YfsClient.write ino off buf).wp (sectioned task) ⟨.free, [], 0⟩ fun after _ => Once after := by
  refine ⟨rfl, fun data => ⟨rfl, fun got => ⟨?_, fun put flushed =>
    ⟨?_, fun before now same => ?_, rfl, rfl⟩⟩⟩⟩
  · simp only [Hold.extent_got]
    rfl
  · simp only [Hold.extent_put, Hold.extent_got]
    rfl
  · refine put_of_got (fun read => ?_) same
    rw [read, written_eq_splice]
    exact effect data

theorem sectioned_unlinkPasses (name : Bytes) (passes : List (Bytes × Bytes)) (flag : Bool)
    (result : Bytes) (held : track.hold.extent = some task.inum)
    (removes : ∀ pass ∈ passes, uncode pass.1 = name → ∀ before now,
      track.hold = .held task.inum before now → task.Removes before (n2i vars.finum pass.2)) :
    (YfsClient.unlinkPasses vars name passes flag result).wp (sectioned task) track
      fun after value => after = track ∧
        (value.1 = true ↔ flag = true ∨ ∃ pass ∈ passes, uncode pass.1 = name) ∧
        value.2 = result ++ (passes.filter (uncode ·.1 ≠ name)).flatMap fun pass =>
          pass.1 ++ [32] ++ pass.2 ++ [32] := by
  induction passes generalizing flag result with
  | nil => exact ⟨rfl, by simp, by simp⟩
  | cons pass rest ih =>
    have later : ∀ pass ∈ rest, uncode pass.1 = name → ∀ before now,
        track.hold = .held task.inum before now → task.Removes before (n2i vars.finum pass.2) :=
      fun pass member => removes pass (by simp [member])
    unfold YfsClient.unlinkPasses
    split
    next named =>
      refine ⟨held, removes pass (by simp) named, fun reply => ?_⟩
      refine wp_mono (sectioned_monotone task) ?_ _ _ (ih true result later)
      rintro after value ⟨same, flagged, kept⟩
      exact ⟨same, by simp [flagged, named], by simp [kept, named]⟩
    next other =>
      refine wp_mono (sectioned_monotone task) ?_ _ _ (ih flag _ later)
      rintro after value ⟨same, flagged, kept⟩
      exact ⟨same, by simp [flagged, other],
        by simp [kept, other]⟩

theorem sectioned_unlink (parent : Inum) (name : Bytes) :
    (YfsClient.unlink vars parent name).wp (sectioned (.unlink parent name)) ⟨.free, [], 0⟩
      fun after _ => Once after := by
  refine ⟨rfl, fun data => ⟨rfl, fun got => ?_⟩⟩
  have taken := (Hold.unchanged_taken parent data).got got
  apply (wp_bind _ (YfsClient.unlinkPasses vars name (tokens got.2) false []) _ _ _).mpr
  apply wp_mono (sectioned_monotone _) _ _ _
    (sectioned_unlinkPasses vars name (tokens got.2) false [] taken.extent _)
  · rintro after ⟨flag, kept⟩ ⟨rfl, flagged, rfl⟩
    simp only [Bool.false_eq_true, false_or, List.nil_append] at flagged ⊢
    cases flag with
    | false =>
      refine ⟨taken.extent, fun before now same => ?_, rfl, rfl⟩
      obtain ⟨same, read⟩ := Hold.got_eq_held.mp (show (Hold.held parent data data).got got = _ from same)
      cases same
      cases read
      exact ⟨rfl, (if_neg fun named => by cases flagged.mpr named).symm⟩
    | true =>
      refine ⟨taken.extent, fun put => ⟨Hold.extent_put.trans taken.extent,
        fun before now same => put_of_got (fun read => ⟨rfl, ?_⟩) same, rfl, rfl⟩⟩
      rw [← read]
      exact (if_pos (flagged.mp rfl)).symm
  · intro pass member named before now same
    obtain ⟨same, read⟩ := Hold.got_eq_held.mp (show (Hold.held parent data data).got got = _ from same)
    cases same
    cases read
    exact ⟨vars.finum, pass, member, named, rfl⟩

theorem sectioned_symlink (parent : Inum) (link name : Bytes) (ino : Inum) :
    (YfsClient.symlink parent link name ino).wp (sectioned (.symlink parent link name ino))
      ⟨.free, [], 0⟩ fun after _ => after.hold = .free ∧ after.ended = 2 := by
  apply (wp_bind _ (YfsClient.addfile parent name ino .T_SYMLK) _ _ _).mpr
  apply wp_mono (sectioned_monotone _) _ _ _ (sectioned_addfile parent name ino .T_SYMLK _)
  · rintro after value rfl
    refine ⟨rfl, fun data => ⟨rfl, fun put flushed => ⟨rfl, fun before now same => ?_, rfl, rfl⟩⟩⟩
    cases same
    exact ⟨rfl, rfl⟩
  · exact fun id before => ⟨rfl, id, rfl, rfl⟩

theorem sectioned_dropped {α : Type} {program : Action α} {post : Track → Prop}
    (ends : program.wp (sectioned task) track fun after _ => post after) :
    (do let _ ← program : Action Unit).wp (sectioned task) track fun after _ => post after :=
  (wp_bind _ program _ _ _).mpr ends

/-- No lock is held, and all sections have ended. -/
def Task.Ends (task : Task) (track : Track) : Prop :=
  track.hold = .free ∧ track.ended = task.sections

theorem sectioned_call (call : Call) :
    (call.body vars).wp (sectioned (.basic call)) ⟨.free, [], 0⟩
      fun after _ => (Task.basic call).Ends after := by
  cases call with
  | init =>
    refine ⟨rfl, fun data => ⟨rfl, fun put => ⟨rfl, fun before now same => ?_, rfl, rfl⟩⟩⟩
    cases same
    exact ⟨rfl, rfl⟩
  | create parent name inoOut | mkdir parent name inoOut =>
    apply sectioned_dropped
    apply wp_mono (sectioned_monotone _) _ _ _ (sectioned_addfile parent name inoOut _ _)
    · rintro after value rfl
      exact ⟨rfl, rfl⟩
    · exact fun id before => ⟨rfl, id, rfl, rfl⟩
  | lookup parent name found inoOut =>
    exact sectioned_dropped (sectioned_lookup vars parent name found inoOut fun _ => ⟨rfl, rfl⟩)
  | isfile inum | isdir inum | issymlink inum =>
    apply sectioned_dropped
    apply wp_mono (sectioned_monotone _) _ _ _ (sectioned_isType vars _ inum)
    rintro after value rfl
    exact ⟨rfl, rfl⟩
  | getfile inum => exact sectioned_dropped (sectioned_getfile vars inum fun _ => ⟨rfl, rfl⟩)
  | read ino size off data =>
    exact sectioned_dropped (sectioned_read ino size off data fun _ => ⟨rfl, rfl⟩)
  | write ino off data => exact sectioned_dropped (sectioned_write ino off data fun _ => ⟨rfl, rfl⟩)
  | setattr ino size =>
    exact sectioned_dropped (sectioned_setattr vars ino size fun _ known => ⟨rfl, known, rfl⟩)

/-- A task that starts without a lock leaves in each section what it is for. -/
theorem sectioned_task (task : Task) : (task.body vars).wp (sectioned task) ⟨.free, [], 0⟩
    fun after _ => task.Ends after := by
  cases task with
  | basic call => exact sectioned_call vars call
  | symlink parent link name ino => exact sectioned_dropped (sectioned_symlink parent link name ino)
  | unlink parent name => exact sectioned_dropped (sectioned_unlink vars parent name)
  | readdir dir list => exact sectioned_dropped (sectioned_readdir vars dir list fun _ => ⟨rfl, rfl⟩)
  | readlink ino result => exact sectioned_dropped (sectioned_readlink ino result fun _ => ⟨rfl, rfl⟩)

end Tasks

end NaiveFileSystem.Yfs
