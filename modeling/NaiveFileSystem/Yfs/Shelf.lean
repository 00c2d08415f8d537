import NaiveFileSystem.Yfs.Atomic

/-!
# Directories of the whole system

The listing of a directory is read off the sections that ended on it, in their order.
As long as only directory operations write there, its text is the text of that
listing, whatever the other threads and clients do.
-/

namespace NaiveFileSystem.Yfs

open Extent Cache Transition Program

/-- An entry that has a name is added for the inode that was made. -/
def added (made : List Inum) (name : Bytes) (op : Inum → DirOp) : Option Listing → Option Listing
  | none => none
  | some listing =>
    match made with
    | [id] => if name = [] then none else some ((op id).apply listing)
    | _ => none

/-- What the first section of a task makes of the listing of its directory; none where the
text may be that of no listing. -/
def Task.edit (made : List Inum) (listing : Option Listing) : Task → Option Listing
  | basic .init => some []
  | basic (.create _ name _) => added made name (.create name) listing
  | basic (.mkdir _ name _) => added made name (.mkdir name) listing
  | symlink _ link name _ => added made name (.symlink link name) listing
  | unlink _ name => listing.map fun listing => (DirOp.unlink name).apply listing
  | basic (.write _ _ _) | basic (.setattr _ _) => none
  | _ => listing

/-- The listing of a directory, and what the threads are at. -/
structure Shelf (ι : Type) where
  listing : Option Listing
  works : ι → Option Work

section Text

theorem unlinked_textOf {listing : Listing} (named : ∀ entry ∈ listing, entry.1 ≠ []) (name : Bytes) :
    (if ∃ pass ∈ tokens (textOf listing), uncode pass.1 = name
      then withoutName name (textOf listing) else textOf listing) =
      textOf (listing.filter (·.1 ≠ name)) := by
  split
  next => exact withoutName_textOf named name
  next none =>
    rw [tokens_textOf named] at none
    rw [List.filter_eq_self.mpr fun entry inside => ?_]
    simp only [ne_eq, decide_not, Bool.not_eq_eq_eq_not, Bool.not_true, decide_eq_false_iff_not]
    rintro rfl
    exact none ⟨_, List.mem_map.mpr ⟨entry, inside, rfl⟩, uncode_encode _⟩

def Writes (listing : Option Listing) (text : Bytes) : Prop :=
  ∀ entries, listing = some entries → (∀ entry ∈ entries, entry.1 ≠ []) ∧ text = textOf entries

theorem added_text {name before : Bytes} {op : Inum → DirOp}
    {listing : Option Listing} {id : Inum}
    (adds : ∀ entries, (op id).apply entries = entries ++ [(name, id)])
    (text : Writes listing before) :
    Writes (added [id] name op listing) (before ++ lineOf (name, id)) := by
  intro entries same
  cases listing with
  | none => cases same
  | some old =>
    obtain ⟨named, rfl⟩ := text old rfl
    rw [added] at same
    split at same
    next => cases same
    next here =>
      rw [adds] at same
      cases same
      refine ⟨fun entry inside => ?_, by simp [textOf]⟩
      rcases List.mem_append.mp inside with old | new
      · exact named entry old
      · rw [List.mem_singleton.mp new]
        exact here

theorem Task.First.text {task : Task} {made : List Inum} {before now : Bytes}
    {listing : Option Listing} (first : task.First made before now) (text : Writes listing before) :
    Writes (task.edit made listing) now := by
  cases task with
  | symlink parent link name ino =>
    obtain ⟨id, rfl, rfl⟩ := first
    exact added_text (fun _ => rfl) text
  | unlink parent name =>
    intro entries same
    obtain ⟨old, rfl, rfl⟩ := Option.map_eq_some_iff.mp same
    obtain ⟨named, rfl⟩ := text old rfl
    refine ⟨fun entry inside => named entry (List.mem_of_mem_filter inside), ?_⟩
    rw [show now = _ from first]
    exact unlinked_textOf named name
  | readdir | readlink =>
    rw [show now = before from first]
    exact text
  | basic call =>
    cases call with
    | init =>
      intro entries same
      cases same
      exact ⟨fun _ none => by simp at none, first⟩
    | create parent name inoOut | mkdir parent name inoOut =>
      obtain ⟨id, rfl, rfl⟩ := first
      exact added_text (fun _ => rfl) text
    | write | setattr => exact fun entries none => by cases none
    | lookup | isfile | isdir | issymlink | getfile | read =>
      rw [show now = before from first]
      exact text

end Text

section Runs

variable {ι : Type} [DecidableEq ι]

def Shelf.set (shelf : Shelf ι) (t : ι) (work : Option Work) : Shelf ι :=
  { shelf with works := Function.update shelf.works t work }

def Work.edit (work : Work) (listing : Option Listing) : Option Listing :=
  if work.ended = 0 then work.task.edit work.made listing else none

/-- The shelf after a step of the store. -/
def Shelf.after (dir : Inum) (shelf : Shelf ι) : Atom ι → Shelf ι
  | .start t task => shelf.set t (some ⟨task, [], 0⟩)
  | .finish t => shelf.set t none
  | .make t id =>
    shelf.set t ((shelf.works t).map fun work => { work with made := id :: work.made })
  | .commit t eid =>
    Shelf.set { shelf with
      listing := if eid = dir then (shelf.works t).bind fun work => work.edit shelf.listing
        else shelf.listing } t
      ((shelf.works t).map fun work => { work with ended := work.ended + 1 })
  | .remove _ _ => shelf

/-- A directory that was not made has an empty listing, and one that was the text of its own. -/
structure Shelved (dir : Inum) (files : Files ι) (shelf : Shelf ι) : Prop where
  works : shelf.works = files.works
  unmade : files.gone dir = false → files.contents dir = none → shelf.listing = some []
  text : files.gone dir = false → ∀ data, files.contents dir = some data → Writes shelf.listing data

variable {dir : Inum} {files next : Files ι} {shelf : Shelf ι} {atom : Atom ι}

theorem Work.edit_text {work : Work} {listing : Option Listing} {before now : Bytes}
    (effect : work.task.Effect work.made work.ended dir before now) (text : Writes listing before) :
    Writes (work.edit listing) now := by
  rw [Work.edit]
  split
  next first =>
    rw [first] at effect
    exact effect.2.text text
  next => exact fun entries none => by cases none

theorem Shelved.step (shelved : Shelved dir files shelf) (steps : Atoms files atom next) :
    Shelved dir next (shelf.after dir atom) := by
  obtain ⟨works, unmade, text⟩ := shelved
  cases steps with
  | start free known | finish here ended =>
    exact ⟨by rw [Shelf.after, Shelf.set, works]; rfl, unmade, text⟩
  | @make t work id here fresh =>
    refine ⟨by rw [Shelf.after, Shelf.set, works, here]; rfl, fun kept none => ?_,
      fun kept data made => ?_⟩
    · by_cases same : dir = id
      · simp [same] at none
      · exact unmade kept (by simpa [same] using none)
    · by_cases same : dir = id
      · subst same
        have empty : [] = data := by simpa using made
        rw [Shelf.after, Shelf.set, unmade kept (fresh kept), ← empty]
        exact fun entries same => by cases same; exact ⟨by simp, rfl⟩
      · exact text kept data (by simpa [same] using made)
  | @commit t work eid before now here found effect =>
    have edited : (shelf.after dir (.commit t eid)).listing =
        if eid = dir then work.edit shelf.listing else shelf.listing := by
      rw [Shelf.after, Shelf.set, works, here]
      rfl
    refine ⟨by rw [Shelf.after, Shelf.set, works, here]; rfl, fun kept none => ?_,
      fun kept data made => ?_⟩
    · by_cases same : eid = dir
      · simp [same] at none
      · rw [edited, if_neg same]
        exact unmade kept (by simpa [Ne.symm same] using none)
    · rw [edited]
      by_cases same : eid = dir
      · subst same
        have now : now = data := by simpa using made
        rw [if_pos rfl, ← now]
        exact Work.edit_text (effect kept) (text kept before found)
      · rw [if_neg same]
        exact text kept data (by simpa [Ne.symm same] using made)
  | @remove t work eid _ here found removes =>
    have earlier : Function.update files.gone eid true dir = false → files.gone dir = false := by
      intro kept
      by_cases same : dir = eid
      · simp [same] at kept
      · rwa [Function.update_of_ne same] at kept
    exact ⟨works, fun kept => unmade (earlier kept), fun kept => text (earlier kept)⟩

end Runs

end NaiveFileSystem.Yfs
