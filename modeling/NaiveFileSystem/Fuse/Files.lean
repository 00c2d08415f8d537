import NaiveFileSystem.Fuse.Server
import NaiveFileSystem.Lib.Growing
import NaiveFileSystem.Lib.Transition

/-!
# The file system that the kernel is shown

Files are arrays of bytes, links have a target and directories list names with inums.
A directory may list a name twice: a lookup finds the first entry and an unlink drops
them all. As long as the kernel asks for what it was told of, every inum is listed once.
-/

namespace NaiveFileSystem.Fuse

open Cache Yfs Transition Growing

abbrev Entries := List (CString × Inum)

/-- What an inum stands for. -/
inductive Node
  | file (content : Bytes)
  | link (target : CString)
  | dir (entries : Entries)

namespace Node

def mode : Node → UInt32
  | file _ => S_IFREG ||| 0o666
  | link _ => S_IFLNK ||| 0o777
  | dir _ => S_IFDIR ||| 0o777

def nlink : Node → UInt64
  | file _ | link _ => 1
  | dir _ => 2

def size : Node → ℕ
  | file content => content.length
  | link target => target.bytes.length
  | dir _ => 0

structure Stats (node : Node) (ino : Inum) (st : Stat) : Prop where
  ino : st.ino = ino
  mode : st.mode = node.mode
  nlink : st.nlink = node.nlink
  size : st.size.toNat = node.size

end Node

abbrev FileSystem := Inum → Option Node

namespace FileSystem

def content (fs : FileSystem) (ino : Inum) : Bytes :=
  match fs ino with
  | some (.file content) => content
  | _ => []

def entries (fs : FileSystem) (ino : Inum) : Entries :=
  match fs ino with
  | some (.dir entries) => entries
  | _ => []

def add (fs : FileSystem) (parent : Inum) (name : CString) (id : Inum) (node : Node) : FileSystem :=
  Function.update (Function.update fs id (some node)) parent
    (some (.dir (fs.entries parent ++ [(name, id)])))

def named (fs : FileSystem) (parent : Inum) (name : CString) : List Inum :=
  ((fs.entries parent).filter (·.1 = name)).map (·.2)

/-- A directory without a name, and without the nodes that it stood for. -/
def drop (fs : FileSystem) (parent : Inum) (name : CString) : FileSystem :=
  Function.update (fun ino => if ino ∈ fs.named parent name then none else fs ino) parent
    (some (.dir ((fs.entries parent).filter (·.1 ≠ name))))

def empty : FileSystem := Function.update (fun _ => none) 1 (some (.dir []))

end FileSystem

/-- The file system behind a request, where the reply names the inum that was made. -/
def after (fs : FileSystem) : Request → Reply → FileSystem
  | .setattr ino size toSet, _ =>
    if toSet.size then Function.update fs ino (some (.file (cut 0 (fs.content ino) size))) else fs
  | .write ino buf off, _ => Function.update fs ino (some (.file (splice 0 (fs.content ino) off buf)))
  | .create parent name, .create e => fs.add parent name e.ino (.file [])
  | .mknod parent name, .entry e => fs.add parent name e.ino (.file [])
  | .mkdir parent name, .entry e => fs.add parent name e.ino (.dir [])
  | .symlink link parent name, .entry e => fs.add parent name e.ino (.link link)
  | .unlink parent name, _ => fs.drop parent name
  | _, _ => fs

def Made (fs : FileSystem) (node : Node) (e : EntryParam) : Prop :=
  fs e.ino = none ∧ ∃ st, e = entryParam e.ino st ∧ node.Stats e.ino st

def page (lib : Library) (entries : Entries) (off size : ℕ) : Reply :=
  replyBufLimited (entries.foldl (fun b entry => dirbufAdd lib b entry.1 entry.2) ⟨[], 0⟩) off size

namespace Request

/-- What the file system answers. -/
def Answers (lib : Library) (fs : FileSystem) (request : Request) (reply : Reply) : Prop :=
  match request with
  | getattr ino => ∃ node st, fs ino = some node ∧ node.Stats ino st ∧ reply = .attr st
  | setattr ino _ toSet =>
    if toSet.size || toSet.atime || toSet.mtime then
      ∃ node st, after fs request reply ino = some node ∧ node.Stats ino st ∧ reply = .attr st
    else reply = .err .ENOSYS
  | read ino size off => reply = .buf (slice (fs.content ino) off size)
  | write _ buf _ => reply = .write buf.length
  | create _ _ => ∃ e, reply = .create e ∧ Made fs (.file []) e
  | mknod _ _ => ∃ e, reply = .entry e ∧ Made fs (.file []) e
  | mkdir _ _ => ∃ e, reply = .entry e ∧ Made fs (.dir []) e
  | symlink link _ _ => ∃ e, reply = .entry e ∧ Made fs (.link link) e
  | lookup parent name =>
    match (fs.entries parent).find? (·.1 = name) with
    | some entry => ∃ node st, fs entry.2 = some node ∧ node.Stats entry.2 st ∧
        reply = .entry (entryParam entry.2 st)
    | none => reply = .err .ENOENT
  | readdir ino size off =>
    match fs ino with
    | some (.dir entries) => reply = page lib entries off size
    | _ => reply = .err .ENOTDIR
  | open_ _ => reply = .opened
  | unlink parent name =>
    reply = if (fs.entries parent).any (·.1 = name) then .done else .err .ENOENT
  | readlink ino => ∃ target, fs ino = some (.link target) ∧ reply = .readlink target
  | statfs => reply = .statfs 255 512

/-- What the kernel takes care of: inums are those it was told of and of the right kind,
names are not empty, and files do not grow over the limit. -/
def Fits (limit : ℕ) (fs : FileSystem) : Request → Prop
  | getattr ino | readdir ino _ _ | lookup ino _ => fs ino ≠ none
  | setattr ino size toSet =>
    if toSet.size then (∃ content, fs ino = some (.file content)) ∧ size ≤ limit else fs ino ≠ none
  | read ino _ _ => ∃ content, fs ino = some (.file content)
  | write ino buf off => (∃ content, fs ino = some (.file content)) ∧ off + buf.length ≤ limit
  | create parent name | mknod parent name | mkdir parent name =>
    (∃ entries, fs parent = some (.dir entries)) ∧ name.bytes ≠ []
  | symlink link parent name =>
    (∃ entries, fs parent = some (.dir entries)) ∧ name.bytes ≠ [] ∧ link.bytes.length ≤ limit
  | unlink parent _ => ∃ entries, fs parent = some (.dir entries)
  | readlink ino => ∃ target, fs ino = some (.link target)
  | open_ _ | statfs => True

end Request

def fileSystem (lib : Library) (limit : ℕ) : System FileSystem (Request × Reply) where
  init := (· = .empty)
  step fs label next := label.1.Fits limit fs ∧ label.1.Answers lib fs label.2 ∧
    next = after fs label.1 label.2

/-- Files are short, and what directories list is there, at one place. -/
structure Formed (limit : ℕ) (fs : FileSystem) : Prop where
  short : ∀ ino node, fs ino = some node → node.size ≤ limit
  root : ∃ entries, fs 1 = some (.dir entries)
  listed : ∀ dir, ∀ entry ∈ fs.entries dir,
    entry.1.bytes ≠ [] ∧ fs entry.2 ≠ none ∧ entry.2 ≠ dir ∧ entry.2 ≠ 1
  once : ∀ dir, ((fs.entries dir).map (·.2)).Nodup
  single : ∀ dir dir', ∀ entry ∈ fs.entries dir, ∀ entry' ∈ fs.entries dir', entry.2 = entry'.2 →
    dir = dir'

section Formed

variable {limit : ℕ} {fs : FileSystem} {parent ino id dir : Inum} {name : CString} {entries : Entries}
  {node : Node}

@[simp] theorem entries_dir (here : fs parent = some (.dir entries)) :
    fs.entries parent = entries := by
  rw [FileSystem.entries, here]

@[simp] theorem entries_none (gone : fs ino = none) : fs.entries ino = [] := by
  rw [FileSystem.entries, gone]

@[simp] theorem content_file {content : Bytes} (here : fs ino = some (.file content)) :
    fs.content ino = content := by
  rw [FileSystem.content, here]

theorem entries_congr {next : FileSystem} (same : next ino = fs ino) :
    next.entries ino = fs.entries ino := by
  rw [FileSystem.entries, same, FileSystem.entries]

theorem formed_empty : Formed limit .empty := by
  have bare : ∀ dir, FileSystem.empty.entries dir = [] := by
    intro dir
    by_cases same : dir = 1
    · rw [same]
      exact entries_dir (Function.update_self _ _ _)
    · exact entries_none (Function.update_of_ne same _ _)
  refine ⟨fun ino node here => ?_, ⟨[], Function.update_self _ _ _⟩, fun dir => ?_, fun dir => ?_,
    fun dir dir' => ?_⟩
  · by_cases same : ino = 1
    · rw [same, FileSystem.empty, Function.update_self] at here
      cases here
      exact Nat.zero_le limit
    · rw [FileSystem.empty, Function.update_of_ne same] at here
      cases here
  · simp [bare]
  · simp [bare]
  · simp [bare]

/-! ## A file gets another content -/

theorem entries_edit {old content : Bytes} (here : fs ino = some (.file old)) (dir : Inum) :
    FileSystem.entries (Function.update fs ino (some (.file content))) dir = fs.entries dir := by
  by_cases same : dir = ino
  · simp [same, FileSystem.entries, here]
  · exact entries_congr (Function.update_of_ne same _ _)

theorem Formed.edit (formed : Formed limit fs) {old content : Bytes} (here : fs ino = some (.file old))
    (short : content.length ≤ limit) : Formed limit (Function.update fs ino (some (.file content))) := by
  refine ⟨fun other node found => ?_, ?_, fun dir entry inside => ?_, fun dir => ?_,
    fun dir dir' => ?_⟩
  · by_cases same : other = ino
    · rw [same, Function.update_self] at found
      cases found
      exact short
    · rw [Function.update_of_ne same] at found
      exact formed.short other node found
  · obtain ⟨entries, root⟩ := formed.root
    have different : 1 ≠ ino := by
      rintro rfl
      cases here.symm.trans root
    exact ⟨entries, (Function.update_of_ne different _ _).trans root⟩
  · rw [entries_edit here] at inside
    obtain ⟨some, live, different⟩ := formed.listed dir entry inside
    refine ⟨some, ?_, different⟩
    by_cases same : entry.2 = ino
    · simp [same]
    · rwa [Function.update_of_ne same]
  · rw [entries_edit here]
    exact formed.once dir
  · rw [entries_edit here, entries_edit here]
    exact formed.single dir dir'

/-! ## A new node under a name -/

theorem entries_add (fresh : fs id = none) (bare : ∀ entries, node = .dir entries → entries = [])
    (dir : Inum) : (fs.add parent name id node).entries dir =
      if dir = parent then fs.entries parent ++ [(name, id)] else fs.entries dir := by
  split
  next same =>
    rw [same]
    exact entries_dir (Function.update_self _ _ _)
  next other =>
    by_cases new : dir = id
    · subst new
      have here : fs.add parent name dir node dir = some node := by
        rw [FileSystem.add, Function.update_of_ne other, Function.update_self]
      rw [entries_none fresh]
      cases node with
      | dir entries => rw [entries_dir here, bare entries rfl]
      | file content | link target => rw [FileSystem.entries, here]
    · refine entries_congr ?_
      rw [FileSystem.add, Function.update_of_ne other, Function.update_of_ne new]

theorem add_live (live : fs ino ≠ none ∨ ino = id) : fs.add parent name id node ino ≠ none := by
  by_cases same : ino = parent
  · simp [FileSystem.add, same]
  · by_cases new : ino = id
    · subst new
      simp [FileSystem.add, Function.update_of_ne same]
    · simpa [FileSystem.add, same, new] using live

theorem Formed.add (formed : Formed limit fs) (above : fs parent = some (.dir entries))
    (fresh : fs id = none) (some : name.bytes ≠ []) (short : node.size ≤ limit)
    (bare : ∀ entries, node = .dir entries → entries = []) :
    Formed limit (fs.add parent name id node) := by
  have inside : ∀ dir, ∀ entry ∈ (fs.add parent name id node).entries dir,
      entry ∈ fs.entries dir ∨ (dir = parent ∧ entry = (name, id)) := by
    intro dir entry member
    rw [entries_add fresh bare] at member
    split at member
    next same =>
      rw [same]
      rcases List.mem_append.mp member with old | new
      · exact .inl old
      · exact .inr ⟨rfl, List.mem_singleton.mp new⟩
    next => exact .inl member
  have unlisted : ∀ dir, ∀ entry ∈ fs.entries dir, entry.2 ≠ id := by
    intro dir entry member same
    exact (formed.listed dir entry member).2.1 (same ▸ fresh)
  obtain ⟨top, root⟩ := formed.root
  refine ⟨fun other node' found => ?_, ?_, fun dir entry member => ?_, fun dir => ?_,
    fun dir dir' entry member entry' member' same => ?_⟩
  · by_cases same : other = parent
    · rw [same, FileSystem.add, Function.update_self] at found
      cases found
      exact Nat.zero_le limit
    · rw [FileSystem.add, Function.update_of_ne same] at found
      by_cases new : other = id
      · rw [new, Function.update_self] at found
        cases found
        exact short
      · rw [Function.update_of_ne new] at found
        exact formed.short other node' found
  · by_cases same : 1 = parent
    · rw [same]
      exact ⟨_, Function.update_self _ _ _⟩
    · have old : 1 ≠ id := by
        rintro rfl
        cases fresh.symm.trans root
      refine ⟨top, ?_⟩
      rw [FileSystem.add, Function.update_of_ne same, Function.update_of_ne old]
      exact root
  · rcases inside dir entry member with old | ⟨rfl, rfl⟩
    · obtain ⟨some, live, different⟩ := formed.listed dir entry old
      exact ⟨some, add_live (.inl live), different⟩
    · refine ⟨some, add_live (.inr rfl), ?_, ?_⟩
      · rintro rfl
        cases fresh.symm.trans above
      · rintro rfl
        cases fresh.symm.trans root
  · rw [entries_add fresh bare]
    split
    next same =>
      rw [List.map_append, List.map_singleton, ← List.concat_eq_append]
      refine .concat (fun listed => ?_) (formed.once parent)
      obtain ⟨entry, member, same⟩ := List.mem_map.mp listed
      exact unlisted parent entry member same
    next => exact formed.once dir
  · rcases inside dir entry member with old | ⟨rfl, rfl⟩
    · rcases inside dir' entry' member' with old' | ⟨rfl, rfl⟩
      · exact formed.single dir dir' entry old entry' old' same
      · exact absurd same (unlisted dir entry old)
    · rcases inside dir' entry' member' with old' | ⟨rfl, rfl⟩
      · exact absurd same.symm (unlisted dir' entry' old')
      · rfl

/-! ## A name is dropped -/

theorem mem_named : ino ∈ fs.named parent name ↔ (name, ino) ∈ fs.entries parent := by
  simp [FileSystem.named, and_comm, eq_comm]

theorem drop_of_mem (gone : ino ∈ fs.named parent name) (different : ino ≠ parent) :
    fs.drop parent name ino = none := by
  rw [FileSystem.drop, Function.update_of_ne different]
  exact if_pos gone

theorem drop_of_not_mem (stays : ino ∉ fs.named parent name) (different : ino ≠ parent) :
    fs.drop parent name ino = fs ino := by
  rw [FileSystem.drop, Function.update_of_ne different]
  exact if_neg stays

theorem Formed.kept (formed : Formed limit fs) {entry : CString × Inum}
    (member : entry ∈ (fs.drop parent name).entries dir) :
    entry ∈ fs.entries dir ∧ entry.2 ∉ fs.named parent name := by
  by_cases same : dir = parent
  · subst same
    have here : (fs.drop dir name).entries dir = (fs.entries dir).filter (·.1 ≠ name) :=
      entries_dir (Function.update_self _ _ _)
    rw [here, List.mem_filter] at member
    refine ⟨member.1, fun gone => ?_⟩
    -- The inum has one entry, and that is of another name.
    have only := List.inj_on_of_nodup_map (formed.once dir) member.1 (mem_named.mp gone) rfl
    have other : entry.1 ≠ name := by simpa using member.2
    exact other (congrArg Prod.fst only)
  · by_cases gone : dir ∈ fs.named parent name
    · rw [entries_none (drop_of_mem gone same)] at member
      cases member
    · rw [entries_congr (drop_of_not_mem gone same)] at member
      refine ⟨member, fun gone => ?_⟩
      exact same (formed.single dir parent entry member _ (mem_named.mp gone) rfl)

theorem Formed.drop (formed : Formed limit fs) (name : CString) (above : fs parent ≠ none) :
    Formed limit (fs.drop parent name) := by
  have live : ∀ {ino}, ino ∉ fs.named parent name → fs ino ≠ none →
      fs.drop parent name ino ≠ none := by
    intro ino stays live
    by_cases same : ino = parent
    · simp [same, FileSystem.drop]
    · rwa [drop_of_not_mem stays same]
  refine ⟨fun other node found => ?_, ?_, fun dir entry member => ?_, fun dir => ?_,
    fun dir dir' entry member entry' member' => ?_⟩
  · by_cases same : other = parent
    · rw [same, FileSystem.drop, Function.update_self] at found
      cases found
      exact Nat.zero_le limit
    · by_cases gone : other ∈ fs.named parent name
      · rw [drop_of_mem gone same] at found
        cases found
      · rw [drop_of_not_mem gone same] at found
        exact formed.short other node found
  · by_cases same : 1 = parent
    · rw [same]
      exact ⟨_, Function.update_self _ _ _⟩
    · have stays : 1 ∉ fs.named parent name := fun gone =>
        (formed.listed parent _ (mem_named.mp gone)).2.2.2 rfl
      rw [drop_of_not_mem stays same]
      exact formed.root
  · obtain ⟨old, stays⟩ := formed.kept member
    obtain ⟨some, there, different⟩ := formed.listed dir entry old
    exact ⟨some, live stays there, different⟩
  · by_cases same : dir = parent
    · subst same
      have here : (fs.drop dir name).entries dir = (fs.entries dir).filter (·.1 ≠ name) :=
        entries_dir (Function.update_self _ _ _)
      rw [here]
      exact (formed.once dir).sublist (List.filter_sublist.map _)
    · by_cases gone : dir ∈ fs.named parent name
      · rw [entries_none (drop_of_mem gone same)]
        exact List.nodup_nil
      · rw [entries_congr (drop_of_not_mem gone same)]
        exact formed.once dir
  · exact formed.single dir dir' entry (formed.kept member).1 entry' (formed.kept member').1

/-- Every request that the kernel takes care of keeps the file system in form. -/
theorem Formed.after (formed : Formed limit fs) {lib : Library} {request : Request} {reply : Reply}
    (fits : request.Fits limit fs) (answers : request.Answers lib fs reply) :
    Formed limit (after fs request reply) := by
  cases request with
  | setattr ino size toSet =>
    cases sized : toSet.size with
    | false => simpa [Fuse.after, sized] using formed
    | true =>
      simp only [Request.Fits, sized, if_true] at fits
      obtain ⟨⟨content, here⟩, short⟩ := fits
      simp only [Fuse.after, sized, if_true]
      exact formed.edit here (by rwa [length_cut])
  | write ino buf off =>
    obtain ⟨⟨content, here⟩, short⟩ := fits
    refine formed.edit here ?_
    rw [length_splice, content_file here]
    exact max_le (formed.short ino _ here) short
  | create parent name | mknod parent name =>
    obtain ⟨⟨entries, above⟩, some⟩ := fits
    obtain ⟨e, rfl, fresh, _⟩ := answers
    exact formed.add above fresh some (Nat.zero_le limit) fun _ same => by cases same
  | mkdir parent name =>
    obtain ⟨⟨entries, above⟩, some⟩ := fits
    obtain ⟨e, rfl, fresh, _⟩ := answers
    exact formed.add above fresh some (Nat.zero_le limit) fun _ same => by cases same; rfl
  | symlink link parent name =>
    obtain ⟨⟨entries, above⟩, some, short⟩ := fits
    obtain ⟨e, rfl, fresh, _⟩ := answers
    exact formed.add above fresh some short fun _ same => by cases same
  | unlink parent name =>
    obtain ⟨entries, above⟩ := fits
    exact formed.drop name (by simp [above])
  | getattr ino | read ino size off | lookup parent name | readdir ino size off | open_ ino
  | readlink ino | statfs => exact formed

theorem formed_of_reachable {lib : Library} (reachable : Reachable (fileSystem lib limit) fs) :
    Formed limit fs := by
  refine @Reachable.invariant _ _ (fileSystem lib limit) (Formed limit) ?_ ?_ fs reachable
  · rintro fs rfl
    exact formed_empty
  · rintro fs label next formed ⟨fits, answers, rfl⟩
    exact formed.after fits answers

end Formed

end NaiveFileSystem.Fuse
