import NaiveFileSystem.Lib.Namespace
import NaiveFileSystem.Yfs.Directory

/-!
# The tree of directories

One client adds files, directories and links, and unlinks them. An inode is live from
the create that returns it to the remove that succeeds. Everything live stays in one
tree as long as every create is answered with an inode and no unlink names a directory,
whose own entries would be lost with it.
-/

namespace NaiveFileSystem.Yfs

open Extent Cache Transition Program YfsClient Namespace

/-- The calls that change names. -/
inductive Naming
  | create (parent : Inum) (name : Bytes)
  | mkdir (parent : Inum) (name : Bytes)
  | symlink (parent : Inum) (link name : Bytes)
  | unlink (parent : Inum) (name : Bytes)

namespace Naming

def parent : Naming → Inum
  | create parent _ | mkdir parent _ | symlink parent _ _ | unlink parent _ => parent

/-- The name that a call adds, and the type of the inode behind it. -/
def adds : Naming → Option (Bytes × ExtentType)
  | create _ name => some (name, .T_FILE)
  | mkdir _ name => some (name, .T_DIR)
  | symlink _ _ name => some (name, .T_SYMLK)
  | unlink _ _ => none

/-- The program of a call, where `ino` is in the output argument before. -/
def body (vars : Locals) (ino : Inum) : Naming → Action ℤ
  | create parent name => do
    let (r, _) ← YfsClient.create parent name ino
    return r
  | mkdir parent name => do
    let (r, _) ← YfsClient.mkdir parent name ino
    return r
  | symlink parent link name => do
    let (r, _) ← YfsClient.symlink parent link name ino
    return r
  | unlink parent name => YfsClient.unlink vars parent name

end Naming

/-- The types of the live inodes. -/
abbrev Kinds := Inum → Option ExtentType

/-- An inode is live from the create that returns it to the remove that succeeds. -/
def note : (op : Op) → op.Reply → Kinds → Kinds
  | .create type _, reply, kinds =>
    if reply.1 = .OK then Function.update kinds reply.2 (some (typeOf type)) else kinds
  | .remove eid, reply, kinds => if reply = .OK then Function.update kinds eid none else kinds
  | .get _ _, _, kinds | .getattr _ _, _, kinds | .put _ _, _, kinds | .flush _, _, kinds
  | .acquire _, _, kinds | .release _, _, kinds => kinds

/-- The client's table, the server's contents, and the live inodes. -/
abbrev Census := (Table × Contents) × Kinds

def contentOf (state : Table × Contents) (eid : ExtentId) : Bytes :=
  match state.1 eid with
  | some entry =>
    if entry.mState = .NONE then ((state.2 eid).map File.data).getD [] else entry.data
  | none => ((state.2 eid).map File.data).getD []

/-- The entries of a directory, as `readdir` finds them. -/
def entriesOf (finum : Inum) (state : Table × Contents) (dir : Inum) : Listing :=
  (tokens (contentOf state dir)).map fun pass => (uncode pass.1, n2i finum pass.2)

/-- The live inodes with the entries of the directories. -/
def spaceOf (kinds : Kinds) (entries : Inum → Listing) : Namespace Inum Bytes where
  live node := kinds node ≠ none
  branch node := kinds node = some .T_DIR
  entries := entries

structure Turn where
  naming : Naming
  rpc : Rpc Contents
  env : Ambient
  vars : Locals
  ino : Inum

namespace Turn

def run (turn : Turn) (state : Census) : Census × ℤ :=
  (turn.naming.body turn.vars turn.ino).run (observe (handle turn.rpc turn.env) note) state

def entries (turn : Turn) (state : Census) : Listing :=
  entriesOf turn.vars.finum state.1 turn.naming.parent

/-- The parent is a live directory, and a name that is added is not in it. The server
hands out no inode that it holds. -/
structure Fits (turn : Turn) (state : Census) : Prop where
  faithful : Faithful turn.rpc
  unused : ∀ type contents id, turn.rpc.create state.1.2 type = (contents, .OK, some id) →
    state.1.2 id = none
  parent : state.2 turn.naming.parent = some .T_DIR
  fresh : ∀ name type, turn.naming.adds = some (name, type) →
    name ≠ [] ∧ name ∉ (turn.entries state).map (·.1)

/-- A create is answered with an inode, and an unlink names no directory. -/
structure Spares (turn : Turn) (state : Census) : Prop where
  answered : ∀ name type, turn.naming.adds = some (name, type) →
    ∃ contents id, turn.rpc.create state.1.2 (ExtentType.code type) = (contents, .OK, some id)
  leaf : ∀ parent name, turn.naming = .unlink parent name → ∀ entry ∈ turn.entries state,
    entry.1 = name → state.2 entry.2 ≠ some .T_DIR

end Turn

def naming : System Census Turn where
  init state := Reads (state.1.1 1) (state.1.2 1) [] ∧ state.1.2 1 ≠ none ∧
    state.2 = Function.update (fun _ => none) 1 (some .T_DIR)
  step state turn next := turn.Fits state ∧ next = (turn.run state).1

/-- The runs in which every create is answered and no directory is unlinked. -/
def sparing : System Census Turn where
  init := naming.init
  step state turn next := turn.Spares state ∧ naming.step state turn next

/-- The namespace is a tree, the directories hold the text of their entries, and the
inodes are on the server, with no removal in the table. -/
structure Grown (entries : Inum → Listing) (state : Census) : Prop where
  tree : Tree 1 (spaceOf state.2 entries)
  text : ∀ dir, state.2 dir = some .T_DIR →
    Reads (state.1.1 dir) (state.1.2 dir) (textOf (entries dir))
  named : ∀ dir, state.2 dir = some .T_DIR → ∀ entry ∈ entries dir, entry.1 ≠ []
  held : ∀ node, state.2 node ≠ none → state.1.2 node ≠ none
  kept : ∀ node, state.2 node ≠ none → ∀ entry, state.1.1 node = some entry →
    entry.mState ≠ .REMOVED

section Entries

variable {entries : Inum → Listing} {state : Census} {dir : Inum}

theorem contentOf_eq {state : Table × Contents} {eid : ExtentId} {data : Bytes}
    (reads : Reads (state.1 eid) (state.2 eid) data) : contentOf state eid = data := by
  unfold contentOf
  rcases reads with ⟨entry, here, kind, rfl⟩ | ⟨entry, here, kind, rfl, _⟩ | ⟨bare, held⟩
  · simp [here, kind]
  · simp [here, kind]
  · rcases bare.cases with none | ⟨entry, here, kind⟩
    · simp [none, held]
    · simp [here, kind, held]

theorem live_of_branch {kinds : Kinds} (branch : kinds dir = some .T_DIR) : kinds dir ≠ none := by
  simp [branch]

theorem Grown.proper (grown : Grown entries state) (type : state.2 dir = some .T_DIR) :
    Proper dir (entries dir) := fun entry inside =>
  ⟨grown.named dir type entry inside, grown.tree.not_self type entry inside⟩

theorem entriesOf_eq {state : Table × Contents} {listing : Listing}
    (reads : Reads (state.1 dir) (state.2 dir) (textOf listing))
    (named : ∀ entry ∈ listing, entry.1 ≠ []) (finum : Inum) :
    entriesOf finum state dir = listing := by
  rw [entriesOf, contentOf_eq reads, tokens_textOf named, List.map_map]
  simp only [Function.comp_def, uncode_encode, n2i_filename, Prod.mk.eta, List.map_id']

theorem Grown.lists (grown : Grown entries state) (branch : state.2 dir = some .T_DIR)
    (finum : Inum) : entriesOf finum state.1 dir = entries dir :=
  entriesOf_eq (grown.text dir branch) (grown.named dir branch) finum

end Entries

section Adds

structure Makes (parent : Inum) (name : Bytes) (type : ExtentType) (id : Inum) (listing : Listing)
    (state next : Census) : Prop where
  here : Reads (next.1.1 parent) (next.1.2 parent) (textOf (listing ++ [(name, id)]))
  table : ∀ other, other ≠ parent → other ≠ id → next.1.1 other = state.1.1 other
  server : ∀ other, other ≠ id → next.1.2 other = state.1.2 other
  held : next.1.2 id ≠ none
  bare : Bare (next.1.1 id)
  empty : type = .T_DIR → (next.1.2 id).map File.data = some []
  kinds : next.2 = Function.update state.2 id (some type)

variable {rpc : Rpc Contents} {env : Ambient} {entries : Inum → Listing} {listing : Listing}
  {state next : Census} {contents : Contents} {parent id : Inum} {name : Bytes} {type : ExtentType}

theorem addfile_makes (faithful : Faithful rpc)
    (made : rpc.create state.1.2 type.code = (contents, .OK, some id)) (different : id ≠ parent)
    (reads : Reads (state.1.1 parent) (state.1.2 parent) (textOf listing)) (name : Bytes)
    (ino : Inum) :
    ∃ next, (addfile parent name ino type).run (observe (handle rpc env) note) state =
      (next, Result.OK, id) ∧ Makes parent name type id listing state next := by
  obtain ⟨after, ran, rewrites, added, log⟩ :=
    addfile_section faithful env made different reads name ino
  refine ⟨(after, Function.update state.2 id (some type)), ?_, ?_, fun other here there => ?_,
    fun other there => ?_, ?_, ?_, fun _ => ?_, rfl⟩
  · rw [run_observe, ran, log]
    simp [note, typeOf_code]
  · rw [textOf_append]
    simpa [textOf] using rewrites.reads
  · rw [added.table other here]
    exact ExtentClientCache.recordCreated_of_ne env _ there
  · rw [added.server]
    exact Function.update_of_ne there _ _
  · simp [added.server]
  · rw [added.table id different]
    exact ExtentClientCache.bare_recordCreated env _ id
  · simp [added.server]

theorem observe_quiet {op : Op} {before after : Table × Contents} {reply : op.Reply}
    (answer : handle rpc env op before = (after, reply)) (quiet : op.Quiet) (kinds : Kinds) :
    observe (handle rpc env) note op (before, kinds) = ((after, kinds), reply) := by
  cases op with
  | create type id | remove eid => exact quiet.elim
  | get eid buf | getattr eid attr | put eid buf | flush eid | acquire lid | release lid =>
    simp only [observe, answer, note]

theorem symlink_makes (faithful : Faithful rpc)
    (made : rpc.create state.1.2 (ExtentType.code .T_SYMLK) = (contents, .OK, some id))
    (different : id ≠ parent)
    (reads : Reads (state.1.1 parent) (state.1.2 parent) (textOf listing)) (link name : Bytes)
    (ino : Inum) :
    ∃ next, (symlink parent link name ino).run (observe (handle rpc env) note) state =
      (next, Result.OK, id) ∧ Makes parent name .T_SYMLK id listing state next := by
  obtain ⟨added, ran, makes⟩ := @addfile_makes rpc env listing state contents parent id .T_SYMLK
    faithful made different reads name ino
  obtain ⟨linked, flushed, ret, put, flush, others, erased, written⟩ :=
    putFlush_other faithful env link makes.bare.not_removed makes.held
  refine ⟨(flushed, added.2), ?_, ?_, fun other here there => ?_, fun other there => ?_,
    fun gone => ?_, ?_, fun directory => (by cases directory), makes.kinds⟩
  · rw [symlink, run_bind_of ran]
    simp only [perform_bind]
    rw [run_call_of (observe_quiet (handle_acquire ..) trivial added.2),
      run_call_of (observe_quiet put trivial added.2),
      run_call_of (observe_quiet flush trivial added.2),
      run_call_of (observe_quiet (handle_release ..) trivial added.2)]
    rfl
  · rw [(others parent different.symm).1, (others parent different.symm).2]
    exact makes.here
  · rw [(others other there).1]
    exact makes.table other here there
  · rw [(others other there).2]
    exact makes.server other there
  · exact makes.held (Option.map_eq_none_iff.mp (written.symm.trans gone))
  · rw [erased]
    exact bare_none

def addEntry (entries : Inum → Listing) (parent : Inum) (name : Bytes) (id : Inum) :
    Inum → Listing :=
  Function.update (Function.update entries parent (entries parent ++ [(name, id)])) id []

theorem Makes.kind_of_ne (makes : Makes parent name type id listing state next) {node : Inum}
    (different : node ≠ id) : next.2 node = state.2 node := by
  rw [makes.kinds, Function.update_of_ne different]

theorem Makes.kind_self (makes : Makes parent name type id listing state next) :
    next.2 id = some type := by
  rw [makes.kinds, Function.update_self]

theorem Grown.fresh (grown : Grown entries state) (unused : state.1.2 id = none) :
    state.2 id = none := by
  by_contra live
  exact grown.held id live unused

theorem Makes.grows (makes : Makes parent name type id (entries parent) state next)
    (fresh : state.2 id = none) (above : state.2 parent = some .T_DIR) :
    Grows (spaceOf state.2 entries) (spaceOf next.2 (addEntry entries parent name id)) parent name
      id := by
  have other : ∀ {node}, state.2 node = some .T_DIR → node ≠ id := by
    rintro node branch rfl
    cases fresh.symm.trans branch
  refine ⟨fun node => ?_, fun node branch => (makes.kind_of_ne (other branch)).trans branch,
    fun node branch => ?_, ?_, fun _ => ?_, fun node branch apart => ?_⟩
  · by_cases same : node = id
    · subst same
      simp [spaceOf, makes.kind_self]
    · simp [spaceOf, makes.kind_of_ne same, same]
  · by_cases same : node = id
    · exact .inr same
    · exact .inl ((makes.kind_of_ne same).symm.trans branch)
  · simp [spaceOf, addEntry, Function.update_of_ne (other above)]
  · simp [spaceOf, addEntry]
  · simp [spaceOf, addEntry, Function.update_of_ne (other branch), Function.update_of_ne apart]

theorem Makes.grown (makes : Makes parent name type id (entries parent) state next)
    (grown : Grown entries state) (above : state.2 parent = some .T_DIR) (some : name ≠ [])
    (absent : name ∉ (entries parent).map (·.1)) (unused : state.1.2 id = none) :
    Grown (addEntry entries parent name id) next := by
  have fresh := grown.fresh unused
  have grows := makes.grows fresh above
  refine ⟨grown.tree.grow grows above (fun live => live fresh) absent, fun dir branch => ?_,
    fun dir branch entry inside => ?_, fun node live => ?_, fun node live => ?_⟩
  · by_cases new : dir = id
    · subst new
      rw [addEntry, Function.update_self]
      have directory := Option.some.inj (makes.kind_self.symm.trans branch)
      exact .inr (.inr ⟨makes.bare, makes.empty directory⟩)
    · rw [addEntry, Function.update_of_ne new]
      by_cases same : dir = parent
      · subst same
        rw [Function.update_self]
        exact makes.here
      · rw [Function.update_of_ne same, makes.table dir same new, makes.server dir new]
        exact grown.text dir ((makes.kind_of_ne new).symm.trans branch)
  · rcases grows.entries branch inside with ⟨old, before⟩ | ⟨rfl, rfl⟩
    · exact grown.named dir old entry before
    · exact some
  · by_cases new : node = id
    · exact new ▸ makes.held
    · rw [makes.server node new]
      exact grown.held node (by rwa [← makes.kind_of_ne new])
  · by_cases new : node = id
    · subst new
      intro entry here
      simp [makes.bare entry here]
    · by_cases same : node = parent
      · exact same ▸ makes.here.not_removed
      · rw [makes.table node same new]
        exact grown.kept node (by rwa [← makes.kind_of_ne new])

end Adds

section Unlinks

variable {rpc : Rpc Contents} {env : Ambient} {entries : Inum → Listing} {listing : Listing}
  {state next : Census} {parent id : Inum} {name : Bytes}

theorem inumsOf_absent (absent : name ∉ listing.map (·.1)) : inumsOf listing name = [] := by
  rw [inumsOf, List.map_eq_nil_iff, List.filter_eq_nil_iff]
  intro entry inside
  simp only [decide_eq_true_eq]
  rintro rfl
  exact absent (List.mem_map_of_mem inside)

theorem inumsOf_single (distinct : (listing.map (·.1)).Nodup) (inside : (name, id) ∈ listing) :
    inumsOf listing name = [id] := by
  induction listing with
  | nil => cases inside
  | cons entry rest ih =>
    rw [List.map_cons, List.nodup_cons] at distinct
    rcases List.mem_cons.mp inside with rfl | later
    · have others := inumsOf_absent distinct.1
      rw [inumsOf] at others ⊢
      simp [others]
    · have different : entry.1 ≠ name := by
        intro same
        exact distinct.1 (List.mem_map.mpr ⟨_, later, same.symm⟩)
      rw [← ih distinct.2 later, inumsOf, inumsOf, List.filter_cons_of_neg (by simpa using different)]

theorem Grown.child (grown : Grown entries state) (above : state.2 parent = some .T_DIR)
    (inside : name ∈ (entries parent).map (·.1)) :
    ∃ id, (name, id) ∈ entries parent ∧ inumsOf (entries parent) name = [id] := by
  obtain ⟨⟨_, id⟩, listed, rfl⟩ := List.mem_map.mp inside
  exact ⟨id, listed, inumsOf_single (grown.tree.names parent above) listed⟩

structure Drops (parent : Inum) (name : Bytes) (listing : Listing) (state next : Census) : Prop where
  here : Reads (next.1.1 parent) (next.1.2 parent) (textOf (listing.filter (·.1 ≠ name)))
  table : ∀ other, other ≠ parent → other ∉ inumsOf listing name →
    next.1.1 other = state.1.1 other
  server : next.1.2 = state.1.2
  dead : ∀ node ∈ inumsOf listing name, next.2 node = none
  kinds : ∀ node, node ∉ inumsOf listing name → next.2 node = state.2 node

theorem note_quiet {log : List ((op : Op) × op.Reply)} (quiet : ∀ entry ∈ log, entry.1.Quiet)
    (kinds : Kinds) : log.foldl (fun kinds entry => note entry.1 entry.2 kinds) kinds = kinds := by
  induction log with
  | nil => rfl
  | cons entry rest ih =>
    rw [List.forall_mem_cons] at quiet
    rw [List.foldl_cons]
    obtain ⟨op, reply⟩ := entry
    cases op with
    | create type id | remove eid => exact quiet.1.elim
    | get eid buf | getattr eid attr | put eid buf | flush eid | acquire lid | release lid =>
      exact ih quiet.2

theorem remove_status {cache : Table}
    (kept : ∀ entry, cache id = some entry → entry.mState ≠ .REMOVED) :
    (ExtentClientCache.remove env id cache).2 = .OK := by
  unfold ExtentClientCache.remove
  dsimp only
  rw [if_neg]
  cases here : cache id with
  | none => simp [Table.entry, here]
  | some entry => simpa [Table.entry, here] using kept entry here

theorem unlink_drops (faithful : Faithful rpc) (grown : Grown entries state)
    (above : state.2 parent = some .T_DIR) (vars : Locals) (name : Bytes) :
    ∃ next, (unlink vars parent name).run (observe (handle rpc env) note) state =
        (next, if (entries parent).any (·.1 = name) then Result.OK else Result.ENOENT) ∧
      Drops parent name (entries parent) state next := by
  have proper := grown.proper above
  obtain ⟨after, read, rest, ran, rewrites, server, table, only, log, quiet⟩ :=
    unlink_section faithful proper (grown.text parent above) vars env name
  have dead : (removeLog env (inumsOf (entries parent) name) read.1).foldl
        (fun kinds entry => note entry.1 entry.2 kinds) state.2 =
      fun node => if node ∈ inumsOf (entries parent) name then none else state.2 node := by
    by_cases inside : name ∈ (entries parent).map (·.1)
    · obtain ⟨id, listed, ids⟩ := grown.child above inside
      have status : (ExtentClientCache.remove env id read.1).2 = .OK := by
        apply remove_status
        rw [only.table id (proper _ listed).2]
        exact grown.kept id (grown.tree.named parent above _ listed).1
      rw [ids]
      funext node
      simp only [removeLog, status, List.foldl_cons, List.foldl_nil, note, if_true,
        List.mem_singleton, Function.update_apply]
    · rw [inumsOf_absent inside]
      simp [removeLog]
  refine ⟨(after, fun node => if node ∈ inumsOf (entries parent) name then none else state.2 node),
    ?_, rewrites.reads, table, server, fun node inside => if_pos inside,
    fun node outside => if_neg outside⟩
  rw [run_observe, ran, log, List.foldl_cons, List.foldl_cons, List.foldl_append, note_quiet quiet]
  exact congrArg (fun kinds => ((after, kinds), _)) dead

theorem Drops.stays (drops : Drops parent name listing state next) {node : Inum}
    (live : next.2 node ≠ none) :
    node ∉ inumsOf listing name ∧ next.2 node = state.2 node := by
  have spared : node ∉ inumsOf listing name := fun dead => live (drops.dead node dead)
  exact ⟨spared, drops.kinds node spared⟩

theorem Drops.alive (drops : Drops parent name listing state next) {node : Inum}
    (live : next.2 node ≠ none) : state.2 node ≠ none := (drops.stays live).2 ▸ live

theorem Drops.branch (drops : Drops parent name listing state next) {dir : Inum}
    (branch : next.2 dir = some .T_DIR) : state.2 dir = some .T_DIR :=
  (drops.stays (live_of_branch branch)).2 ▸ branch

def dropEntry (entries : Inum → Listing) (parent : Inum) (name : Bytes) : Inum → Listing :=
  Function.update entries parent ((entries parent).filter (·.1 ≠ name))

theorem Drops.prunes (drops : Drops parent name (entries parent) state next)
    (ids : inumsOf (entries parent) name = [id]) (leaf : state.2 id ≠ some .T_DIR) :
    Prunes (spaceOf state.2 entries) (spaceOf next.2 (dropEntry entries parent name)) parent name
      id := by
  have kinds : ∀ {node}, node ≠ id → next.2 node = state.2 node := by
    intro node different
    exact drops.kinds node (by rw [ids]; simpa using different)
  have dead : next.2 id = none := drops.dead id (by rw [ids]; exact List.mem_singleton_self _)
  refine ⟨fun node => ⟨fun live => ⟨drops.alive live, ?_⟩, fun ⟨live, different⟩ => ?_⟩,
    fun node => ⟨drops.branch, fun branch => ?_⟩, Function.update_self _ _ _,
    fun node _ apart => Function.update_of_ne apart _ _⟩
  · rintro rfl
    exact live dead
  · show next.2 node ≠ none
    rw [kinds different]
    exact live
  · refine (kinds ?_).trans branch
    rintro rfl
    exact leaf branch

theorem dropEntry_absent (absent : name ∉ (entries parent).map (·.1)) :
    dropEntry entries parent name = entries := by
  have all : (entries parent).filter (·.1 ≠ name) = entries parent := by
    apply List.filter_eq_self.mpr
    intro entry listed
    simp only [ne_eq, decide_not, Bool.not_eq_true', decide_eq_false_iff_not]
    rintro rfl
    exact absent (List.mem_map_of_mem listed)
  rw [dropEntry, all, Function.update_eq_self]

theorem Drops.tree (drops : Drops parent name (entries parent) state next)
    (grown : Grown entries state) (above : state.2 parent = some .T_DIR)
    (leaf : ∀ entry ∈ entries parent, entry.1 = name → state.2 entry.2 ≠ some .T_DIR) :
    Tree 1 (spaceOf next.2 (dropEntry entries parent name)) := by
  by_cases inside : name ∈ (entries parent).map (·.1)
  · obtain ⟨id, listed, ids⟩ := grown.child above inside
    have leaf := leaf _ listed rfl
    exact grown.tree.prune (drops.prunes ids leaf) above listed leaf
  · have same : next.2 = state.2 := by
      funext node
      exact drops.kinds node (by rw [inumsOf_absent inside]; exact List.not_mem_nil)
    rw [dropEntry_absent inside, same]
    exact grown.tree

theorem Drops.grown (drops : Drops parent name (entries parent) state next)
    (grown : Grown entries state) (above : state.2 parent = some .T_DIR)
    (leaf : ∀ entry ∈ entries parent, entry.1 = name → state.2 entry.2 ≠ some .T_DIR) :
    Grown (dropEntry entries parent name) next := by
  refine ⟨drops.tree grown above leaf, fun dir branch => ?_, fun dir branch entry listed => ?_,
    fun node live => ?_, fun node live => ?_⟩
  · by_cases same : dir = parent
    · subst same
      rw [dropEntry, Function.update_self]
      exact drops.here
    · rw [dropEntry, Function.update_of_ne same, drops.server,
        drops.table dir same (drops.stays (live_of_branch branch)).1]
      exact grown.text dir (drops.branch branch)
  · by_cases same : dir = parent
    · subst same
      rw [dropEntry, Function.update_self] at listed
      exact grown.named dir above entry (List.mem_of_mem_filter listed)
    · rw [dropEntry, Function.update_of_ne same] at listed
      exact grown.named dir (drops.branch branch) entry listed
  · rw [drops.server]
    exact grown.held node (drops.alive live)
  · by_cases same : node = parent
    · exact same ▸ drops.here.not_removed
    · rw [drops.table node same (drops.stays live).1]
      exact grown.kept node (drops.alive live)

end Unlinks

section Runs

variable {entries : Inum → Listing} {state : Census} {turn : Turn}

theorem Grown.answered (grown : Grown entries state) (fits : turn.Fits state)
    (spares : turn.Spares state) {name : Bytes} {type : ExtentType}
    (adds : turn.naming.adds = some (name, type)) :
    ∃ contents id, turn.rpc.create state.1.2 type.code = (contents, .OK, some id) ∧
      state.1.2 id = none ∧ id ≠ turn.naming.parent ∧ name ≠ [] ∧
      name ∉ (entries turn.naming.parent).map (·.1) := by
  obtain ⟨contents, id, made⟩ := spares.answered name type adds
  have unused := fits.unused _ _ _ made
  obtain ⟨some, absent⟩ := fits.fresh name type adds
  rw [Turn.entries, grown.lists fits.parent] at absent
  refine ⟨contents, id, made, unused, ?_, some, absent⟩
  rintro rfl
  exact grown.held _ (live_of_branch fits.parent) unused

theorem Turn.run_makes (fits : turn.Fits state) {listing : Listing} {contents : Contents}
    {name : Bytes} {type : ExtentType} {id : Inum} (adds : turn.naming.adds = some (name, type))
    (made : turn.rpc.create state.1.2 type.code = (contents, .OK, some id))
    (different : id ≠ turn.naming.parent)
    (reads : Reads (state.1.1 turn.naming.parent) (state.1.2 turn.naming.parent) (textOf listing)) :
    ∃ next, turn.run state = (next, Result.OK) ∧
      Makes turn.naming.parent name type id listing state next := by
  obtain ⟨naming, rpc, env, vars, ino⟩ := turn
  cases naming with
  | create parent name | mkdir parent name =>
    cases adds
    obtain ⟨next, ran, makes⟩ := addfile_makes fits.faithful made different reads name ino
    exact ⟨next, run_bind_of ran, makes⟩
  | symlink parent link name =>
    cases adds
    obtain ⟨next, ran, makes⟩ := symlink_makes fits.faithful made different reads link name ino
    exact ⟨next, run_bind_of ran, makes⟩
  | unlink parent name => cases adds

/-- Each call keeps the tree, or changes it by one entry. -/
theorem Grown.step (grown : Grown entries state) (fits : turn.Fits state)
    (spares : turn.Spares state) : ∃ entries, Grown entries (turn.run state).1 := by
  have above := fits.parent
  cases adds : turn.naming.adds with
  | some added =>
    obtain ⟨contents, id, made, unused, different, some, absent⟩ := grown.answered fits spares adds
    obtain ⟨next, ran, makes⟩ := Turn.run_makes fits adds made different (grown.text _ above)
    rw [ran]
    exact ⟨_, makes.grown grown above some absent unused⟩
  | none =>
    obtain ⟨naming, rpc, env, vars, ino⟩ := turn
    cases naming with
    | unlink parent name =>
      obtain ⟨next, ran, drops⟩ := @unlink_drops rpc env _ state parent fits.faithful grown above vars
          name
      have leaf := spares.leaf parent name rfl
      rw [Turn.entries, grown.lists above] at leaf
      have whole : Turn.run ⟨.unlink parent name, rpc, env, vars, ino⟩ state = (next, _) := ran
      rw [whole]
      exact ⟨_, drops.grown grown above leaf⟩
    | create parent name | mkdir parent name | symlink parent link name => cases adds

theorem grown_of_reachable (reachable : Reachable sparing state) :
    ∃ entries, Grown entries state := by
  refine @Reachable.invariant _ _ _ (fun state => ∃ entries, Grown entries state) ?_ ?_ _ reachable
  · rintro ⟨state, kinds⟩ ⟨reads, held, rfl⟩
    have only : ∀ node, Function.update (fun _ => none) (1 : Inum) (some ExtentType.T_DIR) node ≠
        none → node = 1 := by
      intro node live
      by_contra other
      exact live (Function.update_of_ne other _ _)
    have branch : ∀ node, Function.update (fun _ => none) (1 : Inum) (some ExtentType.T_DIR) node =
        some .T_DIR → node = 1 := fun node directory => only node (live_of_branch directory)
    have root : Function.update (fun _ => none) (1 : Inum) (some ExtentType.T_DIR) 1 =
        some .T_DIR := Function.update_self _ _ _
    refine ⟨fun _ => [], ?_, fun dir directory => ?_, fun dir _ entry inside => (by cases inside),
      fun node live => ?_, fun node live => ?_⟩
    · exact .seed root (fun _ => live_of_branch) only rfl
    · rw [branch dir directory]
      exact reads
    · rw [only node live]
      exact held
    · rw [only node live]
      exact reads.not_removed
  · rintro state turn next ⟨entries, grown⟩ ⟨spares, fits, rfl⟩
    exact grown.step fits spares

/-- Every entry of a live directory names a live inode, every live inode but the root has
one entry in one of them, and the entries lead to it from the root. -/
theorem tree_kept (reachable : Reachable sparing state) (finum : Inum) :
    (∀ dir, state.2 dir = some .T_DIR → ∀ entry ∈ entriesOf finum state.1 dir,
      state.2 entry.2 ≠ none) ∧
    (∀ node, state.2 node ≠ none → node ≠ 1 → ∃ dir, state.2 dir = some .T_DIR ∧
      ((entriesOf finum state.1 dir).map (·.2)).count node = 1 ∧
      ∀ other, state.2 other = some .T_DIR → other ≠ dir →
        node ∉ (entriesOf finum state.1 other).map (·.2)) ∧
    ∀ node, state.2 node ≠ none → Reached (spaceOf state.2 (entriesOf finum state.1)) 1 node := by
  obtain ⟨entries, grown⟩ := grown_of_reachable reachable
  have same : ∀ dir, state.2 dir = some .T_DIR → entriesOf finum state.1 dir = entries dir :=
    fun dir branch => grown.lists branch finum
  refine ⟨fun dir branch entry inside => ?_, fun node live different => ?_, fun node live => ?_⟩
  · rw [same dir branch] at inside
    exact (grown.tree.named dir branch entry inside).1
  · obtain ⟨dir, branch, ⟨entry, inside, rfl⟩, alone⟩ := grown.tree.place live different
    refine ⟨dir, branch, ?_, fun other branch' apart member => ?_⟩
    · rw [same dir branch]
      exact List.count_eq_one_of_mem (grown.tree.nodes dir branch) (List.mem_map_of_mem inside)
    · rw [same other branch'] at member
      obtain ⟨entry', inside', same'⟩ := List.mem_map.mp member
      exact alone other branch' apart entry' inside' same'
  · refine (grown.tree.reached node live).mono fun dir branch => ⟨branch, fun entry inside => ?_⟩
    show entry ∈ entriesOf finum state.1 dir
    rw [same dir branch]
    exact inside

/-- An unlink that names a directory is answered OK. What the directory lists stays live,
and no live directory lists it any more. -/
theorem Grown.loses (grown : Grown entries state) (fits : turn.Fits state) {parent child : Inum}
    {name : Bytes} (call : turn.naming = .unlink parent name)
    (listed : (name, child) ∈ entries parent) (directory : state.2 child = some .T_DIR)
    (finum : Inum) :
    (turn.run state).2 = Result.OK ∧ ∀ entry ∈ entries child,
      (turn.run state).1.2 entry.2 ≠ none ∧ ∀ dir, (turn.run state).1.2 dir = some .T_DIR →
        ∀ other ∈ entriesOf finum (turn.run state).1.1 dir, other.2 ≠ entry.2 := by
  obtain ⟨naming, rpc, env, vars, ino⟩ := turn
  cases call
  have above : state.2 parent = some .T_DIR := fits.parent
  obtain ⟨next, ran, drops⟩ :=
    @unlink_drops rpc env _ state parent fits.faithful grown above vars name
  have whole : Turn.run ⟨.unlink parent name, rpc, env, vars, ino⟩ state = (next, _) := ran
  have found : (entries parent).any (·.1 = name) := List.any_eq_true.mpr ⟨_, listed, by simp⟩
  rw [if_pos found] at whole
  rw [whole]
  have ids : inumsOf (entries parent) name = [child] :=
    inumsOf_single (grown.tree.names parent above) listed
  refine ⟨rfl, fun entry inside => ⟨?_, fun dir branch other member same => ?_⟩⟩
  · have different : entry.2 ≠ child := (grown.proper directory entry inside).2
    rw [drops.kinds entry.2 (by rw [ids]; simpa using different)]
    exact (grown.tree.named child directory entry inside).1
  · -- The directory of an entry of the same node is the one that is gone.
    have spared := (drops.stays (live_of_branch branch)).1
    have apart : dir ≠ child := by
      rintro rfl
      exact spared (by rw [ids]; exact List.mem_singleton_self _)
    have before := drops.branch branch
    have was : other ∈ entries dir := by
      by_cases here : dir = parent
      · subst here
        rw [entriesOf_eq drops.here fun entry inside =>
          grown.named dir before entry (List.mem_of_mem_filter inside)] at member
        exact List.mem_of_mem_filter member
      · have reads := grown.text dir before
        rw [← drops.table dir here spared, ← drops.server] at reads
        rwa [entriesOf_eq reads (grown.named dir before)] at member
    exact apart (grown.tree.single dir child before directory other was entry inside same)

end Runs

/-- The root on its own. -/
def emptyRoot : Census :=
  ((fun _ => none, fun id => if id = 1 then some ⟨.T_DIR, []⟩ else none),
    Function.update (fun _ => none) 1 (some .T_DIR))

def Naming.on (pick : Inum) (naming : Naming) : Turn :=
  ⟨naming, plain pick, ⟨0, ⟨0, 0, 0, 0, 0⟩⟩, ⟨⟨0, 0, 0, 0, 0⟩, 0⟩, 0⟩

theorem emptyRoot_init : naming.init emptyRoot := by
  refine ⟨.inr (.inr ⟨bare_none, rfl⟩), ?_, rfl⟩
  simp [emptyRoot]

theorem Naming.on_fits {pick : Inum} {naming : Naming} {state : Census}
    (unused : (state.1.2 pick).isNone) (parent : state.2 naming.parent = some .T_DIR)
    (fresh : ∀ name type, naming.adds = some (name, type) →
      name ≠ [] ∧ name ∉ ((naming.on pick).entries state).map (·.1)) :
    (naming.on pick).Fits state where
  faithful := faithful_plain pick
  unused type contents id made := by
    cases made
    exact Option.isNone_iff_eq_none.mp unused
  parent := parent
  fresh := fresh

theorem Naming.on_spares {pick : Inum} {naming : Naming} {state : Census} {name : Bytes}
    {type : ExtentType} (adds : naming.adds = some (name, type)) :
    (naming.on pick).Spares state where
  answered name type _ := ⟨_, pick, rfl⟩
  leaf parent name same := by
    rw [show naming = .unlink parent name from same] at adds
    cases adds

theorem directory_made : Reachable sparing ((Naming.on 2 (.mkdir 1 [100])).run emptyRoot).1 := by
  have begins : Reachable sparing emptyRoot := ⟨[], .start emptyRoot_init⟩
  refine begins.extend (show sparing.step _ (Naming.on 2 (.mkdir 1 [100])) _ from
    ⟨Naming.on_spares rfl, Naming.on_fits rfl rfl fun _ _ adds => ?_, rfl⟩)
  cases adds
  exact ⟨by decide, by decide +kernel⟩

theorem tree_kept_mkdir : ∃ state : Census, Reachable sparing state ∧ state.2 2 = some .T_DIR ∧
    Reached (spaceOf state.2 (entriesOf 0 state.1)) 1 2 :=
  ⟨_, directory_made, rfl, (tree_kept directory_made 0).2.2 2 (live_of_branch rfl)⟩

def nestedFile : Census :=
  ((Naming.on 3 (.create 2 [102])).run ((Naming.on 2 (.mkdir 1 [100])).run emptyRoot).1).1

theorem nestedFile_made : Reachable sparing nestedFile := by
  refine directory_made.extend (show sparing.step _ (Naming.on 3 (.create 2 [102])) _ from
    ⟨Naming.on_spares rfl, Naming.on_fits (by decide +kernel) (by decide +kernel)
      fun _ _ adds => ?_, rfl⟩)
  cases adds
  exact ⟨by decide, by decide +kernel⟩

/-- A directory with a file in it is unlinked and the answer is OK: the file is live, but
no live directory has an entry for it. -/
theorem subtree_lost : ∃ (state next : Census) (turn : Turn), Reachable naming state ∧
    turn.naming = .unlink 1 [100] ∧ ([100], 2) ∈ entriesOf 0 state.1 1 ∧ state.2 2 = some .T_DIR ∧
    naming.step state turn next ∧ turn.run state = (next, Result.OK) ∧ next.2 3 ≠ none ∧
    ∀ dir, next.2 dir = some .T_DIR → ∀ entry ∈ entriesOf 0 next.1 dir, entry.2 ≠ 3 := by
  obtain ⟨entries, grown⟩ := grown_of_reachable nestedFile_made
  have root : nestedFile.2 1 = some .T_DIR := by decide +kernel
  have directory : nestedFile.2 2 = some .T_DIR := by decide +kernel
  have listed : ([100], 2) ∈ entriesOf 0 nestedFile.1 1 := by decide +kernel
  have inside : ([102], 3) ∈ entriesOf 0 nestedFile.1 2 := by decide +kernel
  have fits : (Naming.on 4 (.unlink 1 [100])).Fits nestedFile :=
    Naming.on_fits (by decide +kernel) root fun _ _ adds => by cases adds
  obtain ⟨ret, lost⟩ := grown.loses fits rfl (grown.lists root 0 ▸ listed) directory 0
  obtain ⟨live, unnamed⟩ := lost _ (grown.lists directory 0 ▸ inside)
  have reachable : Reachable naming nestedFile :=
    nestedFile_made.mono (fun _ begins => begins) fun _ _ _ steps => steps.2
  exact ⟨nestedFile, _, _, reachable, rfl, listed, directory, ⟨fits, rfl⟩, Prod.ext rfl ret, live,
    unnamed⟩

end NaiveFileSystem.Yfs
