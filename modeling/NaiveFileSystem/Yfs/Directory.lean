import NaiveFileSystem.Lib.Transition
import NaiveFileSystem.Yfs.Listing
import NaiveFileSystem.Yfs.Session

/-!
# A directory refines a list of entries

One client adds entries to a directory and unlinks them. Its text is always that
of the listing obtained by appending an entry for each add and deleting all
entries of a name for each unlink, and the three loops over the text answer as
the listing does.
-/

namespace NaiveFileSystem.Yfs

open Extent Cache Transition Program YfsClient

/-- The operations on one directory, with the inum that `create` hands out. -/
inductive DirOp
  | create (name : Bytes) (id : Inum)
  | mkdir (name : Bytes) (id : Inum)
  | symlink (link name : Bytes) (id : Inum)
  | unlink (name : Bytes)

def DirOp.apply (listing : Listing) : DirOp → Listing
  | .create name id | .mkdir name id | .symlink _ name id => listing ++ [(name, id)]
  | .unlink name => listing.filter (·.1 ≠ name)

/-- Names are not empty, and the directory's own inum is not handed out again. -/
def DirOp.Fits (dir : Inum) : DirOp → Prop
  | .create name id | .mkdir name id | .symlink _ name id => name ≠ [] ∧ id ≠ dir
  | .unlink name => name ≠ []

inductive Performs (dir : Inum) : Table × Contents → DirOp → Table × Contents → Prop
  | create {state name id rpc} (env : Ambient) (inoOut : Inum) : Faithful rpc → Hands rpc id →
      Performs dir state (.create name id) ((create dir name inoOut).run (handle rpc env) state).1
  | mkdir {state name id rpc} (env : Ambient) (inoOut : Inum) : Faithful rpc → Hands rpc id →
      Performs dir state (.mkdir name id) ((mkdir dir name inoOut).run (handle rpc env) state).1
  | symlink {state link name id rpc} (env : Ambient) (ino : Inum) : Faithful rpc → Hands rpc id →
      Performs dir state (.symlink link name id)
        ((symlink dir link name ino).run (handle rpc env) state).1
  | unlink {state name rpc} (vars : Locals) (env : Ambient) : Faithful rpc →
      Performs dir state (.unlink name) ((unlink vars dir name).run (handle rpc env) state).1

def directory (dir : Inum) : System (Table × Contents) DirOp where
  init := Holds dir []
  step state op next := op.Fits dir ∧ Performs dir state op next

/-- Entries have names, and none of them is the directory itself. -/
def Proper (dir : Inum) (listing : Listing) : Prop :=
  ∀ entry ∈ listing, entry.1 ≠ [] ∧ entry.2 ≠ dir

theorem textOf_append (first second : Listing) :
    textOf (first ++ second) = textOf first ++ textOf second := List.flatMap_append

section Operations

variable {rpc : Rpc Contents} {dir : Inum} {listing : Listing} {state : Table × Contents}

structure Added (dir id : Inum) (type : ExtentType) (env : Ambient) (state next : Table × Contents) :
    Prop where
  table : ∀ other, other ≠ dir →
    next.1 other = ExtentClientCache.recordCreated env type.code id state.1 other
  server : next.2 = Function.update state.2 id (some ⟨type, []⟩)

theorem addfile_section (faithful : Faithful rpc) (env : Ambient) {id : Inum} {type : ExtentType}
    {contents : Contents} (made : rpc.create state.2 type.code = (contents, .OK, some id))
    (different : id ≠ dir) {data : Bytes} (reads : Reads (state.1 dir) (state.2 dir) data)
    (name : Bytes) (inoOut : Inum) :
    ∃ next, (addfile dir name inoOut type).run (handle rpc env) state = (next, Result.OK, id) ∧
      Rewrites dir (data ++ lineOf (name, id)) state next ∧ Added dir id type env state next ∧
      (addfile dir name inoOut type).transcript (handle rpc env) state =
        [⟨.acquire dir, ()⟩, ⟨.create type.code inoOut, (.OK, id)⟩, ⟨.get dir [], (.OK, data)⟩,
          ⟨.put dir (data ++ lineOf (name, id)), .OK⟩, ⟨.release dir, ()⟩] := by
  have created := create_made faithful env made inoOut
  have kept : Rewrites dir data state (ExtentClientCache.recordCreated env type.code id state.1,
      Function.update state.2 id (some ⟨type, []⟩)) :=
    .of_same reads (ExtentClientCache.recordCreated_of_ne env _ different.symm)
      (Function.update_of_ne different.symm _ _)
  obtain ⟨read, got, here, present, only⟩ := get_rewrites faithful env [] kept.reads
  obtain ⟨next, put, written, only'⟩ :=
    put_rewrites rpc env (data ++ lineOf (name, id)) here.reads present
  have touched := only.trans only'
  refine ⟨next, ?_, (kept.trans here).trans written, ⟨touched.table, touched.server⟩, ?_⟩
  · simp only [addfile, perform_bind]
    rw [run_call_of (handle_acquire ..), run_call_of created, run_call_of got]
    exact (run_call_of put).trans (run_call_of (handle_release ..))
  · simp only [addfile, perform_bind]
    rw [transcript_call_of (handle_acquire ..), transcript_call_of created, transcript_call_of got]
    exact congrArg (_ :: _ :: _ :: ·) ((transcript_call_of put).trans
      (congrArg (_ :: ·) (transcript_call_of (handle_release ..))))

theorem addfile_ok (faithful : Faithful rpc) {id : Inum} (hands : Hands rpc id) (env : Ambient)
    (different : id ≠ dir) (holds : Holds dir (textOf listing) state) (name : Bytes) (inoOut : Inum)
    (type : ExtentType) :
    ∃ next, (addfile dir name inoOut type).run (handle rpc env) state = (next, Result.OK, id) ∧
      Holds dir (textOf (listing ++ [(name, id)])) next ∧ Bare (next.1 id) ∧
      next.2 id = some ⟨type, []⟩ := by
  obtain ⟨contents, made⟩ := hands state.2 type
  obtain ⟨next, ran, written, added, _⟩ :=
    addfile_section faithful env made different holds.reads name inoOut
  refine ⟨next, ran, ?_, ?_, ?_⟩
  · rw [textOf_append]
    simpa [textOf] using written.holds holds
  · rw [added.table id different]
    exact ExtentClientCache.bare_recordCreated env _ id
  · rw [added.server, Function.update_self]

theorem symlink_ok (faithful : Faithful rpc) {id : Inum} (hands : Hands rpc id) (env : Ambient)
    (different : id ≠ dir) (holds : Holds dir (textOf listing) state) (link name : Bytes)
    (ino : Inum) :
    ∃ next, (symlink dir link name ino).run (handle rpc env) state = (next, Result.OK, id) ∧
      Holds dir (textOf (listing ++ [(name, id)])) next := by
  obtain ⟨added, ran, here, bare, empty⟩ :=
    addfile_ok faithful hands env different holds name ino .T_SYMLK
  obtain ⟨linked, flushed, ret, put, flush, others, _⟩ :=
    putFlush_other faithful env link bare.not_removed (by simp [empty])
  refine ⟨flushed, ?_, here.congr (others dir different.symm).1 (others dir different.symm).2⟩
  rw [symlink, run_bind_of ran]
  simp only [perform_bind]
  rw [run_call_of (handle_acquire ..), run_call_of put, run_call_of flush,
    run_call_of (handle_release ..)]
  rfl

theorem unlinkPasses_named (vars : Locals) {name fileName node : Bytes} (rest : List (Bytes × Bytes))
    (flag : Bool) (result : Bytes) (same : uncode fileName = name) :
    unlinkPasses vars name ((fileName, node) :: rest) flag result =
      .call (.remove (n2i vars.finum node)) fun _ => unlinkPasses vars name rest true result := by
  rw [unlinkPasses, if_pos same]
  rfl

def removeAll (env : Ambient) (ids : List Inum) (cache : Table) : Table :=
  ids.foldl (fun cache id => (ExtentClientCache.remove env id cache).1) cache

def removeLog (env : Ambient) : List Inum → Table → List ((op : Op) × op.Reply)
  | [], _ => []
  | id :: rest, cache => ⟨.remove id, (ExtentClientCache.remove env id cache).2⟩ ::
    removeLog env rest (ExtentClientCache.remove env id cache).1

theorem remove_of_ne (env : Ambient) {cache : Table} {id other : Inum} (different : other ≠ id) :
    (ExtentClientCache.remove env id cache).1 other = cache other := by
  unfold ExtentClientCache.remove
  dsimp only
  split
  next => rfl
  next => exact Function.update_of_ne different _ _

theorem removeAll_of_not_mem (env : Ambient) {ids : List Inum} {cache : Table} {other : Inum}
    (spared : other ∉ ids) : removeAll env ids cache other = cache other := by
  induction ids generalizing cache with
  | nil => rfl
  | cons id rest ih =>
    rw [List.mem_cons, not_or] at spared
    exact (ih spared.2).trans (remove_of_ne env spared.1)

theorem map_removeLog (env : Ambient) (ids : List Inum) (cache : Table) :
    (removeLog env ids cache).map Sigma.fst = ids.map Op.remove := by
  induction ids generalizing cache with
  | nil => rfl
  | cons id rest ih => exact congrArg (_ :: ·) (ih _)

def inumsOf (listing : Listing) (name : Bytes) : List Inum :=
  (listing.filter (·.1 = name)).map (·.2)

theorem unlinkPasses_section (rpc : Rpc Contents) (vars : Locals) (env : Ambient) (name : Bytes)
    (rest : Listing) (flag : Bool) (result : Bytes) (cache : Table) (server : Contents) :
    (unlinkPasses vars name (rest.map fun entry => (encode entry.1, filename entry.2)) flag
        result).run (handle rpc env) (cache, server) =
      ((removeAll env (inumsOf rest name) cache, server), flag || rest.any (·.1 = name),
        result ++ textOf (rest.filter (·.1 ≠ name))) ∧
    (unlinkPasses vars name (rest.map fun entry => (encode entry.1, filename entry.2)) flag
        result).transcript (handle rpc env) (cache, server) =
      removeLog env (inumsOf rest name) cache := by
  induction rest generalizing flag result cache with
  | nil => exact ⟨by simp [unlinkPasses, textOf, removeAll, inumsOf], rfl⟩
  | cons entry rest ih =>
    by_cases same : entry.1 = name
    · have named : uncode (encode entry.1) = name := (uncode_encode entry.1).trans same
      have ids : inumsOf (entry :: rest) name = entry.2 :: inumsOf rest name := by
        simp [inumsOf, same]
      have ran : handle rpc env (.remove entry.2) (cache, server) =
          (((ExtentClientCache.remove env entry.2 cache).1, server),
            (ExtentClientCache.remove env entry.2 cache).2) := rfl
      obtain ⟨goes, log⟩ := ih true result (ExtentClientCache.remove env entry.2 cache).1
      rw [List.map_cons, unlinkPasses_named vars _ _ _ named, n2i_filename, run_call_of ran,
        transcript_call_of ran, ids, goes, log]
      exact ⟨by simp [same, removeAll], rfl⟩
    · have ids : inumsOf (entry :: rest) name = inumsOf rest name := by simp [inumsOf, same]
      obtain ⟨goes, log⟩ := ih flag (result ++ lineOf entry) cache
      simp only [List.map_cons, unlinkPasses, uncode_encode, if_neg same]
      rw [← lineOf, goes, log, ids]
      exact ⟨by simp [same, textOf], rfl⟩

theorem Proper.named (proper : Proper dir listing) : ∀ entry ∈ listing, entry.1 ≠ [] :=
  fun entry inside => (proper entry inside).1

/-- The inums that a run removes, in order. -/
def removals (ops : List Op) : List Inum :=
  ops.filterMap fun | .remove eid => some eid | _ => none

theorem removals_append (first second : List Op) :
    removals (first ++ second) = removals first ++ removals second := List.filterMap_append

theorem removals_map (ids : List Inum) : removals (ids.map Op.remove) = ids := by
  rw [removals, List.filterMap_map]
  exact List.filterMap_some

/-- A call that makes and removes no inode. -/
def Op.Quiet : Op → Prop
  | .create _ _ | .remove _ => False
  | _ => True

theorem removals_quiet {ops : List Op} (quiet : ∀ op ∈ ops, op.Quiet) : removals ops = [] := by
  apply List.filterMap_eq_nil_iff.mpr
  intro op inside
  cases op with
  | remove eid => exact (quiet _ inside).elim
  | create | get | getattr | put | flush | acquire | release => rfl

theorem unlinkFinish_ok (env : Ambient) {flag : Bool} {data result : Bytes}
    (reads : Reads (state.1 dir) (state.2 dir) data) (present : state.1 dir ≠ none) :
    ∃ next, (unlinkFinish dir flag result).run (handle rpc env) state =
        (next, if flag then Result.OK else Result.ENOENT) ∧
      Rewrites dir (if flag then result else data) state next ∧ OnlyAt dir state next ∧
      ∀ entry ∈ (unlinkFinish dir flag result).transcript (handle rpc env) state, entry.1.Quiet := by
  cases flag with
  | true =>
    obtain ⟨next, put, written, only⟩ := put_rewrites rpc env result reads present
    refine ⟨next, ?_, written, only, ?_⟩
    · simp only [unlinkFinish, Bool.not_true, Bool.false_eq_true, if_false, perform_bind]
      rw [run_call_of put, run_call_of (handle_release ..)]
      rfl
    · simp only [unlinkFinish, Bool.not_true, Bool.false_eq_true, if_false, perform_bind]
      rw [transcript_call_of put, transcript_call_of (handle_release ..)]
      simp [Op.Quiet]
  | false =>
    exact ⟨state, rfl, .of_same reads rfl rfl, ⟨fun _ _ => rfl, rfl⟩,
      by simp [unlinkFinish, transcript, Op.Quiet]⟩

theorem unlink_section (faithful : Faithful rpc) (proper : Proper dir listing)
    (reads : Reads (state.1 dir) (state.2 dir) (textOf listing)) (vars : Locals) (env : Ambient)
    (name : Bytes) :
    ∃ next read rest, (unlink vars dir name).run (handle rpc env) state =
        (next, if listing.any (·.1 = name) then Result.OK else Result.ENOENT) ∧
      Rewrites dir (textOf (listing.filter (·.1 ≠ name))) state next ∧ next.2 = state.2 ∧
      (∀ other, other ≠ dir → other ∉ inumsOf listing name → next.1 other = state.1 other) ∧
      OnlyAt dir state read ∧
      (unlink vars dir name).transcript (handle rpc env) state = ⟨.acquire dir, ()⟩ ::
        ⟨.get dir [], (.OK, textOf listing)⟩ :: (removeLog env (inumsOf listing name) read.1 ++ rest) ∧
      ∀ entry ∈ rest, entry.1.Quiet := by
  obtain ⟨read, got, here, present, only⟩ := get_rewrites faithful env [] reads
  have spared : dir ∉ inumsOf listing name := by
    intro inside
    obtain ⟨entry, member, same⟩ := List.mem_map.mp inside
    exact (proper entry (List.mem_of_mem_filter member)).2 same
  have untouched := @removeAll_of_not_mem env (inumsOf listing name) read.1 dir spared
  obtain ⟨goes, log⟩ := unlinkPasses_section rpc vars env name listing false [] read.1 read.2
  rw [Bool.false_or, List.nil_append] at goes
  have swept : Rewrites dir (textOf listing) read
      (removeAll env (inumsOf listing name) read.1, read.2) := .of_same here.reads untouched rfl
  obtain ⟨next, done, kept, only', quiet⟩ := @unlinkFinish_ok rpc dir
    (removeAll env (inumsOf listing name) read.1, read.2) env (listing.any (·.1 = name)) _
    (textOf (listing.filter (·.1 ≠ name))) swept.reads (fun none => present (untouched.symm.trans none))
  have passes := tokens_textOf proper.named
  refine ⟨next, read, _, ?_, ?_, only'.server.trans only.server, fun other different others => ?_, only,
    ?_, quiet⟩
  · simp only [unlink, perform_bind]
    rw [run_call_of (handle_acquire ..), run_call_of got]
    simp only [passes]
    rw [run_bind_of goes]
    exact done
  · have whole := (here.trans swept).trans kept
    split at whole
    next => exact whole
    next absent =>
      have all : listing.filter (·.1 ≠ name) = listing := by
        apply List.filter_eq_self.mpr
        intro entry inside
        simp only [List.any_eq_true, decide_eq_true_eq, not_exists, not_and] at absent
        simpa using absent entry inside
      rwa [all]
  · rw [only'.table other different, ← only.table other different]
    exact removeAll_of_not_mem env others
  · simp only [unlink, perform_bind]
    rw [transcript_call_of (handle_acquire ..), transcript_call_of got]
    simp only [passes]
    rw [transcript_bind_of goes, log]

theorem unlink_ok (faithful : Faithful rpc) (proper : Proper dir listing)
    (holds : Holds dir (textOf listing) state) (vars : Locals) (env : Ambient) (name : Bytes) :
    ∃ next, (unlink vars dir name).run (handle rpc env) state =
        (next, if listing.any (·.1 = name) then Result.OK else Result.ENOENT) ∧
      Holds dir (textOf (listing.filter (·.1 ≠ name))) next ∧
      removals ((unlink vars dir name).calls (handle rpc env) state) =
        (listing.filter (·.1 = name)).map (·.2) := by
  obtain ⟨next, read, rest, ran, kept, _, _, _, log, quiet⟩ :=
    unlink_section faithful proper holds.reads vars env name
  refine ⟨next, ran, kept.holds holds, ?_⟩
  have calm : removals (rest.map Sigma.fst) = [] := by
    apply removals_quiet
    intro op inside
    obtain ⟨entry, member, rfl⟩ := List.mem_map.mp inside
    exact quiet entry member
  rw [calls_eq_transcript, log, List.map_cons, List.map_cons, List.map_append, map_removeLog]
  show removals (_ ++ _) = _
  rw [removals_append, removals_map, calm, List.append_nil]
  rfl

theorem readdir_ok (faithful : Faithful rpc) (proper : Proper dir listing)
    (holds : Holds dir (textOf listing) state) (vars : Locals) (env : Ambient) (list : List Dirent) :
    ∃ next, (readdir vars dir list).run (handle rpc env) state =
        (next, Result.OK, list ++ listing.map fun entry => ⟨entry.1, entry.2⟩) ∧
      Holds dir (textOf listing) next ∧ OnlyAt dir state next := by
  obtain ⟨typed, a, asked, type, known, only⟩ := getattr_holds faithful env vars.attr holds
  obtain ⟨next, got, here, only'⟩ := get_holds faithful env [] known
  refine ⟨next, ?_, here, only.trans only'⟩
  simp only [readdir, isdir, isType, perform_bind, call_bind]
  rw [run_call_of (handle_acquire ..), run_call_of asked]
  simp only [type, ne_eq, not_true, if_false, pure_eq, done_bind, decide_true, Bool.not_true,
    Bool.false_eq_true]
  rw [run_call_of got, run_call_of (handle_release ..)]
  simp only [run_done, tokens_textOf proper.named, List.map_map, Function.comp_def, uncode_encode,
    n2i_filename]

theorem lookup_ok (faithful : Faithful rpc) (proper : Proper dir listing)
    (holds : Holds dir (textOf listing) state) (vars : Locals) (env : Ambient) (name : Bytes)
    (found : Bool) (inoOut : Inum) :
    ∃ next, (lookup vars dir name found inoOut).run (handle rpc env) state =
        (next, match listing.find? (·.1 = name) with
          | some entry => (Result.OK, true, entry.2)
          | none => (Result.IOERR, false, inoOut)) ∧
      Holds dir (textOf listing) next ∧ OnlyAt dir state next := by
  obtain ⟨typed, a, asked, type, known, only⟩ := getattr_holds faithful env vars.attr holds
  obtain ⟨next, got, here, only'⟩ := get_holds faithful env [] known
  refine ⟨next, ?_, here, only.trans only'⟩
  have search : (tokens (textOf listing)).find? (fun pass => uncode pass.1 = name) =
      (listing.find? (·.1 = name)).map fun entry => (encode entry.1, filename entry.2) := by
    rw [tokens_textOf proper.named, List.find?_map]
    simp only [Function.comp_def, uncode_encode]
  simp only [lookup, find, perform_bind, call_bind]
  rw [run_call_of (handle_acquire ..), run_call_of asked]
  simp only [type, ne_eq, not_true, if_false, call_bind]
  rw [run_call_of got]
  simp only [search]
  cases listing.find? (·.1 = name) with
  | none => rfl
  | some entry =>
    simp only [Option.map_some, n2i_filename]
    rfl

theorem Proper.apply (proper : Proper dir listing) {op : DirOp} (fits : op.Fits dir) :
    Proper dir (op.apply listing) := by
  have appended : ∀ name id, name ≠ [] ∧ id ≠ dir → Proper dir (listing ++ [(name, id)]) := by
    intro name id fresh entry inside
    rcases List.mem_append.mp inside with old | new
    · exact proper entry old
    · rw [List.mem_singleton.mp new]
      exact fresh
  cases op with
  | create name id | mkdir name id | symlink link name id => exact appended name id fits
  | unlink name => exact fun entry inside => proper entry (List.mem_of_mem_filter inside)

theorem performs_holds {op : DirOp} {next : Table × Contents} (proper : Proper dir listing)
    (fits : op.Fits dir) (holds : Holds dir (textOf listing) state)
    (performs : Performs dir state op next) : Holds dir (textOf (op.apply listing)) next := by
  cases performs with
  | @create name id rpc env inoOut faithful hands =>
    obtain ⟨next, ran, here, _⟩ := addfile_ok faithful hands env fits.2 holds name inoOut .T_FILE
    show Holds dir _ ((addfile dir name inoOut .T_FILE).run (handle rpc env) state).1
    rw [ran]
    exact here
  | @mkdir name id rpc env inoOut faithful hands =>
    obtain ⟨next, ran, here, _⟩ := addfile_ok faithful hands env fits.2 holds name inoOut .T_DIR
    show Holds dir _ ((addfile dir name inoOut .T_DIR).run (handle rpc env) state).1
    rw [ran]
    exact here
  | symlink env ino faithful hands =>
    obtain ⟨next, ran, here⟩ := symlink_ok faithful hands env fits.2 holds _ _ ino
    rw [ran]
    exact here
  | unlink vars env faithful =>
    obtain ⟨next, ran, here, _⟩ := unlink_ok faithful proper holds vars env _
    rw [ran]
    exact here

theorem holds_of_run {ops : List DirOp} (run : Run (directory dir) ops state) :
    Proper dir (ops.foldl DirOp.apply []) ∧ Holds dir (textOf (ops.foldl DirOp.apply [])) state := by
  refine @Run.invariant _ _ _ (fun ops state => Proper dir (ops.foldl DirOp.apply []) ∧
    Holds dir (textOf (ops.foldl DirOp.apply [])) state) ?_ ?_ _ _ run
  · exact fun state empty => ⟨by simp [Proper], empty⟩
  · rintro ops state op next ⟨proper, holds⟩ ⟨fits, performs⟩
    rw [List.foldl_append]
    exact ⟨proper.apply fits, performs_holds proper fits holds performs⟩

end Operations

/-- Behind every run, the three loops answer as the listing of the run does. -/
theorem directory_refines_listing {dir : Inum} {ops : List DirOp} {state : Table × Contents}
    (run : Run (directory dir) ops state) {rpc : Rpc Contents} (faithful : Faithful rpc)
    (vars : Locals) (env : Ambient) :
    (∀ list, ∃ next, (readdir vars dir list).run (handle rpc env) state = (next, Result.OK,
      list ++ (ops.foldl DirOp.apply []).map fun entry => ⟨entry.1, entry.2⟩)) ∧
    (∀ name found inoOut, ∃ next, (lookup vars dir name found inoOut).run (handle rpc env) state =
      (next, match (ops.foldl DirOp.apply []).find? (·.1 = name) with
        | some entry => (Result.OK, true, entry.2)
        | none => (Result.IOERR, false, inoOut))) ∧
    ∀ name, ∃ next, (unlink vars dir name).run (handle rpc env) state =
        (next, if (ops.foldl DirOp.apply []).any (·.1 = name) then Result.OK else Result.ENOENT) ∧
      Holds dir (textOf ((ops.foldl DirOp.apply []).filter (·.1 ≠ name))) next ∧
      removals ((unlink vars dir name).calls (handle rpc env) state) =
        ((ops.foldl DirOp.apply []).filter (·.1 = name)).map (·.2) := by
  obtain ⟨proper, holds⟩ := holds_of_run run
  refine ⟨fun list => ?_, fun name found inoOut => ?_, unlink_ok faithful proper holds vars env⟩
  · obtain ⟨next, ran, _⟩ := readdir_ok faithful proper holds vars env list
    exact ⟨next, ran⟩
  · obtain ⟨next, ran, _⟩ := lookup_ok faithful proper holds vars env name found inoOut
    exact ⟨next, ran⟩

theorem directory_refines_listing_two_entries : ∃ (state next : Table × Contents),
    Run (directory 1) [.create [97, 32] 2, .symlink [47] [98, 10] 3] state ∧
    (readdir ⟨⟨0, 0, 0, 0, 0⟩, 0⟩ 1 []).run (handle (plain 4) ⟨0, ⟨0, 0, 0, 0, 0⟩⟩) state =
      (next, Result.OK, [⟨[97, 32], 2⟩, ⟨[98, 10], 3⟩]) := by
  let env : Ambient := ⟨0, ⟨0, 0, 0, 0, 0⟩⟩
  have empty : (directory 1).init
      (fun _ => none, fun id => if id = 1 then some ⟨.T_DIR, []⟩ else none) := by
    refine ⟨.inr (.inr ⟨bare_none, rfl⟩), fun _ none => ?_, fun _ file here => ?_⟩
    · cases none
    · rw [← Option.some.inj here]
  have first := Run.extend (.start empty) (show (directory 1).step _ (.create [97, 32] 2) _ from
    ⟨⟨by simp, by decide⟩, .create env 0 (faithful_plain 2) (hands_plain 2)⟩)
  have second := Run.extend first (show (directory 1).step _ (.symlink [47] [98, 10] 3) _ from
    ⟨⟨by simp, by decide⟩, .symlink env 0 (faithful_plain 3) (hands_plain 3)⟩)
  obtain ⟨next, ran⟩ := (directory_refines_listing second (faithful_plain 4) ⟨⟨0, 0, 0, 0, 0⟩, 0⟩
    env).1 []
  exact ⟨_, next, second, ran⟩

end NaiveFileSystem.Yfs
