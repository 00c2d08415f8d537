import NaiveFileSystem.Yfs.Directory
import NaiveFileSystem.Yfs.Frames

/-!
# Names in a directory

Any number of clients add names to one directory and unlink them, each section under
the lock of the directory in one step, and work on other extents meanwhile. Nothing
looks for the name before it is added, so names stay distinct as long as each one
that is added is absent when the lock is taken.
-/

namespace NaiveFileSystem.Yfs

open Extent Cache Transition Program YfsClient

/-- The clients of a directory, and who owns its lock. -/
structure Crowd (κ : Type) where
  table : κ → Table
  server : Contents
  owner : Option κ

/-- `create`, `mkdir` and the first half of a symlink add a name, with their type. The
other half of a symlink is elsewhere: it writes the new extent under its own lock. -/
inductive Section (κ : Type)
  | add (client : κ) (name : Bytes) (type : ExtentType) (id : Inum) (ret : ℤ)
  | unlink (client : κ) (name : Bytes) (ret : ℤ)
  | elsewhere (client : κ) (op : Op)
  | handOver (client : κ)

section System

variable {κ : Type} [DecidableEq κ]

def Crowd.Grants (state : Crowd κ) (client : κ) : Prop :=
  state.owner = some client ∨ state.owner = none

def Crowd.after (state : Crowd κ) (client : κ) (owner : Option κ) (next : Table × Contents) :
    Crowd κ :=
  ⟨Function.update state.table client next.1, next.2, owner⟩

inductive Enters (dir : Inum) : Crowd κ → Section κ → Crowd κ → Prop
  | add {state client name type id rpc contents next ret} (env : Ambient) (inoOut : Inum) :
      Steady rpc → state.Grants client → name ≠ [] →
      rpc.create state.server (ExtentType.code type) = (contents, .OK, some id) →
      state.server id = none →
      (addfile dir name inoOut type).run (handle rpc env) (state.table client, state.server) =
        (next, ret, id) →
      Enters dir state (.add client name type id ret) (state.after client (some client) next)
  | unlink {state client name rpc next ret} (vars : Locals) (env : Ambient) :
      Steady rpc → state.Grants client → name ≠ [] →
      (unlink vars dir name).run (handle rpc env) (state.table client, state.server) = (next, ret) →
      Enters dir state (.unlink client name ret) (state.after client (some client) next)
  | elsewhere {state client op eid rpc} (env : Ambient) : Steady rpc → op.extent = some eid →
      eid ≠ dir → state.server eid ≠ none →
      Enters dir state (.elsewhere client op) (state.after client state.owner
        (handle rpc env op (state.table client, state.server)).1)
  | handOver {state client rpc next ret} : Steady rpc → state.owner = some client →
      ExtentClientCache.flush rpc dir (state.table client) state.server = (next, ret) →
      Enters dir state (.handOver client) (state.after client none next)

/-- The names in the text of a directory. -/
def namesOf (data : Bytes) : List Bytes := (tokens data).map (uncode ·.1)

/-- The runs on a directory with distinct names. -/
def crowd (dir : Inum) : System (Crowd κ) (Section κ) where
  init state := (∀ client eid, state.table client eid = none) ∧ state.owner = none ∧
    ∃ listing, Proper dir listing ∧ (listing.map (·.1)).Nodup ∧
      state.server dir = some ⟨.T_DIR, textOf listing⟩
  step := Enters dir

/-- A name that is added is not in the directory that the client reads. -/
def Absent (dir : Inum) (state : Crowd κ) : Section κ → Prop
  | .add client name _ _ _ => ∀ data, Reads (state.table client dir) (state.server dir) data →
    name ∉ namesOf data
  | _ => True

/-- The runs in which every name that is added is absent. -/
def uniquely (dir : Inum) : System (Crowd κ) (Section κ) where
  init := (crowd dir).init
  step state entered next := Absent dir state entered ∧ (crowd dir).step state entered next

end System

section Steps

variable {κ : Type}

/-- The content of the directory is with the owner of its lock, else on the server;
the other clients have no more than its attributes. -/
structure Shared (dir : Inum) (data : Bytes) (state : Crowd κ) : Prop where
  rivals : ∀ client, state.owner ≠ some client → Bare (state.table client dir) ∧
    ∀ entry, state.table client dir = some entry → entry.attr.type = ExtentType.T_DIR.code
  owned : ∀ client, state.owner = some client →
    Holds dir data (state.table client, state.server)
  settled : state.owner = none → (state.server dir).map File.data = some data
  file : (state.server dir).map File.type = some .T_DIR

structure Kept (eid : Inum) (data : Bytes) (state : Crowd κ) : Prop where
  rivals : ∀ client, state.owner ≠ some client → Bare (state.table client eid)
  owned : ∀ client, state.owner = some client →
    Reads (state.table client eid) (state.server eid) data
  settled : state.owner = none → (state.server eid).map File.data = some data
  live : state.server eid ≠ none

structure Typed (dir : Inum) (state : Crowd κ) : Prop where
  entries : ∀ client entry, state.table client dir = some entry →
    entry.attr.type = ExtentType.T_DIR.code
  file : (state.server dir).map File.type = some .T_DIR

variable {dir eid : Inum} {data : Bytes} {state : Crowd κ} {client : κ}

theorem Shared.kept (shared : Shared dir data state) : Kept dir data state where
  rivals client other := (shared.rivals client other).1
  owned client mine := (shared.owned client mine).reads
  settled := shared.settled
  live none := by
    have file := shared.file
    rw [none] at file
    cases file

theorem Shared.typed (shared : Shared dir data state) : Typed dir state where
  entries client entry here := by
    by_cases mine : state.owner = some client
    · exact (shared.owned client mine).typed entry here
    · exact (shared.rivals client mine).2 entry here
  file := shared.file

theorem Kept.shared (kept : Kept dir data state) (typed : Typed dir state) :
    Shared dir data state where
  rivals client other := ⟨kept.rivals client other, typed.entries client⟩
  owned client mine := by
    refine ⟨kept.owned client mine, typed.entries client, fun _ file found => ?_⟩
    have type := typed.file
    rw [show state.server dir = some file from found] at type
    exact Option.some.inj type
  settled := kept.settled
  file := typed.file

theorem Kept.reads (kept : Kept eid data state) (grants : state.Grants client) :
    Reads (state.table client eid) (state.server eid) data := by
  rcases grants with owner | free
  · exact kept.owned client owner
  · exact .inr (.inr ⟨kept.rivals client (by simp [free]), kept.settled free⟩)

theorem Shared.holds (shared : Shared dir data state) (grants : state.Grants client) :
    Holds dir data (state.table client, state.server) := by
  refine ⟨shared.kept.reads grants, shared.typed.entries client, fun _ file found => ?_⟩
  have type := shared.file
  rw [show state.server dir = some file from found] at type
  exact Option.some.inj type

theorem reads_unique {slot : Option Entry} {file : Option File} {one other : Bytes}
    (first : Reads slot file one) (second : Reads slot file other) : one = other := by
  rcases first with ⟨entry, here, kind, rfl⟩ | ⟨entry, here, kind, rfl, _⟩ | ⟨bare, held⟩
  · rcases second with ⟨_, there, _, rfl⟩ | ⟨_, there, _, rfl, _⟩ | ⟨bare, _⟩
    · cases here.symm.trans there
      rfl
    · cases here.symm.trans there
      rfl
    · cases kind.symm.trans (bare entry here)
  · rcases second with ⟨_, there, _, rfl⟩ | ⟨_, there, _, rfl, _⟩ | ⟨bare, _⟩
    · cases here.symm.trans there
      rfl
    · cases here.symm.trans there
      rfl
    · cases kind.symm.trans (bare entry here)
  · rcases second with ⟨entry, there, kind, _⟩ | ⟨entry, there, kind, _⟩ | ⟨_, held'⟩
    · cases kind.symm.trans (bare entry there)
    · cases kind.symm.trans (bare entry there)
    · exact Option.some.inj (held.symm.trans held')

variable [DecidableEq κ]

theorem Crowd.after_self (owner : Option κ) (next : Table × Contents) :
    (state.after client owner next).table client = next.1 := Function.update_self _ _ _

theorem Crowd.after_other (owner : Option κ) (next : Table × Contents) {rival : κ}
    (different : rival ≠ client) :
    (state.after client owner next).table rival = state.table rival :=
  Function.update_of_ne different _ _

theorem Kept.section (kept : Kept eid data state) (grants : state.Grants client)
    {next : Table × Contents} {data' : Bytes} (reads : Reads (next.1 eid) (next.2 eid) data')
    (live : next.2 eid ≠ none) : Kept eid data' (state.after client (some client) next) where
  rivals rival other := by
    have different : rival ≠ client := fun same => other (congrArg some same.symm)
    rw [Crowd.after_other _ _ different]
    apply kept.rivals rival
    rcases grants with owner | free
    · rw [owner]
      exact other
    · simp [free]
  owned owner same := by
    cases same
    rw [Crowd.after_self]
    exact reads
  settled none := by cases none
  live := live

theorem Crowd.after_frame {owner : Option κ} {next : Table × Contents} {other : Inum}
    (frame : Frame other (state.table client, state.server) next) (different : other ≠ eid)
    (rival : κ) : (state.after client owner next).table rival eid = state.table rival eid := by
  by_cases same : rival = client
  · rw [same, Crowd.after_self]
    exact frame.table eid different.symm
  · rw [Crowd.after_other _ _ same]

theorem Kept.elsewhere (kept : Kept eid data state) {next : Table × Contents} {other : Inum}
    (frame : Frame other (state.table client, state.server) next) (different : other ≠ eid) :
    Kept eid data (state.after client state.owner next) := by
  have server : next.2 eid = state.server eid := frame.server eid different.symm
  refine ⟨fun rival other => ?_, fun owner mine => ?_, fun free => ?_, ?_⟩
  · rw [Crowd.after_frame frame different]
    exact kept.rivals rival other
  · rw [Crowd.after_frame frame different, show (state.after client state.owner next).server eid =
      state.server eid from server]
    exact kept.owned owner mine
  · exact (congrArg (Option.map File.data) server).trans (kept.settled free)
  · exact fun gone => kept.live (server.symm.trans gone)

theorem Typed.elsewhere (typed : Typed dir state) {owner : Option κ} {next : Table × Contents}
    {other : Inum} (frame : Frame other (state.table client, state.server) next)
    (different : other ≠ dir) : Typed dir (state.after client owner next) := by
  refine ⟨fun rival entry here => ?_, ?_⟩
  · rw [Crowd.after_frame frame different] at here
    exact typed.entries rival entry here
  · exact (congrArg (Option.map File.type) (frame.server dir different.symm)).trans typed.file

theorem Kept.handOver (kept : Kept eid data state) (owner : state.owner = some client)
    {rpc : Rpc Contents} (steady : Steady rpc) :
    Kept eid data (state.after client none
      (ExtentClientCache.flush rpc eid (state.table client) state.server).1) := by
  obtain ⟨file, found⟩ := Option.ne_none_iff_exists'.mp kept.live
  obtain ⟨ret, ran⟩ :=
    ExtentClientCache.flush_ok steady.toFaithful (kept.owned client owner) kept.live
  rw [ran]
  refine ⟨fun rival _ => ?_, fun other none => (by cases none), fun _ => ?_, ?_⟩
  · by_cases same : rival = client
    · simp only [same, Crowd.after_self, Function.update_self]
      exact bare_none
    · rw [Crowd.after_other _ _ same]
      apply kept.rivals rival
      rw [owner]
      exact fun mine => same (Option.some.inj mine).symm
  · simp [Crowd.after, found]
  · simp [Crowd.after, found]

theorem Shared.section (shared : Shared dir data state) (grants : state.Grants client)
    {next : Table × Contents} {data' : Bytes} (holds : Holds dir data' next)
    (server : next.2 dir = state.server dir) :
    Shared dir data' (state.after client (some client) next) := by
  apply (shared.kept.section grants holds.reads (server ▸ shared.kept.live)).shared
  refine ⟨fun rival entry here => ?_, (congrArg (Option.map File.type) server).trans shared.file⟩
  by_cases same : rival = client
  · rw [same, Crowd.after_self] at here
    exact holds.typed entry here
  · rw [Crowd.after_other _ _ same] at here
    exact shared.typed.entries rival entry here

theorem Shared.elsewhere (shared : Shared dir data state) {next : Table × Contents} {eid : Inum}
    (frame : Frame eid (state.table client, state.server) next) (different : eid ≠ dir) :
    Shared dir data (state.after client state.owner next) :=
  (shared.kept.elsewhere frame different).shared (shared.typed.elsewhere frame different)

theorem Shared.handOver (shared : Shared dir data state) (owner : state.owner = some client)
    {rpc : Rpc Contents} (steady : Steady rpc) :
    Shared dir data (state.after client none
      (ExtentClientCache.flush rpc dir (state.table client) state.server).1) := by
  apply (shared.kept.handOver owner steady).shared
  obtain ⟨frame, erased⟩ := @flush_frame rpc (state.table client) state.server dir steady
    fun _ _ _ => shared.kept.live
  refine ⟨fun rival entry here => ?_, frame.type.trans shared.file⟩
  by_cases same : rival = client
  · rw [same, Crowd.after_self, erased] at here
    cases here
  · rw [Crowd.after_other _ _ same] at here
    exact shared.typed.entries rival entry here

/-- The directory is the text of a listing with distinct names. -/
def Unique (dir : Inum) (state : Crowd κ) : Prop :=
  ∃ listing, Proper dir listing ∧ (listing.map (·.1)).Nodup ∧ Shared dir (textOf listing) state

theorem namesOf_textOf {listing : Listing} (proper : Proper dir listing) :
    namesOf (textOf listing) = listing.map (·.1) := by
  rw [namesOf, tokens_textOf proper.named, List.map_map]
  simp only [Function.comp_def, uncode_encode]

theorem unique_kept {entered : Section κ} {next : Crowd κ} (unique : Unique dir state)
    (absent : Absent dir state entered) (enters : Enters dir state entered next) :
    Unique dir next := by
  obtain ⟨listing, proper, distinct, shared⟩ := unique
  cases enters with
  | @add client name type id rpc contents after ret env inoOut steady grants some made fresh ran =>
    have different : id ≠ dir := by
      rintro rfl
      have file := shared.file
      rw [fresh] at file
      cases file
    have holds := shared.holds grants
    obtain ⟨after', ran', written, added, _⟩ :=
      addfile_section steady.toFaithful env made different holds.reads name inoOut
    cases ran.symm.trans ran'
    refine ⟨listing ++ [(name, id)], proper.apply (show (DirOp.create name id).Fits dir from
      ⟨some, different⟩), ?_, shared.section grants ?_ ?_⟩
    · have new := absent _ holds.reads
      rw [namesOf_textOf proper] at new
      rw [List.map_append, List.map_singleton, ← List.concat_eq_append]
      exact .concat new distinct
    · rw [textOf_append]
      simpa [textOf] using written.holds holds
    · rw [added.server]
      exact Function.update_of_ne different.symm _ _
  | @unlink client name rpc after ret vars env steady grants some ran =>
    have holds := shared.holds grants
    obtain ⟨after', _, _, ran', written, server, _⟩ :=
      unlink_section steady.toFaithful proper holds.reads vars env name
    cases ran.symm.trans ran'
    refine ⟨listing.filter (·.1 ≠ name), proper.apply (show (DirOp.unlink name).Fits dir from some),
      ?_, shared.section grants (written.holds holds) (congrFun server dir)⟩
    exact distinct.sublist (List.Sublist.map _ List.filter_sublist)
  | @elsewhere client op eid rpc env steady extent different live =>
    obtain ⟨frame, _⟩ := @handle_frame rpc (state.table client) state.server eid steady env op
      extent (fun _ _ => live) fun _ _ _ => live
    exact ⟨listing, proper, distinct, shared.elsewhere frame different⟩
  | @handOver client rpc after ret steady owner ran =>
    have flushed := shared.handOver owner steady
    rw [ran] at flushed
    exact ⟨listing, proper, distinct, flushed⟩

theorem unique_of_reachable (reachable : Reachable (uniquely dir) state) : Unique dir state := by
  refine @Reachable.invariant _ _ _ (Unique dir) ?_ ?_ _ reachable
  · rintro state ⟨tables, free, listing, proper, distinct, found⟩
    refine ⟨listing, proper, distinct, fun client _ => ?_, fun client owner => ?_, fun _ => ?_, ?_⟩
    · rw [tables]
      exact ⟨bare_none, fun entry none => by cases none⟩
    · cases free.symm.trans owner
    · rw [found, Option.map_some]
    · rw [found, Option.map_some]
  · exact fun state entered next unique step => unique_kept unique step.1 step.2

/-- Every client that is granted the lock reads a directory with distinct names. -/
theorem names_distinct (reachable : Reachable (uniquely dir) state) (grants : state.Grants client)
    {rpc : Rpc Contents} (faithful : Faithful rpc) (env : Ambient) (buf : Bytes) :
    ∃ next data, handle rpc env (.get dir buf) (state.table client, state.server) =
      (next, .OK, data) ∧ (namesOf data).Nodup := by
  obtain ⟨listing, proper, distinct, shared⟩ := unique_of_reachable reachable
  obtain ⟨next, got, _⟩ := get_holds faithful env buf (shared.holds grants)
  refine ⟨next, _, got, ?_⟩
  rwa [namesOf_textOf proper]

end Steps

theorem names_distinct_added : ∃ (state : Crowd Bool) (next : Table × Contents) (data : Bytes),
    Reachable (uniquely 1) state ∧ state.owner = none ∧
    handle (plain 4) ⟨0, ⟨0, 0, 0, 0, 0⟩⟩ (.get 1 []) (state.table false, state.server) =
      (next, .OK, data) ∧ data = textOf [([97], 2), ([98], 3)] ∧ (namesOf data).Nodup := by
  let env : Ambient := ⟨0, ⟨0, 0, 0, 0, 0⟩⟩
  let contents : Contents := fun id => if id = 1 then some ⟨.T_DIR, []⟩ else none
  have begins : Reachable (uniquely 1) (⟨fun _ _ => none, contents, none⟩ : Crowd Bool) :=
    ⟨[], .start ⟨fun _ _ => rfl, rfl, [], by simp [Proper], by simp, rfl⟩⟩
  have absent : Absent 1 (⟨fun _ _ => none, contents, none⟩ : Crowd Bool)
      (.add false [97] .T_FILE 2 Result.OK) := by
    intro data reads
    have empty : [] = data := reads_unique (.inr (.inr ⟨bare_none, rfl⟩)) reads
    rw [← empty, show [] = textOf [] from rfl, @namesOf_textOf 1 [] (by simp [Proper])]
    simp
  have first := begins.extend (show (uniquely 1).step _ (.add false [97] .T_FILE 2 Result.OK) _ from
    ⟨absent, .add env 0 (steady_plain 2) (.inr rfl) (by simp) rfl rfl rfl⟩)
  have handed := first.extend (show (uniquely 1).step _ (.handOver false) _ from
    ⟨trivial, .handOver (steady_plain 3) rfl rfl⟩)
  have second := handed.extend (show (uniquely 1).step _ (.add true [98] .T_FILE 3 Result.OK) _ from by
    refine ⟨fun data reads => ?_, .add env 0 (steady_plain 3) (.inr rfl) (by simp) rfl rfl rfl⟩
    have one : textOf [([97], 2)] = data := reads_unique (.inr (.inr ⟨bare_none, rfl⟩)) reads
    rw [← one, @namesOf_textOf 1 _ (by simp [Proper])]
    simp)
  have last := second.extend (show (uniquely 1).step _ (.handOver true) _ from
    ⟨trivial, .handOver (steady_plain 3) rfl rfl⟩)
  obtain ⟨next, data, got, distinct⟩ := names_distinct last (@Or.inr (_ = some false) _ rfl)
    (faithful_plain 4) env []
  refine ⟨_, next, data, last, rfl, got, ?_, distinct⟩
  exact (congrArg (fun result => result.2.2) got).symm

/-- Two clients see a name absent and add it; both are answered OK, and it is there
twice. -/
theorem name_twice : ∃ (state : Crowd Bool) (next : Table × Contents) (data : Bytes),
    Run (crowd 1) [.add false [97] .T_FILE 2 Result.OK, .handOver false,
      .add true [97] .T_FILE 3 Result.OK] state ∧
    handle (plain 4) ⟨0, ⟨0, 0, 0, 0, 0⟩⟩ (.get 1 []) (state.table true, state.server) =
      (next, .OK, data) ∧ ¬ (namesOf data).Nodup := by
  let env : Ambient := ⟨0, ⟨0, 0, 0, 0, 0⟩⟩
  let contents : Contents := fun id => if id = 1 then some ⟨.T_DIR, []⟩ else none
  have begins : Run (crowd 1) [] (⟨fun _ _ => none, contents, none⟩ : Crowd Bool) :=
    .start ⟨fun _ _ => rfl, rfl, [], by simp [Proper], by simp, rfl⟩
  have first := begins.extend (show (crowd 1).step _ (.add false [97] .T_FILE 2 Result.OK) _ from
    .add env 0 (steady_plain 2) (.inr rfl) (by simp) rfl rfl rfl)
  have handed := first.extend (show (crowd 1).step _ (.handOver false) _ from
    .handOver (steady_plain 3) rfl rfl)
  have second := handed.extend (show (crowd 1).step _ (.add true [97] .T_FILE 3 Result.OK) _ from
    .add env 0 (steady_plain 3) (.inr rfl) (by simp) rfl rfl rfl)
  refine ⟨_, _, textOf [([97], 2), ([97], 3)], second, rfl, ?_⟩
  rw [@namesOf_textOf 1 _ (by simp [Proper])]
  simp

end NaiveFileSystem.Yfs
