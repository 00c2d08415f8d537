import NaiveFileSystem.Yfs.Names

/-!
# Symbolic links between their two halves

One client makes a symbolic link: it adds the name under the lock of the directory, and
writes the target under the lock of the new extent. All clients look the name up and
read the link meanwhile, each section in one step. The name is there before the
target is, so a client that reads the link in between finds it empty.
-/

namespace NaiveFileSystem.Yfs

open Extent Cache Transition Program YfsClient

/-- The second half of `symlink`. -/
def writeLink (ino : Inum) (link : Bytes) : Action Unit := do
  call (.acquire ino)
  let _ ← call (.put ino link)
  let _ ← call (.flush ino)
  call (.release ino)

theorem symlink_eq (parent : Inum) (link name : Bytes) (ino : Inum) :
    symlink parent link name ino = (do
      let (r, ino) ← addfile parent name ino .T_SYMLK
      writeLink ino link
      return (r, ino)) := rfl

structure Symlink (κ : Type) where
  client : κ
  parent : Inum
  link : Bytes
  name : Bytes
  named : name ≠ []

inductive Stage
  | missing
  | named (id : Inum)
  | linked (id : Inum)

def Stage.inum : Stage → Option Inum
  | missing => none
  | named id | linked id => some id

def Stage.content (link : Bytes) : Stage → Bytes
  | missing | named _ => []
  | linked _ => link

structure Linking (κ : Type) where
  table : κ → Table
  server : Contents
  owner : Inum → Option κ
  stage : Stage

/-- A `lookup` or a `readdir` is of the directory of the link. -/
inductive Visit (κ : Type)
  | name (id : Inum)
  | link (id : Inum)
  | lookup (client : κ) (name : Bytes) (answer : ℤ × Bool × Inum)
  | readdir (client : κ) (answer : ℤ × List Dirent)
  | readlink (client : κ) (ino : Inum) (answer : ℤ × Bytes)
  | elsewhere (client : κ) (op : Op)
  | handOver (client : κ) (lid : Inum)

def Linking.at {κ : Type} (state : Linking κ) (eid : Inum) : Crowd κ :=
  ⟨state.table, state.server, state.owner eid⟩

section System

variable {κ : Type} [DecidableEq κ]

def Linking.enter (state : Linking κ) (client : κ) (lid : Inum) (owner : Option κ)
    (next : Table × Contents) : Linking κ where
  table := Function.update state.table client next.1
  server := next.2
  owner := Function.update state.owner lid owner
  stage := state.stage

inductive Visits (symlink : Symlink κ) : Linking κ → Visit κ → Linking κ → Prop
  | name {state id rpc contents next ret} (env : Ambient) (ino : Inum) : Steady rpc →
      state.stage = .missing → (state.at symlink.parent).Grants symlink.client →
      rpc.create state.server (ExtentType.code .T_SYMLK) = (contents, .OK, some id) →
      state.server id = none →
      (addfile symlink.parent symlink.name ino .T_SYMLK).run (handle rpc env)
        (state.table symlink.client, state.server) = (next, ret, id) →
      Visits symlink state (.name id)
        { state.enter symlink.client symlink.parent (some symlink.client) next with
          stage := .named id }
  | link {state id rpc next} (env : Ambient) : Steady rpc → state.stage = .named id →
      (state.at id).Grants symlink.client →
      (writeLink id symlink.link).run (handle rpc env) (state.table symlink.client, state.server) =
        (next, ()) →
      Visits symlink state (.link id)
        { state.enter symlink.client id (some symlink.client) next with stage := .linked id }
  | lookup {state client name rpc next answer} (vars : Locals) (env : Ambient) (found : Bool)
      (inoOut : Inum) : Steady rpc → (state.at symlink.parent).Grants client →
      (lookup vars symlink.parent name found inoOut).run (handle rpc env)
        (state.table client, state.server) = (next, answer) →
      Visits symlink state (.lookup client name answer)
        (state.enter client symlink.parent (some client) next)
  | readdir {state client rpc next answer} (vars : Locals) (env : Ambient) : Steady rpc →
      (state.at symlink.parent).Grants client →
      (readdir vars symlink.parent []).run (handle rpc env) (state.table client, state.server) =
        (next, answer) →
      Visits symlink state (.readdir client answer)
        (state.enter client symlink.parent (some client) next)
  | readlink {state client ino rpc next answer} (env : Ambient) (result : Bytes) : Steady rpc →
      state.server ino ≠ none → (state.at ino).Grants client →
      (readlink ino result).run (handle rpc env) (state.table client, state.server) =
        (next, answer) →
      Visits symlink state (.readlink client ino answer) (state.enter client ino (some client) next)
  | elsewhere {state client op eid rpc} (env : Ambient) : Steady rpc → op.extent = some eid →
      state.server eid ≠ none → eid ≠ symlink.parent → state.stage.inum ≠ some eid →
      Visits symlink state (.elsewhere client op) (state.enter client eid (state.owner eid)
        (handle rpc env op (state.table client, state.server)).1)
  | handOver {state client lid rpc next ret} : Steady rpc → state.owner lid = some client →
      ExtentClientCache.flush rpc lid (state.table client) state.server = (next, ret) →
      Visits symlink state (.handOver client lid) (state.enter client lid none next)

/-- The call of `symlink` among any other visits of the directory and of links. -/
def linking (symlink : Symlink κ) : System (Linking κ) (Visit κ) where
  init state := (∀ client eid, state.table client eid = none) ∧ (∀ lid, state.owner lid = none) ∧
    state.stage = .missing ∧ ∃ listing, Proper symlink.parent listing ∧
      state.server symlink.parent = some ⟨.T_DIR, textOf listing⟩
  step := Visits symlink

/-- Nobody reads the link between its two halves, unless it is empty. -/
def Linking.Careful (symlink : Symlink κ) (state : Linking κ) : Visit κ → Prop
  | .readlink _ ino _ => state.stage = .named ino → symlink.link = []
  | _ => True

/-- The name is absent at first, and nobody reads the link between its two halves. -/
def linkingCarefully (symlink : Symlink κ) : System (Linking κ) (Visit κ) where
  init state := (linking symlink).init state ∧
    ∀ file, state.server symlink.parent = some file → symlink.name ∉ namesOf file.data
  step state visit next := state.Careful symlink visit ∧ Visits symlink state visit next

def Visit.Shows (name : Bytes) (ino : Inum) : Visit κ → Prop
  | .lookup _ asked (_, found, inoOut) => asked = name ∧ found = true ∧ inoOut = ino
  | .readdir _ (_, list) => ⟨name, ino⟩ ∈ list
  | _ => False

end System

section Sections

variable {rpc : Rpc Contents} {state : Table × Contents} {eid : Inum} {data : Bytes}

theorem readlink_ok (faithful : Faithful rpc) (env : Ambient) (result : Bytes)
    (reads : Reads (state.1 eid) (state.2 eid) data) :
    ∃ next, (readlink eid result).run (handle rpc env) state = (next, Result.OK, data) ∧
      Rewrites eid data state next ∧ OnlyAt eid state next := by
  obtain ⟨next, got, rewrites, _, only⟩ := get_rewrites faithful env result reads
  refine ⟨next, ?_, rewrites, only⟩
  simp only [readlink, perform_bind]
  rw [run_call_of (handle_acquire ..), run_call_of got, run_call_of (handle_release ..)]
  rfl

theorem writeLink_ok (faithful : Faithful rpc) (env : Ambient) (link : Bytes)
    (reads : Reads (state.1 eid) (state.2 eid) data) (live : state.2 eid ≠ none) :
    ∃ next, (writeLink eid link).run (handle rpc env) state = (next, ()) ∧ Frame eid state next ∧
      Reads (next.1 eid) (next.2 eid) link := by
  obtain ⟨linked, next, ret, put, flush, others, erased, written⟩ :=
    putFlush_other faithful env link reads.not_removed live
  obtain ⟨file, found⟩ := Option.ne_none_iff_exists'.mp live
  refine ⟨next, ?_, ⟨fun other different => (others other different).1,
    fun other different => (others other different).2, ?_⟩, .inr (.inr ⟨?_, ?_⟩)⟩
  · simp only [writeLink, perform_bind]
    rw [run_call_of (handle_acquire ..), run_call_of put, run_call_of flush]
    rfl
  · simp [written, found]
  · rw [erased]
    exact bare_none
  · simp [written, found]

end Sections

section Steps

variable {κ : Type} {symlink : Symlink κ} {listing : Listing} {trace : List (Visit κ)}
  {state : Linking κ}

/-- Both halves are where they should be: the directory has the listing, where the name
stands for the new extent alone, and that has the content of its stage. -/
structure Published (symlink : Symlink κ) (listing : Listing) (trace : List (Visit κ))
    (state : Linking κ) : Prop where
  unknown : ∀ eid, state.server eid = none →
    state.owner eid = none ∧ ∀ client, state.table client eid = none
  proper : Proper symlink.parent listing
  directory : Shared symlink.parent (textOf listing) (state.at symlink.parent)
  shown : ∀ visit ∈ trace, ∀ ino, visit.Shows symlink.name ino → (symlink.name, ino) ∈ listing
  single : ∀ ino, (symlink.name, ino) ∈ listing → state.stage.inum = some ino
  apart : state.stage.inum ≠ some symlink.parent
  target : ∀ id, state.stage.inum = some id →
    Kept id (state.stage.content symlink.link) (state.at id)

theorem Published.live (published : Published symlink listing trace state) :
    state.server symlink.parent ≠ none := published.directory.kept.live

theorem shown_append {name : Bytes} (shown : ∀ visit ∈ trace, ∀ ino, visit.Shows name ino →
      (name, ino) ∈ listing) {visit : Visit κ}
    (shows : ∀ ino, visit.Shows name ino → (name, ino) ∈ listing) :
    ∀ other ∈ trace ++ [visit], ∀ ino, other.Shows name ino → (name, ino) ∈ listing := by
  intro other member ino returned
  rcases List.mem_append.mp member with earlier | last
  · exact shown other earlier ino returned
  · rw [List.mem_singleton.mp last] at returned
    exact shows ino returned

variable [DecidableEq κ] {client : κ} {lid eid : Inum} {owner : Option κ} {next : Table × Contents}
  {visit : Visit κ}

theorem Linking.enter_at_self :
    (state.enter client lid owner next).at lid = (state.at lid).after client owner next := by
  simp only [Linking.at, Linking.enter, Crowd.after, Function.update_self]

theorem Linking.enter_at_other (different : eid ≠ lid) :
    (state.enter client lid owner next).at eid =
      (state.at eid).after client (state.at eid).owner next := by
  simp only [Linking.at, Linking.enter, Crowd.after, Function.update_of_ne different]

theorem Published.unknown_enter (published : Published symlink listing trace state)
    (frame : Frame lid (state.table client, state.server) next) (live : state.server lid ≠ none)
    (missing : next.2 eid = none) : (state.enter client lid owner next).owner eid = none ∧
      ∀ other, (state.enter client lid owner next).table other eid = none := by
  have different : eid ≠ lid := by
    rintro rfl
    exact frame.live live missing
  obtain ⟨free, absent⟩ := published.unknown eid ((frame.server eid different).symm.trans missing)
  refine ⟨(Function.update_of_ne different _ _).trans free, fun other => ?_⟩
  have same := @Crowd.after_frame κ eid (state.at eid) client _ owner next lid frame
    different.symm other
  exact same.trans (absent other)

theorem Published.enter (published : Published symlink listing trace state)
    (frame : Frame lid (state.table client, state.server) next) (live : state.server lid ≠ none)
    (shows : ∀ ino, visit.Shows symlink.name ino → (symlink.name, ino) ∈ listing)
    (shared : lid = symlink.parent →
      Shared lid (textOf listing) ((state.at lid).after client owner next))
    (kept : state.stage.inum = some lid → Kept lid (state.stage.content symlink.link)
      ((state.at lid).after client owner next)) :
    Published symlink listing (trace ++ [visit]) (state.enter client lid owner next) where
  unknown _ missing := published.unknown_enter frame live missing
  proper := published.proper
  directory := by
    by_cases same : lid = symlink.parent
    · rw [← same, Linking.enter_at_self]
      exact shared same
    · rw [Linking.enter_at_other (Ne.symm same)]
      exact published.directory.elsewhere frame same
  shown := shown_append published.shown shows
  single := published.single
  apart := published.apart
  target id made := by
    by_cases same : lid = id
    · subst same
      rw [Linking.enter_at_self]
      exact kept made
    · rw [Linking.enter_at_other (Ne.symm same)]
      exact (published.target id made).elsewhere frame same

theorem Published.look (published : Published symlink listing trace state)
    (grants : (state.at symlink.parent).Grants client)
    (holds : Holds symlink.parent (textOf listing) next)
    (only : OnlyAt symlink.parent (state.table client, state.server) next)
    (shows : ∀ ino, visit.Shows symlink.name ino → (symlink.name, ino) ∈ listing) :
    Published symlink listing (trace ++ [visit])
      (state.enter client symlink.parent (some client) next) := by
  apply published.enter only.frame published.live shows
  · intro _
    exact published.directory.section grants holds (congrFun only.server _)
  · intro made
    exact absurd made published.apart

theorem Published.readlink (published : Published symlink listing trace state) {rpc : Rpc Contents}
    (steady : Steady rpc) (env : Ambient) {result : Bytes} (live : state.server lid ≠ none)
    (grants : (state.at lid).Grants client) {answer : ℤ × Bytes}
    (ran : (readlink lid result).run (handle rpc env) (state.table client, state.server) =
      (next, answer)) :
    Published symlink listing (trace ++ [.readlink client lid answer])
      (state.enter client lid (some client) next) := by
  have reached : next = (handle rpc env (.get lid result) (state.table client, state.server)).1 :=
    (congrArg Prod.fst ran).symm
  obtain ⟨frame, _⟩ := @handle_frame rpc (state.table client) state.server lid steady env
    (.get lid result) rfl (fun _ _ => live) fun _ _ _ => live
  rw [← reached] at frame
  apply published.enter frame live
  · rintro ino ⟨⟩
  · rintro rfl
    obtain ⟨after, ran', rewrites, only⟩ := @readlink_ok rpc (state.table client, state.server) _ _
      steady.toFaithful env result (published.directory.kept.reads grants)
    cases ran.symm.trans ran'
    exact published.directory.section grants (rewrites.holds (published.directory.holds grants))
      (congrFun only.server _)
  · intro made
    have there := published.target lid made
    obtain ⟨after, ran', rewrites, only⟩ := @readlink_ok rpc (state.table client, state.server) _ _
      steady.toFaithful env result (there.reads grants)
    cases ran.symm.trans ran'
    exact there.section grants rewrites.reads (by rw [only.server]; exact live)

theorem Published.name (published : Published symlink listing trace state) {rpc : Rpc Contents}
    (steady : Steady rpc) (env : Ambient) {ino id : Inum} {contents : Contents} {ret : ℤ}
    (missing : state.stage = .missing) (grants : (state.at symlink.parent).Grants symlink.client)
    (made : rpc.create state.server (ExtentType.code .T_SYMLK) = (contents, .OK, some id))
    (fresh : state.server id = none)
    (ran : (addfile symlink.parent symlink.name ino .T_SYMLK).run (handle rpc env)
      (state.table symlink.client, state.server) = (next, ret, id)) :
    Published symlink (listing ++ [(symlink.name, id)]) (trace ++ [.name id])
      { state.enter symlink.client symlink.parent (some symlink.client) next with
        stage := .named id } := by
  have different : id ≠ symlink.parent := by
    rintro rfl
    exact published.live fresh
  obtain ⟨free, unheld⟩ := published.unknown id fresh
  have holds := published.directory.holds grants
  obtain ⟨after, ran', written, added, _⟩ :=
    addfile_section steady.toFaithful env made different holds.reads symlink.name ino
  cases ran.symm.trans ran'
  have server : ∀ eid, eid ≠ id → next.2 eid = state.server eid := by
    intro eid other
    rw [added.server]
    exact Function.update_of_ne other _ _
  have created : next.2 id = some ⟨.T_SYMLK, []⟩ := by
    rw [added.server]
    exact Function.update_self _ _ _
  have directory : Shared symlink.parent (textOf (listing ++ [(symlink.name, id)]))
      ((state.at symlink.parent).after symlink.client (some symlink.client) next) := by
    apply published.directory.section grants _ (server _ different.symm)
    rw [textOf_append]
    simpa [textOf] using written.holds holds
  constructor
  · intro eid none
    have old : eid ≠ id := by
      rintro rfl
      cases created.symm.trans none
    have before : state.server eid = Option.none := (server eid old).symm.trans none
    have elsewhere : eid ≠ symlink.parent := by
      rintro rfl
      exact published.live before
    obtain ⟨noOwner, absent⟩ := published.unknown eid before
    refine ⟨(Function.update_of_ne elsewhere _ _).trans noOwner, fun other => ?_⟩
    by_cases same : other = symlink.client
    · subst same
      refine (congrFun (Function.update_self _ _ _) eid).trans ?_
      rw [added.table eid elsewhere, ExtentClientCache.recordCreated_of_ne env _ old]
      exact absent _
    · exact (congrFun (Function.update_of_ne same _ _) eid).trans (absent other)
  · exact published.proper.apply (show (DirOp.symlink symlink.link symlink.name id).Fits _ from
      ⟨symlink.named, different⟩)
  · rw [← Linking.enter_at_self] at directory
    exact directory
  · refine shown_append (fun visit member ino shows => ?_) fun ino shows => (by cases shows)
    exact List.mem_append_left _ (published.shown visit member ino shows)
  · intro other member
    rcases List.mem_append.mp member with old | new
    · have inum := published.single other old
      rw [missing] at inum
      cases inum
    · cases List.mem_singleton.mp new
      rfl
  · rintro ⟨⟩
    exact different rfl
  · rintro other ⟨⟩
    have bare : ∀ client, Bare (Function.update state.table symlink.client next.1 client id) := by
      intro client
      by_cases same : client = symlink.client
      · rw [same, Function.update_self, added.table id different]
        exact ExtentClientCache.bare_recordCreated env _ id
      · rw [Function.update_of_ne same, unheld]
        exact bare_none
    have empty : (next.2 id).map File.data = some [] := by
      rw [created, Option.map_some]
    exact ⟨fun client _ => bare client, fun client _ => .inr (.inr ⟨bare client, empty⟩),
      fun _ => empty, fun none => (by cases created.symm.trans none)⟩

theorem Published.link (published : Published symlink listing trace state) {rpc : Rpc Contents}
    (steady : Steady rpc) (env : Ambient) {id : Inum} (named : state.stage = .named id)
    (grants : (state.at id).Grants symlink.client)
    (ran : (writeLink id symlink.link).run (handle rpc env)
      (state.table symlink.client, state.server) = (next, ())) :
    Published symlink listing (trace ++ [.link id])
      { state.enter symlink.client id (some symlink.client) next with stage := .linked id } := by
  have made : state.stage.inum = some id := by rw [named, Stage.inum]
  have there := published.target id made
  obtain ⟨after, ran', frame, reads⟩ := @writeLink_ok rpc (state.table symlink.client, state.server)
    id _ steady.toFaithful env symlink.link (there.reads grants) there.live
  cases ran.symm.trans ran'
  have different : id ≠ symlink.parent :=
    fun same => published.apart (made.trans (congrArg some same))
  constructor
  · exact fun eid none => published.unknown_enter frame there.live none
  · exact published.proper
  · have directory := published.directory.elsewhere frame different
    rw [← Linking.enter_at_other different.symm] at directory
    exact directory
  · exact shown_append published.shown fun ino shows => (by cases shows)
  · exact fun ino member => made.symm.trans (published.single ino member) ▸ rfl
  · exact fun same => published.apart (made.trans same)
  · rintro other ⟨⟩
    have target := there.section grants reads (frame.live there.live)
    rw [← Linking.enter_at_self] at target
    exact target

theorem Published.kept (published : Published symlink listing trace state) {after : Linking κ}
    (visits : Visits symlink state visit after) :
    ∃ listing', Published symlink listing' (trace ++ [visit]) after := by
  cases visits with
  | name env ino steady missing grants made fresh ran =>
    exact ⟨_, published.name steady env missing grants made fresh ran⟩
  | link env steady named grants ran =>
    exact ⟨listing, published.link steady env named grants ran⟩
  | @lookup client name rpc next answer vars env found inoOut steady grants ran =>
    obtain ⟨after, ran', holds, only⟩ := lookup_ok steady.toFaithful published.proper
      (published.directory.holds grants) vars env name found inoOut
    cases ran.symm.trans ran'
    refine ⟨listing, published.look grants holds only fun ino shows => ?_⟩
    cases hit : listing.find? (·.1 = name) with
    | none =>
      rw [hit] at shows
      cases shows.2.1
    | some entry =>
      rw [hit] at shows
      obtain ⟨asked, _, rfl⟩ := shows
      have same : entry.1 = name := by simpa using List.find?_some hit
      rw [← asked, ← same]
      exact List.mem_of_find?_eq_some hit
  | @readdir client rpc next answer vars env steady grants ran =>
    obtain ⟨after, ran', holds, only⟩ := readdir_ok steady.toFaithful published.proper
      (published.directory.holds grants) vars env []
    cases ran.symm.trans ran'
    refine ⟨listing, published.look grants holds only fun ino shows => ?_⟩
    obtain ⟨entry, member, same⟩ := List.mem_map.mp shows
    have listed : entry = (symlink.name, ino) :=
      Prod.ext (congrArg Dirent.name same) (congrArg Dirent.inum same)
    rw [← listed]
    exact member
  | readlink env result steady live grants ran =>
    exact ⟨listing, published.readlink steady env live grants ran⟩
  | @elsewhere client op eid rpc env steady extent live different untouched =>
    obtain ⟨frame, _⟩ := @handle_frame rpc (state.table client) state.server eid steady env op
      extent (fun _ _ => live) fun _ _ _ => live
    refine ⟨listing, published.enter frame live ?_ (fun same => absurd same different)
      fun made => absurd made untouched⟩
    rintro ino ⟨⟩
  | @handOver client lid rpc next ret steady owner ran =>
    have live : state.server lid ≠ none := by
      intro gone
      cases owner.symm.trans (published.unknown lid gone).1
    have reached : (ExtentClientCache.flush rpc lid (state.table client) state.server).1 = next :=
      congrArg Prod.fst ran
    obtain ⟨frame, _⟩ := @flush_frame rpc (state.table client) state.server lid steady
      fun _ _ _ => live
    rw [reached] at frame
    refine ⟨listing, published.enter frame live ?_ ?_ fun made => ?_⟩
    · rintro ino ⟨⟩
    · rintro rfl
      have flushed := published.directory.handOver owner steady
      rwa [show (ExtentClientCache.flush rpc symlink.parent ((state.at symlink.parent).table client)
        (state.at symlink.parent).server).1 = next from reached] at flushed
    · have flushed := (published.target lid made).handOver owner steady
      rwa [show (ExtentClientCache.flush rpc lid ((state.at lid).table client)
        (state.at lid).server).1 = next from reached] at flushed

theorem published_of_run (run : Run (linkingCarefully symlink) trace state) :
    ∃ listing, Published symlink listing trace state := by
  refine @Run.invariant _ _ (linkingCarefully symlink)
    (fun trace state => ∃ listing, Published symlink listing trace state) ?_ ?_ _ _ run
  · rintro state ⟨⟨tables, owners, missing, listing, proper, found⟩, absent⟩
    refine ⟨listing, fun eid _ => ⟨owners eid, fun client => tables client eid⟩, proper,
      ⟨fun client _ => ?_, fun client owner => ?_, fun _ => ?_, ?_⟩, by simp, fun ino member => ?_,
      by simp [missing, Stage.inum], by simp [missing, Stage.inum]⟩
    · simp only [Linking.at, tables]
      exact ⟨bare_none, fun entry none => by cases none⟩
    · cases (owners symlink.parent).symm.trans owner
    · simp only [Linking.at, found, Option.map_some]
    · simp only [Linking.at, found, Option.map_some]
    · have names := absent _ found
      rw [namesOf_textOf proper] at names
      exact absurd (List.mem_map.mpr ⟨_, member, rfl⟩) names
  · rintro trace state visit next ⟨listing, published⟩ ⟨_, visits⟩
    exact published.kept visits

/-- A link that some client was shown under its name reads as its target, if and only
if it is not read between the two halves. -/
theorem link_shown_whole (run : Run (linkingCarefully symlink) trace state) {ino : Inum}
    (shown : ∃ visit ∈ trace, visit.Shows symlink.name ino) {client : κ} {answer : ℤ × Bytes}
    {after : Linking κ} (visits : Visits symlink state (.readlink client ino answer) after) :
    answer = (Result.OK, symlink.link) ↔
      state.Careful symlink (.readlink client ino answer) := by
  obtain ⟨listing, published⟩ := published_of_run run
  obtain ⟨visit, member, shows⟩ := shown
  have made := published.single ino (published.shown visit member ino shows)
  have kept := published.target ino made
  cases visits with
  | @readlink _ _ rpc next _ env result steady live grants ran =>
    obtain ⟨_, ran', _⟩ := @readlink_ok rpc (state.table client, state.server) ino _
      steady.toFaithful env result (kept.reads grants)
    cases ran.symm.trans ran'
    cases stage : state.stage with
    | missing =>
      rw [stage] at made
      cases made
    | named id =>
      rw [stage] at made
      cases made
      simp [Linking.Careful, stage, Stage.content, eq_comm]
    | linked id => simp [Linking.Careful, stage, Stage.content]

end Steps

/-- A link `a` to `t` in the root directory, which is empty. -/
def linkToT : Symlink Bool := ⟨false, 1, [116], [97], by simp⟩

def bareRoot : Linking Bool where
  table _ _ := none
  server id := if id = 1 then some ⟨.T_DIR, []⟩ else none
  owner _ := none
  stage := .missing

theorem bareRoot_init : (linking linkToT).init bareRoot :=
  ⟨fun _ _ => rfl, fun _ => rfl, rfl, [], by simp [Proper], rfl⟩

theorem read_by_name {system : System (Linking Bool) (Visit Bool)} {trace : List (Visit Bool)}
    {state : Linking Bool} {data : Bytes} (run : Run system trace state)
    (may : ∀ after, Visits linkToT state (.lookup true [97] (Result.OK, true, 2)) after →
      system.step state (.lookup true [97] (Result.OK, true, 2)) after)
    (free : state.owner 1 = none ∧ state.owner 2 = none)
    (absent : ∀ eid, state.table true eid = none)
    (directory : state.server 1 = some ⟨.T_DIR, textOf [([97], 2)]⟩)
    (target : state.server 2 = some ⟨.T_SYMLK, data⟩) :
    ∃ trace' later after, Run system trace' later ∧
      (∃ visit ∈ trace', visit.Shows linkToT.name 2) ∧ later.stage = state.stage ∧
      Visits linkToT later (.readlink true 2 (Result.OK, data)) after := by
  let env : Ambient := ⟨0, ⟨0, 0, 0, 0, 0⟩⟩
  have bare : ∀ eid, Bare (state.table true eid) := fun eid => absent eid ▸ bare_none
  have holds : Holds 1 (textOf [([97], 2)]) (state.table true, state.server) := by
    refine ⟨.inr (.inr ⟨bare 1, congrArg (Option.map File.data) directory⟩),
      fun entry here => ?_, fun _ file here => ?_⟩
    · cases (absent 1).symm.trans here
    · cases directory.symm.trans here
      rfl
  obtain ⟨next, looked, _, only⟩ := lookup_ok (faithful_plain 3) (by simp [Proper]) holds
    ⟨⟨0, 0, 0, 0, 0⟩, 0⟩ env [97] false 0
  have looks := run.extend (may _
    (.lookup _ env false 0 (steady_plain 3) (.inr free.1) looked))
  have reads : Reads (next.1 2) (next.2 2) data := by
    rw [only.table 2 (by decide), only.server]
    exact .inr (.inr ⟨bare 2, congrArg (Option.map File.data) target⟩)
  obtain ⟨last, read, _⟩ := readlink_ok (faithful_plain 3) env [] reads
  have live : next.2 2 ≠ none := by
    rw [only.server]
    exact fun gone => by cases target.symm.trans gone
  exact ⟨_, _, _, looks, ⟨_, List.mem_append_right _ (List.mem_singleton_self _), rfl, rfl, rfl⟩,
    rfl, .readlink env [] (steady_plain 3) live (.inr free.2) read⟩

theorem link_shown_whole_after : ∃ (state after : Linking Bool) (answer : ℤ × Bytes),
    Visits linkToT state (.readlink true 2 answer) after ∧ answer = (Result.OK, [116]) := by
  let env : Ambient := ⟨0, ⟨0, 0, 0, 0, 0⟩⟩
  have begins : Run (linkingCarefully linkToT) [] bareRoot := by
    refine .start ⟨bareRoot_init, ?_⟩
    rintro file ⟨⟩
    have empty : namesOf (textOf []) = [] := @namesOf_textOf 1 [] (by simp [Proper])
    exact empty ▸ List.not_mem_nil
  have named := begins.extend (show (linkingCarefully linkToT).step _ (.name 2) _ from
    ⟨trivial, .name env 0 (steady_plain 2) rfl (.inr rfl) rfl rfl rfl⟩)
  have linked := named.extend (show (linkingCarefully linkToT).step _ (.link 2) _ from
    ⟨trivial, .link env (steady_plain 3) rfl (.inr rfl) rfl⟩)
  have handed := linked.extend (show (linkingCarefully linkToT).step _ (.handOver false 1) _ from
    ⟨trivial, .handOver (steady_plain 3) rfl rfl⟩)
  have free := handed.extend (show (linkingCarefully linkToT).step _ (.handOver false 2) _ from
    ⟨trivial, .handOver (steady_plain 3) rfl rfl⟩)
  obtain ⟨trace, later, after, run, shown, stage, reads⟩ := @read_by_name _ _ _ [116] free
    (fun _ looks => ⟨trivial, looks⟩) ⟨rfl, rfl⟩ (fun _ => rfl) rfl rfl
  refine ⟨later, after, _, reads, (link_shown_whole run shown reads).mpr fun named => ?_⟩
  rw [stage] at named
  cases named

/-- The other client looks the name up and reads the link before its target is there. -/
theorem link_shown_empty :
    ¬ ∀ (symlink : Symlink Bool) (trace : List (Visit Bool)) (state : Linking Bool),
      Run (linking symlink) trace state → ∀ ino, (∃ visit ∈ trace, visit.Shows symlink.name ino) →
      ∀ client answer after, Visits symlink state (.readlink client ino answer) after →
        answer = (Result.OK, symlink.link) := by
  intro whole
  let env : Ambient := ⟨0, ⟨0, 0, 0, 0, 0⟩⟩
  have begins : Run (linking linkToT) [] bareRoot := .start bareRoot_init
  have named := begins.extend (show (linking linkToT).step _ (.name 2) _ from
    .name env 0 (steady_plain 2) rfl (.inr rfl) rfl rfl rfl)
  have handed := named.extend (show (linking linkToT).step _ (.handOver false 1) _ from
    .handOver (steady_plain 3) rfl rfl)
  obtain ⟨trace, later, after, run, shown, _, reads⟩ := @read_by_name _ _ _ [] handed
    (fun _ looks => looks) ⟨rfl, rfl⟩ (fun _ => rfl) rfl rfl
  cases whole linkToT trace later run 2 shown true _ after reads

end NaiveFileSystem.Yfs
