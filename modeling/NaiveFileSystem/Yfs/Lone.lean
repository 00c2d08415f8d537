import NaiveFileSystem.Lib.Growing
import NaiveFileSystem.Yfs.Directory
import NaiveFileSystem.Yfs.Discipline

/-!
# One client on its own

What a single client sees of the extents, through its cache, is a map of files. Each
call is specified on that map alone, whatever the cache and the server hold of it, and
the operations are judged by the specification.
-/

namespace NaiveFileSystem.Yfs

open Extent Cache Program YfsClient Growing

/-- The extents as the client sees them, and which have an entry in the table. -/
structure View where
  files : Contents
  cached : Inum → Prop

namespace View

def write (view : View) (eid : Inum) (file : Option File) : View where
  files := Function.update view.files eid file
  cached := view.cached

def fetch (view : View) (eid : Inum) : View where
  files := view.files
  cached other := other = eid ∨ view.cached other

def forget (view : View) : View := ⟨view.files, fun _ => False⟩

def create (view : View) (id : Inum) (type : ExtentType) : View where
  files := Function.update view.files id (some ⟨type, []⟩)
  cached other := other = id ∨ view.cached other

end View

/-- The attributes are those of the file, but for the times. -/
structure Matches (a : Attr) (file : File) : Prop where
  type : a.type = file.type.code
  size : a.size = .ofNat file.data.length

/-- The calls of a client on its own, on live extents. A put needs an entry, since a new
one has no type. -/
def lone : Spec Op.Reply View
  | .create code _, view, post => ∃ type, code = ExtentType.code type ∧
    ∀ id, view.files id = none → post (view.create id type) (.OK, id)
  | .get eid _, view, post => ∃ file, view.files eid = some file ∧
    post (view.fetch eid) (.OK, file.data)
  | .getattr eid _, view, post => ∃ file, view.files eid = some file ∧
    ∀ a, Matches a file → post (view.fetch eid) (.OK, a)
  | .put eid buf, view, post => ∃ file, view.files eid = some file ∧ view.cached eid ∧
    post (view.write eid (some ⟨file.type, buf⟩)) .OK
  | .remove eid, view, post => ∃ file, view.files eid = some file ∧ post (view.write eid none) .OK
  | .flush eid, view, post => ∃ file, view.files eid = some file ∧ ∀ ret, post view.forget ret
  | .acquire _, view, post | .release _, view, post => post view ()

/-- Calls keep to the specification, where `holds` tells what the client sees. -/
structure Meets {σ : Type} (holds : View → Table × σ → Prop)
    (calls : (op : Op) → Table × σ → Table × σ → op.Reply → Prop) : Prop where
  forget : ∀ view state, holds view state → holds view.forget state
  call : ∀ op view state next reply post, holds view state → calls op state next reply →
    lone op view post → ∃ after, holds after next ∧ post after reply

/-! ## The calls keep to the specification -/

structure Sees (file : File) (slot : Option Entry) (stored : Option File) : Prop where
  reads : Reads slot stored file.data
  matching : ∀ entry, slot = some entry → Matches entry.attr file
  held : ∃ found, stored = some found ∧ found.type = file.type

structure Views (view : View) (state : Table × Contents) : Prop where
  sees : ∀ eid file, view.files eid = some file → Sees file (state.1 eid) (state.2 eid)
  cached : ∀ eid, view.cached eid → state.1 eid ≠ none

/-- A call over some server that stores contents faithfully and hands out new inums. -/
def Called (op : Op) (state next : Table × Contents) (reply : op.Reply) : Prop :=
  ∃ rpc env, Faithful rpc ∧ handle rpc env op state = (next, reply) ∧
    ∀ code out, op = .create code out → ∃ contents id,
      rpc.create state.2 code = (contents, .OK, some id) ∧ state.2 id = none

section Calls

variable {rpc : Rpc Contents} {env : Ambient} {view : View} {state : Table × Contents}
  {eid : Inum} {file : File}

theorem Sees.kept (sees : Sees file (state.1 eid) (state.2 eid)) :
    ∀ entry, state.1 eid = some entry → entry.mState ≠ .REMOVED := sees.reads.not_removed

theorem Views.sees_update (views : Views view state) {changed : Option File}
    {next : Table × Contents}
    (others : ∀ other, other ≠ eid → next.1 other = state.1 other ∧ next.2 other = state.2 other)
    (here : ∀ file, changed = some file → Sees file (next.1 eid) (next.2 eid)) :
    ∀ other file, Function.update view.files eid changed other = some file →
      Sees file (next.1 other) (next.2 other) := by
  intro other file found
  by_cases same : other = eid
  · subst same
    rw [Function.update_self] at found
    exact here file found
  · rw [Function.update_of_ne same] at found
    rw [(others other same).1, (others other same).2]
    exact views.sees other file found

theorem Views.entry (views : Views view state) {entry : Entry} {changed : Option File}
    (here : ∀ file, changed = some file → Sees file (some entry) (state.2 eid)) :
    Views ((view.write eid changed).fetch eid)
      (Function.update state.1 eid (some entry), state.2) := by
  refine ⟨views.sees_update (fun other different => ⟨Function.update_of_ne different _ _, rfl⟩) ?_,
    fun other cached => ?_⟩
  · intro file found
    simp only [Function.update_self]
    exact here file found
  · by_cases same : other = eid
    · subst same
      simp
    · simp only [Function.update_of_ne same]
      exact views.cached other (cached.resolve_left same)

theorem Views.entry_same (views : Views view state) {entry : Entry}
    (found : view.files eid = some file) (sees : Sees file (some entry) (state.2 eid)) :
    Views (view.fetch eid) (Function.update state.1 eid (some entry), state.2) := by
  have same : (view.write eid (some file)).fetch eid = view.fetch eid := by
    rw [View.write, ← found, Function.update_eq_self]
  have entered := @Views.entry view state eid views entry (some file) fun other here =>
    Option.some.inj here ▸ sees
  rwa [same] at entered

theorem Views.forget (views : Views view state) : Views view.forget state :=
  ⟨views.sees, fun _ cached => False.elim cached⟩

theorem views_get (faithful : Faithful rpc) (views : Views view state)
    (found : view.files eid = some file) (buf : Bytes) :
    ∃ next, handle rpc env (.get eid buf) state = (next, .OK, file.data) ∧
      Views (view.fetch eid) next := by
  have sees := views.sees eid file found
  obtain ⟨entry, ran, fetched⟩ := ExtentClientCache.get_ok faithful env buf sees.reads
  refine ⟨_, ran, views.entry_same found ⟨fetched.reads, fun other here => ?_, sees.held⟩⟩
  cases here
  refine ⟨?_, fetched.size fun old here filled => ?_⟩
  · cases slot : state.1 eid with
    | some old => exact (fetched.type old slot).trans (sees.matching old slot).type
    | none =>
      obtain ⟨stored, here, type⟩ := sees.held
      rw [fetched.newType slot stored here, type]
  · rw [(sees.matching old here).size]
    rcases sees.reads with ⟨other, same, _, content⟩ | ⟨other, same, _, content, _⟩ | ⟨bare, _⟩
    · cases here.symm.trans same
      rw [content]
    · cases here.symm.trans same
      rw [content]
    · exact absurd (bare old here) filled

theorem views_getattr (faithful : Faithful rpc) (views : Views view state)
    (found : view.files eid = some file) (attr : Attr) :
    ∃ next a, handle rpc env (.getattr eid attr) state = (next, .OK, a) ∧
      Matches a file ∧ Views (view.fetch eid) next := by
  have sees := views.sees eid file found
  rcases ExtentClientCache.getattr_cases faithful attr with
    ⟨entry, ret, reply, here, ran, answer⟩ | ⟨absent, reply, ran, matching⟩
  · obtain ⟨rfl, rfl⟩ := answer (sees.kept entry here)
    refine ⟨_, _, ran, sees.matching entry here, views.sees, fun other cached => ?_⟩
    rcases cached with rfl | cached
    · simp [here]
    · exact views.cached other cached
  · have content := sees.reads.held absent
    obtain ⟨stored, here, type⟩ := sees.held
    obtain ⟨types, sizes⟩ := matching stored here
    have same : stored.data = file.data := by
      rw [here] at content
      exact Option.some.inj content
    have matched : Matches reply file := ⟨by rw [types, type], by rw [sizes, same]⟩
    refine ⟨_, reply, ran, matched, views.entry_same found ⟨.inr (.inr ⟨fun entry here => ?_,
      content⟩), fun entry here => ?_, sees.held⟩⟩
    · cases here
      rfl
    · cases here
      exact matched

theorem views_put (views : Views view state) (found : view.files eid = some file)
    (cached : view.cached eid) (buf : Bytes) :
    ∃ next, handle rpc env (.put eid buf) state = (next, .OK) ∧
      Views (view.write eid (some ⟨file.type, buf⟩)) next := by
  have sees := views.sees eid file found
  obtain ⟨attr, ran, size, type⟩ := ExtentClientCache.put_ok env buf sees.kept
  obtain ⟨entry, here⟩ := Option.ne_none_iff_exists'.mp (views.cached eid cached)
  have entered := @Views.entry view state eid views ⟨buf, .MODIFIED, attr⟩
    (some ⟨file.type, buf⟩) fun other same => ?_
  · refine ⟨_, ?_, entered.sees, fun other cached => entered.cached other (.inr cached)⟩
    simp only [handle, ran]
  · cases same
    refine ⟨.inl ⟨_, rfl, rfl, rfl⟩, fun entry' same => ?_, sees.held⟩
    cases same
    refine ⟨?_, size⟩
    rw [type, Table.entry, here]
    exact (sees.matching entry here).type

theorem views_remove (views : Views view state) (found : view.files eid = some file) :
    ∃ next, handle rpc env (.remove eid) state = (next, .OK) ∧
      Views (view.write eid none) next := by
  have sees := views.sees eid file found
  have stays : (state.1.entry env eid).mState ≠ .REMOVED := by
    cases here : state.1 eid with
    | none => simp [Table.entry, here]
    | some entry => simpa [Table.entry, here] using sees.kept entry here
  have entered := @Views.entry view state eid views
    { state.1.entry env eid with mState := .REMOVED } none fun other same => by cases same
  refine ⟨_, ?_, entered.sees, fun other cached => entered.cached other (.inr cached)⟩
  simp only [handle, ExtentClientCache.remove, if_neg stays]

theorem views_flush (faithful : Faithful rpc) (views : Views view state)
    (found : view.files eid = some file) :
    ∃ next ret, handle rpc env (.flush eid) state = (next, ret) ∧ Views view.forget next := by
  have sees := views.sees eid file found
  obtain ⟨stored, here, type⟩ := sees.held
  obtain ⟨ret, ran⟩ := ExtentClientCache.flush_ok faithful sees.reads (by simp [here])
  refine ⟨_, ret, ran, ?_, fun _ cached => False.elim cached⟩
  have same : Function.update view.files eid (some file) = view.files := by
    rw [← found, Function.update_eq_self]
  show ∀ other file, view.files other = some file → _
  rw [← same]
  refine views.sees_update (fun other different => ⟨Function.update_of_ne different _ _,
    Function.update_of_ne different _ _⟩) fun other here' => ?_
  cases here'
  simp only [Function.update_self, here, Option.map_some]
  refine ⟨.inr (.inr ⟨bare_none, rfl⟩), fun entry absent => (by cases absent), _, rfl, type⟩

theorem views_create (faithful : Faithful rpc) (views : Views view state) {type : ExtentType}
    {id : Inum} {contents : Contents} (unused : state.2 id = none)
    (made : rpc.create state.2 type.code = (contents, .OK, some id)) (inoOut : Inum) :
    ∃ next, handle rpc env (.create type.code inoOut) state = (next, .OK, id) ∧
      view.files id = none ∧ Views (view.create id type) next := by
  refine ⟨_, create_made faithful env made inoOut, ?_, ?_, ?_⟩
  · cases found : view.files id with
    | none => rfl
    | some file =>
      obtain ⟨stored, here, _⟩ := (views.sees id file found).held
      cases unused.symm.trans here
  · refine views.sees_update (fun other different => ⟨ExtentClientCache.recordCreated_of_ne env _
      different, Function.update_of_ne different _ _⟩) fun other same => ?_
    cases same
    simp only [Function.update_self]
    refine ⟨.inr (.inr ⟨ExtentClientCache.bare_recordCreated env _ id, rfl⟩), fun entry here => ?_,
      _, rfl, rfl⟩
    rw [ExtentClientCache.recordCreated, Function.update_self] at here
    cases here
    exact ⟨rfl, rfl⟩
  · intro other cached
    by_cases same : other = id
    · subst same
      simp [ExtentClientCache.recordCreated]
    · show ExtentClientCache.recordCreated env type.code id state.1 other ≠ none
      rw [ExtentClientCache.recordCreated_of_ne env _ same]
      exact views.cached other (cached.resolve_left same)

end Calls

theorem meets_called : Meets Views Called := by
  refine ⟨fun view state views => views.forget, ?_⟩
  rintro op view state next reply post views ⟨rpc, env, faithful, ran, answered⟩ needs
  cases op with
  | create code inoOut =>
    obtain ⟨type, rfl, after⟩ := needs
    obtain ⟨contents, id, made, unused⟩ := answered _ _ rfl
    obtain ⟨next', ran', fresh, here⟩ := @views_create rpc env view state faithful views type id
      contents unused made inoOut
    cases ran.symm.trans ran'
    exact ⟨_, here, after id fresh⟩
  | get eid buf =>
    obtain ⟨file, found, after⟩ := needs
    obtain ⟨next', ran', here⟩ := @views_get rpc env view state eid file faithful views found buf
    cases ran.symm.trans ran'
    exact ⟨_, here, after⟩
  | getattr eid attr =>
    obtain ⟨file, found, after⟩ := needs
    obtain ⟨next', a, ran', same, here⟩ := @views_getattr rpc env view state eid file faithful views
      found attr
    cases ran.symm.trans ran'
    exact ⟨_, here, after a same⟩
  | put eid buf =>
    obtain ⟨file, found, cached, after⟩ := needs
    obtain ⟨next', ran', here⟩ := @views_put rpc env view state eid file views found cached buf
    cases ran.symm.trans ran'
    exact ⟨_, here, after⟩
  | remove eid =>
    obtain ⟨file, found, after⟩ := needs
    obtain ⟨next', ran', here⟩ := @views_remove rpc env view state eid file views found
    cases ran.symm.trans ran'
    exact ⟨_, here, after⟩
  | flush eid =>
    obtain ⟨file, found, after⟩ := needs
    obtain ⟨next', ret, ran', here⟩ := @views_flush rpc env view state eid file faithful views found
    cases ran.symm.trans ran'
    exact ⟨_, here, after _⟩
  | acquire lid | release lid =>
    cases ran
    exact ⟨view, views, needs⟩

/-! ## The operations -/

section Operations

variable {view : View} {ino : Inum} {file : File} (vars : Locals)

theorem code_injective {type type' : ExtentType} (same : type.code = type'.code) : type = type' := by
  rw [← typeOf_code type, same, typeOf_code]

theorem lone_isType {post : View → Bool → Prop} (type : ExtentType)
    (found : view.files ino = some file)
    (after : ∀ next : View, next.files = view.files → post next (file.type = type)) :
    (isType vars type ino).wp lone view post := by
  refine ⟨file, found, fun a matched => ?_⟩
  have same : decide (a.type = type.code) = decide (file.type = type) := by
    rw [matched.type]
    exact decide_eq_decide.mpr ⟨code_injective, congrArg _⟩
  have answer := after (view.fetch ino) rfl
  rw [← same] at answer
  exact answer

theorem lone_getInfo {Info : Type} {post : View → ℤ × Option Info → Prop} (info : Attr → Info)
    (found : view.files ino = some file)
    (after : ∀ (next : View) (a : Attr), next.files = view.files → Matches a file →
      post next (Result.OK, some (info a))) : (getInfo vars info ino).wp lone view post :=
  ⟨file, found, fun a matched => after _ a rfl matched⟩

theorem lone_setattr {post : View → ℤ → Prop} {size : ℕ} (found : view.files ino = some file)
    (short : file.data.length < 2 ^ 31)
    (after : ∀ next : View, next.files = Function.update view.files ino
      (some ⟨file.type, cut 0 file.data size⟩) → post next Result.OK) :
    (setattr vars ino size).wp lone view post := by
  refine ⟨file, found, fun a matched => ⟨file, found, file, found, .inl rfl, ?_⟩⟩
  have known : a.size.toNat = file.data.length := by
    rw [matched.size, UInt32.toNat_ofNat']
    exact Nat.mod_eq_of_lt (short.trans (by decide))
  have resized : (if a.size.toNat < size then file.data ++ List.replicate (size - a.size.toNat) 0
      else if size < a.size.toNat then file.data.take size else file.data) =
      cut 0 file.data size := by
    rw [known, resize_eq, resize, take_append_replicate]
  refine after _ (.trans (congrArg (fun data => Function.update view.files ino
    (some ⟨file.type, data⟩)) resized) rfl)

theorem lone_read {post : View → ℤ × Bytes → Prop} {size off : ℕ} {data : Bytes}
    (found : view.files ino = some file)
    (after : ∀ next : View, next.files = view.files →
      post next (Result.OK, slice file.data off size)) :
    (read ino size off data).wp lone view post := by
  refine ⟨file, found, ?_⟩
  have answer := after (view.fetch ino) rfl
  rw [← cases_eq_slice] at answer
  exact answer

theorem grown_eq_cut (content data : Bytes) (off : ℕ) :
    (if content.length < data.length + off then resize content (off + data.length) else content) =
      cut 0 content (max content.length (off + data.length)) := by
  split
  next grows => rw [resize, take_append_replicate, Nat.max_eq_right (by omega)]
  next fits => rw [Nat.max_eq_left (by omega), cut_length]

theorem written_eq_splice (content data : Bytes) (off : ℕ) :
    (if content.length < data.length + off then resize content (off + data.length)
        else content).take off ++ data ++
      (if content.length < data.length + off then resize content (off + data.length)
        else content).drop (off + data.length) = splice 0 content off data := by
  rw [grown_eq_cut, replace_eq_splice]

theorem lone_write {post : View → ℤ × ℕ → Prop} {off : ℕ} {data : Bytes}
    (found : view.files ino = some file)
    (after : ∀ next : View, next.files = Function.update view.files ino
      (some ⟨file.type, splice 0 file.data off data⟩) → post next (Result.OK, data.length)) :
    (write ino off data).wp lone view post := by
  have written := written_eq_splice file.data data off
  refine ⟨file, found, file, found, .inl rfl, _, Function.update_self _ _ _, fun ret => after _ ?_⟩
  exact congrArg (fun data => Function.update view.files ino (some ⟨file.type, data⟩)) written

theorem lone_readlink {post : View → ℤ × Bytes → Prop} {result : Bytes}
    (found : view.files ino = some file)
    (after : ∀ next : View, next.files = view.files → post next (Result.OK, file.data)) :
    (readlink ino result).wp lone view post := ⟨file, found, after _ rfl⟩

/-! ## The operations on directories -/

variable {listing : Listing} {name : Bytes}

theorem lone_addfile {post : View → ℤ × Inum → Prop} {type : ExtentType}
    (found : view.files ino = some file) (name : Bytes) (inoOut : Inum)
    (after : ∀ id, view.files id = none → ∀ next : View, next.files =
      Function.update (Function.update view.files id (some ⟨type, []⟩)) ino
        (some ⟨file.type, file.data ++ lineOf (name, id)⟩) → next.cached id →
      post next (Result.OK, id)) : (addfile ino name inoOut type).wp lone view post := by
  refine ⟨type, rfl, fun id fresh => ?_⟩
  have here : (view.create id type).files ino = some file := by
    have different : ino ≠ id := by
      rintro rfl
      cases fresh.symm.trans found
    exact (Function.update_of_ne different _ _).trans found
  exact ⟨file, here, file, here, .inl rfl, after id fresh _ rfl (.inr (.inl rfl))⟩

theorem lone_symlink {post : View → ℤ × Inum → Prop} (found : view.files ino = some file)
    (link name : Bytes) (inoOut : Inum)
    (after : ∀ id, view.files id = none → ∀ next : View, next.files =
      Function.update (Function.update view.files id (some ⟨.T_SYMLK, link⟩)) ino
        (some ⟨file.type, file.data ++ lineOf (name, id)⟩) → post next (Result.OK, id)) :
    (symlink ino link name inoOut).wp lone view post := by
  refine (wp_bind _ _ _ _ _).mpr (lone_addfile found name inoOut fun id fresh next same cached => ?_)
  have different : id ≠ ino := by
    rintro rfl
    cases fresh.symm.trans found
  have made : next.files id = some ⟨.T_SYMLK, []⟩ := by
    rw [same, Function.update_of_ne different, Function.update_self]
  refine ⟨_, made, cached, _, Function.update_self _ _ _, fun ret => after id fresh _ ?_⟩
  show Function.update next.files id _ = _
  rw [same, Function.update_comm different, Function.update_idem, Function.update_comm different.symm]

theorem lone_find {post : View → ℤ × Bool × Inum → Prop}
    (found : view.files ino = some ⟨.T_DIR, textOf listing⟩)
    (named : ∀ entry ∈ listing, entry.1 ≠ []) (name : Bytes) (flag : Bool) (inoOut : Inum)
    (after : ∀ next : View, next.files = view.files →
      post next (match listing.find? (·.1 = name) with
        | some entry => (Result.OK, true, entry.2)
        | none => (Result.IOERR, false, inoOut))) :
    (find vars ino name flag inoOut).wp lone view post := by
  refine ⟨_, found, fun a matched => ?_⟩
  show wp _ (if a.type ≠ ExtentType.T_DIR.code then _ else _) _ _
  rw [matched.type, if_neg (not_not_intro rfl)]
  refine ⟨_, found, ?_⟩
  have search : (tokens (textOf listing)).find? (fun pass => uncode pass.1 = name) =
      (listing.find? (·.1 = name)).map fun entry => (encode entry.1, filename entry.2) := by
    rw [tokens_textOf named, List.find?_map]
    simp only [Function.comp_def, uncode_encode]
  have answer := after (view.fetch ino |>.fetch ino) rfl
  simp only [Program.bind, search]
  cases here : listing.find? (·.1 = name) with
  | none =>
    rw [here] at answer
    exact answer
  | some entry =>
    rw [here] at answer
    simp only [Option.map_some, n2i_filename]
    exact answer

theorem lone_find_other {post : View → ℤ × Bool × Inum → Prop} (found : view.files ino = some file)
    (other : file.type ≠ .T_DIR) (name : Bytes) (flag : Bool) (inoOut : Inum)
    (after : ∀ next : View, next.files = view.files → post next (Result.EXIST, flag, inoOut)) :
    (find vars ino name flag inoOut).wp lone view post := by
  refine ⟨_, found, fun a matched => ?_⟩
  show wp _ (if a.type ≠ ExtentType.T_DIR.code then _ else _) _ _
  rw [matched.type, if_pos fun same => other (code_injective same)]
  exact after _ rfl

theorem lone_lookup {post : View → ℤ × Bool × Inum → Prop}
    (found : view.files ino = some ⟨.T_DIR, textOf listing⟩)
    (named : ∀ entry ∈ listing, entry.1 ≠ []) (name : Bytes) (flag : Bool) (inoOut : Inum)
    (after : ∀ next : View, next.files = view.files →
      post next (match listing.find? (·.1 = name) with
        | some entry => (Result.OK, true, entry.2)
        | none => (Result.IOERR, false, inoOut))) :
    (lookup vars ino name flag inoOut).wp lone view post := by
  show wp lone (find vars ino name flag inoOut >>= _) view post
  rw [wp_bind]
  exact lone_find vars found named name flag inoOut after

theorem lone_lookup_other {post : View → ℤ × Bool × Inum → Prop} (found : view.files ino = some file)
    (other : file.type ≠ .T_DIR) (name : Bytes) (flag : Bool) (inoOut : Inum)
    (after : ∀ next : View, next.files = view.files → post next (Result.EXIST, flag, inoOut)) :
    (lookup vars ino name flag inoOut).wp lone view post := by
  show wp lone (find vars ino name flag inoOut >>= _) view post
  rw [wp_bind]
  exact lone_find_other vars found other name flag inoOut after

theorem lone_readdir {post : View → ℤ × List Dirent → Prop}
    (found : view.files ino = some ⟨.T_DIR, textOf listing⟩)
    (named : ∀ entry ∈ listing, entry.1 ≠ []) (list : List Dirent)
    (after : ∀ next : View, next.files = view.files →
      post next (Result.OK, list ++ listing.map fun entry => ⟨entry.1, entry.2⟩)) :
    (readdir vars ino list).wp lone view post := by
  show wp lone (isdir vars ino >>= _) view post
  rw [wp_bind]
  refine lone_isType vars .T_DIR found fun next same => ⟨_, (congrFun same ino).trans found, ?_⟩
  have entries : (tokens (textOf listing)).map (fun pass =>
      (⟨uncode pass.1, n2i vars.finum pass.2⟩ : Dirent)) =
      listing.map fun entry => ⟨entry.1, entry.2⟩ := by
    rw [tokens_textOf named, List.map_map]
    simp only [Function.comp_def, uncode_encode, n2i_filename]
  have answer := after (next.fetch ino) same
  rw [← entries] at answer
  exact answer

/-- The files without some of them. -/
def without (files : Contents) (ids : List Inum) : Contents :=
  fun eid => if eid ∈ ids then none else files eid

theorem without_cons (files : Contents) (id : Inum) (rest : List Inum) :
    without (Function.update files id none) rest = without files (id :: rest) := by
  funext eid
  by_cases same : eid = id
  · simp [without, same]
  · simp [without, same]

theorem lone_unlinkPasses {post : View → Bool × Bytes → Prop} (rest : Listing) (flag : Bool)
    (result : Bytes) (view : View) (live : ∀ id ∈ inumsOf rest name, view.files id ≠ none)
    (distinct : (inumsOf rest name).Nodup)
    (after : ∀ next : View, next.files = without view.files (inumsOf rest name) →
      next.cached = view.cached →
      post next (flag || rest.any (·.1 = name), result ++ textOf (rest.filter (·.1 ≠ name)))) :
    (unlinkPasses vars name (rest.map fun entry => (encode entry.1, filename entry.2)) flag
      result).wp lone view post := by
  induction rest generalizing flag result view with
  | nil =>
    have none : without view.files (inumsOf [] name) = view.files := by
      funext eid
      simp [without, inumsOf]
    have answer := after view none.symm rfl
    simpa [unlinkPasses, textOf, wp] using answer
  | cons entry rest ih =>
    by_cases same : entry.1 = name
    · have ids : inumsOf (entry :: rest) name = entry.2 :: inumsOf rest name := by
        simp [inumsOf, same]
      have named : uncode (encode entry.1) = name := (uncode_encode entry.1).trans same
      rw [ids] at live distinct after
      obtain ⟨file, found⟩ := Option.ne_none_iff_exists'.mp (live entry.2 (List.mem_cons_self ..))
      rw [List.map_cons, unlinkPasses_named vars _ _ _ named, n2i_filename]
      refine ⟨file, found, ih true result _ (fun id inside => ?_) (List.nodup_cons.mp distinct).2
        fun next files cached => ?_⟩
      · have different : id ≠ entry.2 := by
          rintro rfl
          exact (List.nodup_cons.mp distinct).1 inside
        show Function.update view.files entry.2 none id ≠ none
        rw [Function.update_of_ne different]
        exact live id (List.mem_cons_of_mem _ inside)
      · have answer := after next (files.trans (without_cons view.files entry.2 _)) cached
        simpa [same] using answer
    · have ids : inumsOf (entry :: rest) name = inumsOf rest name := by simp [inumsOf, same]
      rw [ids] at live distinct after
      simp only [List.map_cons, unlinkPasses, uncode_encode, if_neg same]
      refine ih flag _ view live distinct fun next files cached => ?_
      have answer := after next files cached
      simpa [same, textOf, lineOf] using answer

theorem lone_unlink {post : View → ℤ → Prop}
    (found : view.files ino = some ⟨.T_DIR, textOf listing⟩)
    (named : ∀ entry ∈ listing, entry.1 ≠ [])
    (live : ∀ id ∈ inumsOf listing name, view.files id ≠ none ∧ id ≠ ino)
    (distinct : (inumsOf listing name).Nodup)
    (after : ∀ next : View, next.files = Function.update (without view.files (inumsOf listing name))
        ino (some ⟨.T_DIR, textOf (listing.filter (·.1 ≠ name))⟩) →
      post next (if listing.any (·.1 = name) then Result.OK else Result.ENOENT)) :
    (unlink vars ino name).wp lone view post := by
  refine ⟨_, found, ?_⟩
  apply (wp_bind _ (unlinkPasses vars name (tokens (textOf listing)) false []) _ _ _).mpr
  rw [tokens_textOf named]
  refine lone_unlinkPasses vars listing false [] _ (fun id inside => (live id inside).1) distinct
    fun next files cached => ?_
  have spared : ino ∉ inumsOf listing name := fun inside => (live ino inside).2 rfl
  have here : next.files ino = some ⟨.T_DIR, textOf listing⟩ := by
    rw [files]
    exact (if_neg spared).trans found
  rw [Bool.false_or, List.nil_append]
  cases any : listing.any (·.1 = name) with
  | true =>
    rw [any] at after
    refine ⟨_, here, ?_, after _ ?_⟩
    · rw [cached]
      exact .inl rfl
    · exact congrArg (fun files => Function.update files ino _) files
  | false =>
    rw [any] at after
    have all : listing.filter (·.1 ≠ name) = listing := by
      apply List.filter_eq_self.mpr
      intro entry inside
      have other := List.any_eq_false.mp any entry inside
      simpa using other
    refine after next ?_
    rw [all]
    exact (Function.update_eq_self_iff.mpr here.symm).symm.trans
      (congrArg (fun files => Function.update files ino _) files)

end Operations

end NaiveFileSystem.Yfs
