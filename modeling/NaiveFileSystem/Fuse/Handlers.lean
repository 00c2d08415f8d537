import NaiveFileSystem.Fuse.Files
import NaiveFileSystem.Yfs.Lone

/-!
# The handlers over one client

Each handler, run by a client that sees the extents of a file system, sends the reply of
that file system and leaves the extents of the next one.
-/

namespace NaiveFileSystem.Fuse

open Extent Cache Yfs Program Growing

/-- The entries as the directory text has them. -/
def listingOf (entries : Entries) : Listing := entries.map fun entry => (entry.1.bytes, entry.2)

def Node.stored : Node → File
  | file content => ⟨.T_FILE, content⟩
  | link target => ⟨.T_SYMLK, target.bytes⟩
  | dir entries => ⟨.T_DIR, textOf (listingOf entries)⟩

def FileSystem.stored (fs : FileSystem) : Contents := fun ino => (fs ino).map Node.stored

section Stored

variable {limit : ℕ} {fs : FileSystem} {ino : Inum} {node : Node} {entries : Entries} {name : CString}

theorem stored_some (here : fs ino = some node) : fs.stored ino = some node.stored := by
  rw [FileSystem.stored, here, Option.map_some]

theorem stored_none (gone : fs.stored ino = none) : fs ino = none := Option.map_eq_none_iff.mp gone

theorem stored_update (fs : FileSystem) (ino : Inum) (node : Node) :
    FileSystem.stored (Function.update fs ino (some node)) =
      Function.update fs.stored ino (some node.stored) := by
  funext other
  by_cases same : other = ino
  · simp [FileSystem.stored, same]
  · simp [FileSystem.stored, same]

theorem listingOf_append (entries : Entries) (name : CString) (id : Inum) :
    listingOf (entries ++ [(name, id)]) = listingOf entries ++ [(name.bytes, id)] := by
  simp [listingOf]

theorem bytes_eq (entry : CString × Inum) : (entry.1.bytes = name.bytes) = (entry.1 = name) :=
  propext ⟨fun same => CString.ext same, congrArg _⟩

theorem listingOf_filter : (listingOf entries).filter (·.1 ≠ name.bytes) =
    listingOf (entries.filter (·.1 ≠ name)) := by
  simp only [listingOf, List.filter_map, Function.comp_def, ne_eq, bytes_eq]

theorem listingOf_any : (listingOf entries).any (·.1 = name.bytes) = entries.any (·.1 = name) := by
  simp only [listingOf, List.any_map, Function.comp_def, bytes_eq]

theorem listingOf_find : (listingOf entries).find? (·.1 = name.bytes) =
    (entries.find? (·.1 = name)).map fun entry => (entry.1.bytes, entry.2) := by
  simp only [listingOf, List.find?_map, Function.comp_def, bytes_eq]

theorem inumsOf_listingOf (here : fs ino = some (.dir entries)) :
    inumsOf (listingOf entries) name.bytes = fs.named ino name := by
  simp only [inumsOf, FileSystem.named, entries_dir here, listingOf, List.filter_map, List.map_map,
    Function.comp_def, bytes_eq]

theorem stored_add (here : fs ino = some (.dir entries)) (id : Inum) :
    (fs.add ino name id node).stored = Function.update (Function.update fs.stored id
      (some node.stored)) ino (some ⟨.T_DIR, textOf (listingOf entries) ++ lineOf (name.bytes, id)⟩) := by
  rw [FileSystem.add, stored_update, stored_update, entries_dir here, Node.stored, listingOf_append,
    textOf_append]
  simp [textOf]

theorem stored_drop (here : fs ino = some (.dir entries)) :
    (fs.drop ino name).stored = Function.update (without fs.stored (fs.named ino name)) ino
      (some ⟨.T_DIR, textOf (listingOf (entries.filter (·.1 ≠ name)))⟩) := by
  rw [FileSystem.drop, stored_update, entries_dir here]
  congr 1
  funext other
  by_cases gone : other ∈ fs.named ino name
  · simp [FileSystem.stored, without, gone]
  · simp [FileSystem.stored, without, gone]

theorem Formed.listing_named (formed : Formed limit fs) (here : fs ino = some (.dir entries)) :
    ∀ entry ∈ listingOf entries, entry.1 ≠ [] := by
  intro entry inside
  obtain ⟨named, member, rfl⟩ := List.mem_map.mp inside
  rw [← entries_dir here] at member
  exact (formed.listed ino named member).1

end Stored

section Handlers

variable {limit : ℕ} {view : View} {fs : FileSystem} {ino : Inum} {node : Node} (vars : Yfs.Locals)

theorem size_toNat {a : Attr} {data : Bytes} (size : a.size = .ofNat data.length)
    (short : data.length < 2 ^ 31) : a.size.toUInt64.toNat = data.length := by
  rw [UInt32.toNat_toUInt64, size, UInt32.toNat_ofNat']
  exact Nat.mod_eq_of_lt (short.trans (by decide))

theorem Formed.below (formed : Formed limit fs) (bound : limit < 2 ^ 31) (here : fs ino = some node) :
    node.size < 2 ^ 31 := lt_of_le_of_lt (formed.short ino node here) bound

theorem lone_getattr {post : View → ℤ × Stat → Prop} (found : view.files ino = some node.stored)
    (short : node.size < 2 ^ 31) (after : ∀ (next : View) (st : Stat), next.files = view.files →
      node.Stats ino st → post next (Result.OK, st)) : (getattr vars ino).wp lone view post := by
  rw [getattr, wp_bind]
  refine lone_isType vars .T_FILE found fun one same => ?_
  rw [← same] at found after
  rw [wp_bind]
  refine lone_isType vars .T_FILE found fun two same => ?_
  rw [← same] at found after
  cases node with
  | file content =>
    show wp lone (YfsClient.getfile vars ino >>= _) two post
    rw [wp_bind]
    refine lone_getInfo vars _ found fun next a same matched => ?_
    exact after next _ same ⟨rfl, rfl, rfl, size_toNat matched.size short⟩
  | link target =>
    show wp lone (YfsClient.issymlink vars ino >>= _) two post
    rw [wp_bind]
    refine lone_isType vars .T_SYMLK found fun three same => ?_
    rw [← same] at found after
    show wp lone (YfsClient.getsymlink vars ino >>= _) three post
    rw [wp_bind]
    refine lone_getInfo vars _ found fun next a same matched => ?_
    exact after next _ same ⟨rfl, rfl, rfl, size_toNat matched.size short⟩
  | dir entries =>
    show wp lone (YfsClient.issymlink vars ino >>= _) two post
    rw [wp_bind]
    refine lone_isType vars .T_SYMLK found fun three same => ?_
    rw [← same] at found after
    show wp lone (YfsClient.isdir vars ino >>= _) three post
    rw [wp_bind]
    refine lone_isType vars .T_DIR found fun four same => ?_
    rw [← same] at found after
    show wp lone (YfsClient.getdir vars ino >>= _) four post
    rw [wp_bind]
    refine lone_getInfo vars _ found fun next a same matched => ?_
    exact after next _ same ⟨rfl, rfl, rfl, rfl⟩

/-- The reply is that of the file system, and the client sees the next one. -/
def Right (lib : Library) (fs : FileSystem) (request : Request) (next : View) (reply : Reply) : Prop :=
  request.Answers lib fs reply ∧ next.files = (after fs request reply).stored

variable {lib : Library} {parent : Inum} {name : CString} {entries : Entries}

theorem right_getattr (formed : Formed limit fs) (bound : limit < 2 ^ 31)
    (files : view.files = fs.stored) (here : fs ino = some node) :
    (fuseserverGetattr vars ino).wp lone view (Right lib fs (.getattr ino)) := by
  rw [fuseserverGetattr, wp_bind]
  refine lone_getattr vars (files ▸ stored_some here) (formed.below bound here)
    fun next st same stats => ?_
  exact ⟨⟨node, st, here, stats, rfl⟩, same.trans files⟩

theorem right_setattr (formed : Formed limit fs) (bound : limit < 2 ^ 31)
    (files : view.files = fs.stored) (size : ℕ) (toSet : ToSet) (fits : (Request.setattr ino size toSet).Fits limit fs) :
    (fuseserverSetattr vars ino size toSet).wp lone view (Right lib fs (.setattr ino size toSet)) := by
  unfold fuseserverSetattr
  split
  next asked =>
    cases sized : toSet.size with
    | true =>
      simp only [Request.Fits, sized, if_true] at fits
      obtain ⟨⟨content, here⟩, short⟩ := fits
      have found : view.files ino = some ⟨.T_FILE, content⟩ := files ▸ stored_some here
      have left : ∀ reply, after fs (.setattr ino size toSet) reply =
          Function.update fs ino (some (.file (cut 0 content size))) := by
        intro reply
        simp only [after, sized, if_true, content_file here]
      rw [if_pos rfl, wp_bind]
      refine lone_setattr vars found (formed.below bound here) fun one same => ?_
      rw [wp_bind]
      refine @lone_getattr one ino (.file (cut 0 content size)) vars _ ?_ ?_ fun next st same' stats => ?_
      · rw [same, Function.update_self]
        rfl
      · show (cut 0 content size).length < 2 ^ 31
        rw [length_cut]
        exact lt_of_le_of_lt short bound
      · refine ⟨?_, ?_⟩
        · simp only [Request.Answers, left, asked, if_true, Function.update_self]
          exact ⟨_, st, rfl, stats, rfl⟩
        · rw [left, stored_update, same', same, files]
          rfl
    | false =>
      simp only [Request.Fits, sized, Bool.false_eq_true, if_false] at fits
      obtain ⟨node, here⟩ := Option.ne_none_iff_exists'.mp fits
      have left : ∀ reply, after fs (.setattr ino size toSet) reply = fs := by
        intro reply
        simp only [after, sized, Bool.false_eq_true, if_false]
      rw [if_neg Bool.false_ne_true, wp_bind]
      refine lone_getattr vars (files ▸ stored_some here) (formed.below bound here)
        fun next st same stats => ⟨?_, ?_⟩
      · simp only [Request.Answers, left, asked, if_true]
        exact ⟨node, st, here, stats, rfl⟩
      · rw [left, same, files]
  next none =>
    refine ⟨?_, ?_⟩
    · simp only [Request.Answers, none, Bool.false_eq_true, if_false]
    · have unset : toSet.size = false := by
        cases sized : toSet.size with
        | true => simp [sized] at none
        | false => rfl
      simp only [after, unset, Bool.false_eq_true, if_false]
      exact files

theorem right_read (files : view.files = fs.stored) {content : Bytes}
    (here : fs ino = some (.file content)) (size off : ℕ) :
    (fuseserverRead ino size off).wp lone view (Right lib fs (.read ino size off)) := by
  rw [fuseserverRead, wp_bind]
  refine lone_read (files ▸ stored_some here) fun next same => ⟨?_, same.trans files⟩
  simp only [Request.Answers, content_file here]
  rfl

theorem right_write (files : view.files = fs.stored) {content : Bytes}
    (here : fs ino = some (.file content)) (buf : Bytes) (off : ℕ) :
    (fuseserverWrite ino buf off).wp lone view (Right lib fs (.write ino buf off)) := by
  rw [fuseserverWrite, wp_bind]
  have found : view.files ino = some ⟨.T_FILE, content⟩ := files ▸ stored_some here
  refine lone_write found fun next same => ⟨rfl, ?_⟩
  rw [same, files, after, content_file here, stored_update]
  rfl

theorem right_lookup (formed : Formed limit fs) (bound : limit < 2 ^ 31)
    (files : view.files = fs.stored) (name : CString) (ino : Inum) (live : fs parent ≠ none) :
    (fuseserverLookup vars parent name ino).wp lone view (Right lib fs (.lookup parent name)) := by
  rw [fuseserverLookup, wp_bind]
  obtain ⟨node, here⟩ := Option.ne_none_iff_exists'.mp live
  have found : view.files parent = some node.stored := files ▸ stored_some here
  cases node with
  | dir entries =>
    refine lone_lookup vars found (formed.listing_named here) name.bytes false ino fun one same => ?_
    rw [listingOf_find]
    cases first : entries.find? (·.1 = name) with
    | none =>
      refine ⟨?_, same.trans files⟩
      simp only [Request.Answers, entries_dir here, first]
    | some entry =>
      have member : entry ∈ fs.entries parent := by
        rw [entries_dir here]
        exact List.mem_of_find?_eq_some first
      obtain ⟨child, there⟩ := Option.ne_none_iff_exists'.mp (formed.listed parent entry member).2.1
      show wp lone (getattr vars entry.2 >>= _) one _
      rw [wp_bind]
      refine @lone_getattr one entry.2 child vars _ ?_ (formed.below bound there)
        fun next st same' stats => ⟨?_, same'.trans (same.trans files)⟩
      · rw [same, files]
        exact stored_some there
      · simp only [Request.Answers, entries_dir here, first]
        exact ⟨child, st, there, stats, rfl⟩
  | file content | link target =>
    refine lone_lookup_other vars found (by simp [Node.stored]) name.bytes false ino fun one same =>
      ⟨?_, same.trans files⟩
    have none : fs.entries parent = [] := by rw [FileSystem.entries, here]
    simp only [Request.Answers, none, List.find?_nil]

theorem right_readdir (formed : Formed limit fs) (files : view.files = fs.stored) (live : fs ino ≠ none)
    (size off : ℕ) : (fuseserverReaddir lib vars ino size off).wp lone view
      (Right lib fs (.readdir ino size off)) := by
  rw [fuseserverReaddir, wp_bind]
  obtain ⟨node, here⟩ := Option.ne_none_iff_exists'.mp live
  have found : view.files ino = some node.stored := files ▸ stored_some here
  refine lone_isType vars .T_DIR found fun one same => ?_
  rw [← same] at found
  cases node with
  | dir entries =>
    show wp lone (YfsClient.readdir vars ino [] >>= _) one _
    rw [wp_bind]
    refine lone_readdir vars found (formed.listing_named here) [] fun next same' =>
      ⟨?_, same'.trans (same.trans files)⟩
    simp only [Request.Answers, here, page, List.nil_append, listingOf, List.map_map, List.foldl_map,
      Function.comp_def, cStr_bytes]
  | file content | link target =>
    refine ⟨?_, same.trans files⟩
    simp only [Request.Answers, here]

theorem right_unlink (formed : Formed limit fs) (files : view.files = fs.stored)
    (here : fs parent = some (.dir entries)) (name : CString) :
    (fuseserverUnlink vars parent name).wp lone view (Right lib fs (.unlink parent name)) := by
  rw [fuseserverUnlink, wp_bind]
  have found : view.files parent = some ⟨.T_DIR, textOf (listingOf entries)⟩ :=
    files ▸ stored_some here
  refine lone_unlink vars found (formed.listing_named here) ?_ ?_ fun next same => ?_
  · intro id inside
    rw [inumsOf_listingOf here] at inside
    obtain ⟨_, there, different, _⟩ := formed.listed parent _ (mem_named.mp inside)
    exact ⟨fun gone => there (stored_none (files ▸ gone)), different⟩
  · rw [inumsOf_listingOf here]
    exact (formed.once parent).sublist (List.filter_sublist.map _)
  · rw [inumsOf_listingOf here, listingOf_filter, files, ← stored_drop here] at same
    rw [listingOf_any]
    cases any : entries.any (·.1 = name) with
    | true =>
      refine ⟨?_, same⟩
      simp only [Request.Answers, entries_dir here, any, if_true]
    | false =>
      refine ⟨?_, same⟩
      simp only [Request.Answers, entries_dir here, any, Bool.false_eq_true, if_false]

theorem right_createhelper {post : View → ℤ × EntryParam → Prop} (files : view.files = fs.stored)
    (here : fs parent = some (.dir entries)) {type : ExtentType} {node : Node} (made : node.stored = ⟨type, []⟩)
    (short : node.size < 2 ^ 31) (helps : type = .T_FILE ∨ type = .T_DIR) (inum : Inum)
    (e : EntryParam) (after : ∀ next e, Made fs node e →
      next.files = (fs.add parent name e.ino node).stored → post next (Result.OK, e)) :
    (fuseserverCreatehelper vars parent name type inum e).wp lone view post := by
  have found : view.files parent = some ⟨.T_DIR, textOf (listingOf entries)⟩ :=
    files ▸ stored_some here
  have program : (if type = .T_FILE then YfsClient.create else YfsClient.mkdir) parent name.bytes
      inum = YfsClient.addfile parent name.bytes inum type := by
    rcases helps with rfl | rfl
    · rfl
    · rfl
  rw [fuseserverCreatehelper, wp_bind, program]
  refine lone_addfile found name.bytes inum fun id fresh one same _ => ?_
  have fresh := stored_none (files ▸ fresh)
  have added : one.files = (fs.add parent name id node).stored := by
    rw [same, stored_add here, made, files]
  show wp lone (getattr vars id >>= _) one post
  rw [wp_bind]
  have different : id ≠ parent := by
    rintro rfl
    cases fresh.symm.trans here
  refine @lone_getattr one id node vars _ ?_ short fun next st same' stats => ?_
  · rw [same, Function.update_of_ne different, Function.update_self, made]
  · exact after next (entryParam id st) ⟨fresh, st, rfl, stats⟩ (same'.trans added)

theorem right_symlink (files : view.files = fs.stored) (here : fs parent = some (.dir entries))
    (bound : limit < 2 ^ 31) {link : CString} (short : link.bytes.length ≤ limit) (name : CString) (ino : Inum) :
    (fuseserverSymlink vars link parent name ino).wp lone view
      (Right lib fs (.symlink link parent name)) := by
  have found : view.files parent = some ⟨.T_DIR, textOf (listingOf entries)⟩ :=
    files ▸ stored_some here
  rw [fuseserverSymlink, wp_bind]
  refine lone_symlink found link.bytes name.bytes ino fun id fresh one same => ?_
  have fresh := stored_none (files ▸ fresh)
  have added : one.files = (fs.add parent name id (.link link)).stored := by
    rw [same, stored_add here, files]
    rfl
  have different : id ≠ parent := by
    rintro rfl
    cases fresh.symm.trans here
  show wp lone (getattr vars id >>= _) one _
  rw [wp_bind]
  refine @lone_getattr one id (.link link) vars _ ?_ (lt_of_le_of_lt short bound)
    fun next st same' stats => ?_
  · rw [same, Function.update_of_ne different, Function.update_self]
    rfl
  · exact ⟨⟨entryParam id st, rfl, fresh, st, rfl, stats⟩, same'.trans added⟩

theorem right_readlink (files : view.files = fs.stored) {target : CString}
    (here : fs ino = some (.link target)) :
    (fuseserverReadlink ino).wp lone view (Right lib fs (.readlink ino)) := by
  rw [fuseserverReadlink, wp_bind]
  refine lone_readlink (files ▸ stored_some here) fun next same => ⟨⟨target, here, ?_⟩, same.trans files⟩
  show Reply.readlink (cStr target.bytes) = _
  rw [cStr_bytes]

/-- Every request that the kernel takes care of is answered as the file system says. -/
theorem right_serve (formed : Formed limit fs) (bound : limit < 2 ^ 31)
    (files : view.files = fs.stored) {request : Request} (fits : request.Fits limit fs)
    (vars : Locals) :
    (serve lib vars request).wp lone view (Right lib fs request) := by
  cases request with
  | getattr ino =>
    obtain ⟨node, here⟩ := Option.ne_none_iff_exists'.mp fits
    exact right_getattr vars.yfs formed bound files here
  | setattr ino size toSet => exact right_setattr vars.yfs formed bound files size toSet fits
  | read ino size off =>
    obtain ⟨content, here⟩ := fits
    exact right_read files here size off
  | write ino buf off =>
    obtain ⟨⟨content, here⟩, _⟩ := fits
    exact right_write files here buf off
  | create parent name | mknod parent name =>
    obtain ⟨⟨entries, here⟩, _⟩ := fits
    refine (wp_bind _ _ _ _ _).mpr ?_
    exact @right_createhelper view fs vars.yfs parent name entries _ files here _ (.file [])
      rfl (Nat.two_pow_pos 31) (.inl rfl) _ _ fun next e made added => ⟨⟨e, rfl, made⟩, added⟩
  | mkdir parent name =>
    obtain ⟨⟨entries, here⟩, _⟩ := fits
    refine (wp_bind _ _ _ _ _).mpr ?_
    exact @right_createhelper view fs vars.yfs parent name entries _ files here _ (.dir [])
      rfl (Nat.two_pow_pos 31) (.inr rfl) _ _ fun next e made added => ⟨⟨e, rfl, made⟩, added⟩
  | lookup parent name => exact right_lookup vars.yfs formed bound files name vars.inum fits
  | readdir ino size off => exact right_readdir vars.yfs formed files fits size off
  | open_ ino | statfs => exact ⟨rfl, files⟩
  | unlink parent name =>
    obtain ⟨entries, here⟩ := fits
    exact right_unlink vars.yfs formed files here name
  | symlink link parent name =>
    obtain ⟨⟨entries, here⟩, _, short⟩ := fits
    exact right_symlink vars.yfs files here bound short name vars.inum
  | readlink ino =>
    obtain ⟨target, here⟩ := fits
    exact right_readlink files here

end Handlers

end NaiveFileSystem.Fuse
