import NaiveFileSystem.Cache.Direct
import NaiveFileSystem.Fuse.Server
import NaiveFileSystem.Yfs.Session

/-!
# What the handlers reply, whatever is answered to them

The calls of a handler may fail in any way. Even so each request gets a reply of its own
kind, with few errors: most failures of the extent server are never told to the kernel.
-/

namespace NaiveFileSystem.Fuse

open Extent Cache Yfs Program

/-- The attributes of a file, a link or a directory, or none at all. -/
inductive Stat.Filled (ino : Inum) : Stat → Prop
  | file (size atime mtime ctime : UInt64) :
      Filled ino ⟨ino, S_IFREG ||| 0o666, 1, size, atime, mtime, ctime⟩
  | link (size atime mtime ctime : UInt64) :
      Filled ino ⟨ino, S_IFLNK ||| 0o777, 1, size, atime, mtime, ctime⟩
  | dir (atime mtime ctime : UInt64) : Filled ino ⟨ino, S_IFDIR ||| 0o777, 2, 0, atime, mtime, ctime⟩
  | cleared : Filled ino (Stat.cleared ino)

def EntryParam.Filled (e : EntryParam) : Prop := ∃ ino st, e = entryParam ino st ∧ st.Filled ino

def Request.Replies : Request → Reply → Prop
  | .getattr ino, reply => reply = .err .ENOENT ∨ ∃ st, reply = .attr st ∧ st.Filled ino
  | .setattr ino _ toSet, reply =>
    if toSet.size || toSet.atime || toSet.mtime then ∃ st, reply = .attr st ∧ st.Filled ino
    else reply = .err .ENOSYS
  | .read _ size _, reply => ∃ data, reply = .buf data ∧ data.length ≤ size
  | .write _ buf _, reply => reply = .write buf.length
  | .create _ _, reply => reply = .err .ENOENT ∨ ∃ e, reply = .create e ∧ e.Filled
  | .mknod _ _, reply | .mkdir _ _, reply | .lookup _ _, reply =>
    reply = .err .ENOENT ∨ ∃ e, reply = .entry e ∧ e.Filled
  | .readdir _ size _, reply => reply = .err .ENOTDIR ∨ ∃ data, reply = .buf data ∧ data.length ≤ size
  | .open_ _, reply => reply = .opened
  | .unlink _ _, reply => reply = .err .ENOENT ∨ reply = .done
  | .symlink _ _ _, reply => ∃ e, reply = .entry e ∧ e.Filled
  | .readlink _, reply => ∃ link, reply = .readlink link
  | .statfs, reply => reply = .statfs 255 512

section Always

variable {lib : Library} {allowed : (op : Op) → op.Reply → Prop}

theorem always_after {α β : Type} {program : Action α} {next : α → Action β} {post : β → Prop}
    (all : ∀ value, (next value).Always allowed post) : (program >>= next).Always allowed post :=
  always_bind.mpr ((always_true program).mono fun value _ => all value)

theorem always_getInfo {Info : Type} (vars : Yfs.Locals) (info : Attr → Info) (ino : Inum) :
    (YfsClient.getInfo vars info ino).Always allowed fun result =>
      result.1 = Result.OK ∨ result.1 = Result.IOERR := by
  rintro _ _ ⟨ret, a⟩ _
  show Always allowed (if ret ≠ .OK then _ else _) _
  split
  · exact fun _ _ => .inr rfl
  · exact fun _ _ => .inl rfl

/-- What `getattr` tells: it fails in one way, and fills in the attributes of some node. -/
def Told (ino : Inum) (result : ℤ × Stat) : Prop :=
  (result.1 = Result.OK ∨ result.1 = Result.IOERR) ∧ result.2.Filled ino

theorem always_fill {Info : Type} {ino : Inum} {fill : Info → Stat}
    (filled : ∀ info, (fill info).Filled ino) {result : ℤ × Option Info}
    (status : result.1 = Result.OK ∨ result.1 = Result.IOERR) :
    Always allowed (if result.1 ≠ Result.OK then pure (result.1, Stat.cleared ino)
      else pure (Result.OK, result.2.elim (Stat.cleared ino) fill) : Action (ℤ × Stat)) (Told ino) := by
  split
  · exact ⟨status, .cleared⟩
  · cases result.2 with
    | none => exact ⟨.inl rfl, .cleared⟩
    | some info => exact ⟨.inl rfl, filled info⟩

theorem always_getattr (vars : Yfs.Locals) (ino : Inum) :
    (getattr vars ino).Always allowed (Told ino) := by
  refine always_after fun _ => always_after fun file => ?_
  cases file with
  | true =>
    rw [if_pos rfl]
    exact always_bind.mpr ((always_getInfo vars _ ino).mono fun _ =>
      always_fill fun _ => .file _ _ _ _)
  | false =>
    refine always_after fun symlink => ?_
    cases symlink with
    | true =>
      rw [if_pos rfl, YfsClient.getsymlink]
      exact always_bind.mpr ((always_getInfo vars _ ino).mono fun _ =>
        always_fill fun _ => .link _ _ _ _)
    | false =>
      refine always_after fun dir => ?_
      cases dir with
      | true =>
        rw [if_pos rfl, YfsClient.getdir]
        exact always_bind.mpr ((always_getInfo vars _ ino).mono fun _ =>
          always_fill fun _ => .dir _ _ _)
      | false => exact ⟨.inl rfl, .cleared⟩

theorem always_told {α : Type} (vars : Yfs.Locals) (ino : Inum) {next : ℤ × Stat → Action α}
    {post : α → Prop} (all : ∀ ret st, Told ino (ret, st) → (next (ret, st)).Always allowed post) :
    (getattr vars ino >>= next).Always allowed post :=
  always_bind.mpr ((always_getattr vars ino).mono fun _ told => all _ _ told)

theorem always_addfile (parent : Inum) (name : Bytes) (inoOut : Inum) (type : ExtentType) :
    (YfsClient.addfile parent name inoOut type).Always allowed fun result =>
      result.1 = Result.OK := by
  rintro _ _ ⟨_, id⟩ _ ⟨_, buf⟩ _ _ _ _ _
  rfl

theorem always_createhelper (vars : Yfs.Locals) (parent : Inum) (name : CString) (type : ExtentType)
    (inum : Inum) (e : EntryParam) :
    (fuseserverCreatehelper vars parent name type inum e).Always allowed fun result =>
      result.1 ≠ Result.EXIST ∧ (result.1 = Result.OK → result.2.Filled) := by
  have made : Always allowed ((if type = .T_FILE then YfsClient.create else YfsClient.mkdir) parent
      name.bytes inum) fun result => result.1 = Result.OK := by
    split
    · exact always_addfile parent name.bytes inum .T_FILE
    · exact always_addfile parent name.bytes inum .T_DIR
  refine always_bind.mpr (made.mono ?_)
  rintro ⟨_, id⟩ rfl
  refine always_told vars id fun ret st told => ⟨?_, fun _ => ⟨id, st, rfl, told.2⟩⟩
  rcases told.1 with same | same
  · rw [same]
    decide
  · rw [same]
    decide

theorem createReply_cases {reply : EntryParam → Reply} {result : ℤ × EntryParam}
    (other : result.1 ≠ Result.EXIST) (filled : result.1 = Result.OK → result.2.Filled) :
    createReply reply result = .err .ENOENT ∨
      ∃ e, createReply reply result = reply e ∧ e.Filled := by
  unfold createReply
  by_cases ok : result.1 = Result.OK
  · rw [if_pos ok]
    exact .inr ⟨_, rfl, filled ok⟩
  · rw [if_neg ok, if_neg other]
    exact .inl rfl

theorem always_read (ino : Inum) (size off : ℕ) (data : Bytes) :
    (YfsClient.read ino size off data).Always allowed fun result =>
      result.1 = Result.OK ∧ result.2.length ≤ size := by
  rintro _ _ ⟨_, data⟩ _ _ _
  refine ⟨rfl, ?_⟩
  dsimp only
  split
  · split
    · exact List.length_take_le _ _
    · rw [List.length_take, List.length_drop]
      omega
  · exact Nat.zero_le size

theorem always_write (ino : Inum) (off : ℕ) (data : Bytes) :
    (YfsClient.write ino off data).Always allowed (· = (Result.OK, data.length)) := by
  rintro _ _ ⟨_, buf⟩ _ _ _ _ _ _ _
  rfl

theorem always_unlink (vars : Yfs.Locals) (parent : Inum) (name : Bytes) :
    (YfsClient.unlink vars parent name).Always allowed fun result =>
      result = Result.OK ∨ result = Result.ENOENT := by
  rintro _ _ ⟨_, buf⟩ _
  show Always allowed (YfsClient.unlinkPasses vars name (tokens buf) false [] >>= _) _
  refine always_after fun (flag, result) => ?_
  cases flag with
  | true =>
    rintro _ _ _ _
    exact .inl rfl
  | false =>
    rintro _ _
    exact .inr rfl

theorem always_symlink (parent : Inum) (link name : Bytes) (ino : Inum) :
    (YfsClient.symlink parent link name ino).Always allowed fun result => result.1 = Result.OK := by
  refine always_bind.mpr ((always_addfile parent name ino .T_SYMLK).mono ?_)
  rintro ⟨_, id⟩ rfl _ _ _ _ _ _ _ _
  rfl

theorem always_readlink (ino : Inum) (result : Bytes) :
    (YfsClient.readlink ino result).Always allowed fun result => result.1 = Result.OK := by
  rintro _ _ ⟨_, result⟩ _ _ _
  rfl

theorem replyBufLimited_cases (b : Dirbuf) (off maxsize : ℕ) :
    ∃ data, replyBufLimited b off maxsize = .buf data ∧ data.length ≤ maxsize := by
  unfold replyBufLimited
  split
  · refine ⟨_, rfl, ?_⟩
    rw [List.length_take]
    exact (Nat.min_le_left _ _).trans (Nat.min_le_right _ _)
  · exact ⟨[], rfl, Nat.zero_le maxsize⟩

/-- Every request gets a reply of its own kind, whatever the calls of its handler are
answered. -/
theorem serve_replies (vars : Locals) (request : Request) :
    (serve lib vars request).Always allowed request.Replies := by
  cases request with
  | getattr ino =>
    refine always_told vars.yfs ino fun ret st told => ?_
    show Always allowed (if ret ≠ Result.OK then _ else _) _
    split
    · exact .inl rfl
    · exact .inr ⟨st, rfl, told.2⟩
  | setattr ino size toSet =>
    show Always allowed (fuseserverSetattr vars.yfs ino size toSet) (Request.setattr ino size toSet).Replies
    unfold fuseserverSetattr Request.Replies
    split
    next asked =>
      simp only [asked, if_true]
      split
      · exact always_after fun _ => always_told vars.yfs ino fun ret st told => ⟨st, rfl, told.2⟩
      · exact always_told vars.yfs ino fun ret st told => ⟨st, rfl, told.2⟩
    next none =>
      simp only [none]
      rfl
  | read ino size off =>
    refine always_bind.mpr ((always_read ino size off []).mono ?_)
    rintro ⟨_, data⟩ ⟨rfl, short⟩
    exact ⟨data, rfl, short⟩
  | write ino buf off =>
    refine always_bind.mpr ((always_write ino off buf).mono ?_)
    rintro _ rfl
    rfl
  | create parent name | mknod parent name | mkdir parent name =>
    refine always_bind.mpr ((always_createhelper ..).mono ?_)
    rintro result ⟨other, filled⟩
    exact createReply_cases other filled
  | lookup parent name =>
    refine always_after fun (ret, found, ino) => ?_
    cases found with
    | true => exact always_told vars.yfs ino fun ret st told => .inr ⟨_, rfl, ino, st, rfl, told.2⟩
    | false => exact .inl rfl
  | readdir ino size off =>
    refine always_after fun dir => ?_
    cases dir with
    | true => exact always_after fun (ret, entries) => .inr (replyBufLimited_cases _ off size)
    | false => exact .inl rfl
  | open_ ino | statfs => rfl
  | unlink parent name =>
    refine always_bind.mpr ((always_unlink vars.yfs parent name.bytes).mono ?_)
    rintro result (rfl | rfl)
    · exact .inr rfl
    · exact .inl rfl
  | symlink link parent name =>
    refine always_bind.mpr ((always_symlink parent link.bytes name.bytes vars.inum).mono ?_)
    rintro ⟨_, ino⟩ rfl
    exact always_told vars.yfs ino fun ret st told => ⟨_, rfl, ino, st, rfl, told.2⟩
  | readlink ino =>
    refine always_bind.mpr ((always_readlink ino []).mono ?_)
    rintro ⟨_, link⟩ rfl
    exact ⟨cStr link, rfl⟩

/-- So the replies of a request are of its kind behind every run, over any server. -/
theorem replies_of_runs {σ : Type} {calls : (op : Op) → σ → σ → op.Reply → Prop} {state next : σ}
    {vars : Locals} {request : Request} {reply : Reply}
    (runs : (serve lib vars request).Runs calls state next reply) : request.Replies reply :=
  ((serve_replies vars request).runs (fun _ _ _ _ _ _ => ⟨trivial, trivial⟩) runs
    (trivial : (fun _ : σ => True) state)).1

/-- A server that has no answer to anything. -/
def failing (op : Op) (state : Unit) : Unit × op.Reply :=
  match op with
  | .create _ id => (state, .IOERR, id)
  | .get _ buf => (state, .IOERR, buf)
  | .getattr _ attr => (state, .IOERR, attr)
  | .put _ _ | .remove _ | .flush _ => (state, .IOERR)
  | .acquire _ | .release _ => (state, ())

/-- Still it has made a link, of whatever inum was there; a server with a root makes a file. -/
theorem replies_of_runs_failing : ∃ link file : EntryParam,
    link.ino = 7 ∧ link.attr = .cleared 7 ∧ link.Filled ∧
    file.ino = 2 ∧ file.attr.mode = S_IFREG ||| 0o666 ∧ file.Filled := by
  let vars : Locals := ⟨⟨⟨0, 0, 0, 0, 0⟩, 0⟩, 7, ⟨0, 0, .cleared 0, 0, 0⟩⟩
  let lib : Library := ⟨fun _ => 0, fun _ _ _ => []⟩
  let files : Table × Contents := (fun _ => none, rooted)
  have linked := @runs_of_passes _ _ _ _ (fun op state next reply => failing op state = (next, reply))
    (fun _ _ => true) failing (fun _ _ _ => rfl)
    (serve lib vars (.symlink ⟨[98], by decide⟩ 1 ⟨[97], by decide⟩)) () rfl
  have made := @runs_of_passes _ _ _ _
    (fun op state next reply => handle (plain 2) ⟨0, ⟨0, 0, 0, 0, 0⟩⟩ op state = (next, reply))
    (fun _ _ => true) (handle (plain 2) ⟨0, ⟨0, 0, 0, 0, 0⟩⟩) (fun _ _ _ => rfl)
    (serve lib vars (.create 1 ⟨[97], by decide⟩)) files rfl
  obtain ⟨link, linkReply, linkFilled⟩ := replies_of_runs linked
  obtain failed | ⟨file, fileReply, fileFilled⟩ := replies_of_runs made
  · cases failed
  · cases linkReply
    cases fileReply
    exact ⟨_, _, rfl, rfl, linkFilled, rfl, rfl, fileFilled⟩

end Always

end NaiveFileSystem.Fuse
