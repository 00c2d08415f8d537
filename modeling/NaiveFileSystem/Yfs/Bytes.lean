import NaiveFileSystem.Cache.Attributes
import NaiveFileSystem.Lib.Growing
import NaiveFileSystem.Lib.Transition
import NaiveFileSystem.Yfs.Session

/-!
# A file refines an array of bytes

One client writes, resizes and reads a file, and its extent is flushed at any time.
The client reads the array that the operations give, and every entry it makes of the
file has the size of that array, whether or not it has the content.
-/

namespace NaiveFileSystem.Yfs

open Extent Cache Transition Program YfsClient Growing

/-- The operations on one file, and a flush of its extent. -/
inductive FileOp
  | write (off : ℕ) (data : Bytes)
  | setattr (size : ℕ)
  | read (size off : ℕ)
  | getfile
  | flush

inductive FileReply
  | written (ret : ℤ) (bytesWritten : ℕ)
  | set (ret : ℤ)
  | data (ret : ℤ) (data : Bytes)
  | info (ret : ℤ) (fin : Option FileInfo)
  | flushed

/-- The array of bytes after an operation. -/
def FileOp.apply (content : Bytes) : FileOp → Bytes
  | .write off data => splice 0 content off data
  | .setattr size => cut 0 content size
  | _ => content

def FileOp.Answers (content : Bytes) : FileOp → FileReply → Prop
  | .write _ data, reply => reply = .written Result.OK data.length
  | .setattr _, reply => reply = .set Result.OK
  | .read size off, reply => reply = .data Result.OK (slice content off size)
  | .getfile, reply => ∃ fin, reply = .info Result.OK (some fin) ∧ fin.size.toNat = content.length
  | .flush, reply => reply = .flushed

/-- All ends are below 2^31. -/
def FileOp.Fits : FileOp → Prop
  | .write off data => off + data.length < 2 ^ 31
  | .setattr size => size < 2 ^ 31
  | .read size off => off + size < 2 ^ 31
  | .getfile | .flush => True

inductive FileStep (ino : Inum) : Table × Contents → FileOp × FileReply → Table × Contents → Prop
  | write {rpc state next off data ret count} (env : Ambient) : Faithful rpc →
      (write ino off data).run (handle rpc env) state = (next, ret, count) →
      FileStep ino state (.write off data, .written ret count) next
  | setattr {rpc state next size ret} (vars : Locals) (env : Ambient) : Faithful rpc →
      (setattr vars ino size).run (handle rpc env) state = (next, ret) →
      FileStep ino state (.setattr size, .set ret) next
  | read {rpc state next size off ret data} (env : Ambient) (arg : Bytes) : Faithful rpc →
      (read ino size off arg).run (handle rpc env) state = (next, ret, data) →
      FileStep ino state (.read size off, .data ret data) next
  | getfile {rpc state next ret fin} (vars : Locals) (env : Ambient) : Faithful rpc →
      (getfile vars ino).run (handle rpc env) state = (next, ret, fin) →
      FileStep ino state (.getfile, .info ret fin) next
  | flush {rpc state next ret} (env : Ambient) : Faithful rpc →
      handle rpc env (.flush ino) state = (next, ret) →
      FileStep ino state (.flush, .flushed) next

/-- The client has nothing of the file yet, or has just made it. -/
inductive Opens (ino : Inum) : Bytes → Table × Contents → Prop
  | stored {state file} : state.1 ino = none → state.2 ino = some file → Opens ino file.data state
  | created {cache server type} (env : Ambient) (code : UInt32) : server ino = some ⟨type, []⟩ →
      Opens ino [] (ExtentClientCache.recordCreated env code ino cache, server)

/-- One client at work on the file `ino`, which holds `content` at first. -/
def fileClient (ino : Inum) (content : Bytes) : System (Table × Contents) (FileOp × FileReply) where
  init := Opens ino content
  step state label next := label.1.Fits ∧ FileStep ino state label next

/-- The array of bytes. -/
def byteArray (content : Bytes) : System Bytes (FileOp × FileReply) where
  init := (· = content)
  step content label next := next = label.1.apply content ∧ label.1.Answers content label.2

structure ByteFile (ino : Inum) (content : Bytes) (state : Table × Contents) : Prop where
  reads : Reads (state.1 ino) (state.2 ino) content
  sized : SlotSized (state.1 ino) (state.2 ino)
  live : state.2 ino ≠ none
  short : content.length < 2 ^ 31

section Operations

variable {rpc : Rpc Contents} {ino : Inum} {content : Bytes} {state : Table × Contents}

theorem toNat_short (short : content.length < 2 ^ 31) :
    (UInt32.ofNat content.length).toNat = content.length := by
  rw [UInt32.toNat_ofNat']
  exact Nat.mod_eq_of_lt (short.trans (by decide))

theorem ByteFile.of_opens (opens : Opens ino content state) (short : content.length < 2 ^ 31) :
    ByteFile ino content state := by
  cases opens with
  | @stored state file absent found =>
    refine ⟨?_, ?_, by simp [found], short⟩
    · rw [absent, found]
      exact .inr (.inr ⟨bare_none, rfl⟩)
    · rw [absent]
      exact slotSized_none _
  | @created cache server type env code found =>
    refine ⟨.inr (.inr ⟨ExtentClientCache.bare_recordCreated env code ino, ?_⟩), ?_,
      by simp [found], short⟩
    · show (server ino).map File.data = some []
      rw [found]
      rfl
    · simp only [ExtentClientCache.recordCreated, Function.update_self]
      refine .attributes rfl fun file here => ?_
      rw [found] at here
      rw [← Option.some.inj here]
      rfl

theorem ByteFile.of_entry {cache : Table} {server : Contents} {entry : Entry}
    (reads : Reads (some entry) (server ino) content)
    (sized : SlotSized (some entry) (server ino)) (live : server ino ≠ none)
    (short : content.length < 2 ^ 31) :
    ByteFile ino content (Function.update cache ino (some entry), server) := by
  refine ⟨?_, ?_, live, short⟩
  · show Reads (Function.update cache ino (some entry) ino) (server ino) content
    rwa [Function.update_self]
  · show SlotSized (Function.update cache ino (some entry) ino) (server ino)
    rwa [Function.update_self]

theorem get_bytes (faithful : Faithful rpc) (env : Ambient) (buf : Bytes)
    (file : ByteFile ino content state) :
    ∃ next, handle rpc env (.get ino buf) state = (next, .OK, content) ∧
      ByteFile ino content next := by
  obtain ⟨reads, sized, live, short⟩ := file
  obtain ⟨entry, ran, fetched⟩ := ExtentClientCache.get_ok faithful env buf reads
  refine ⟨_, ran, .of_entry fetched.reads (.full _ ?_ ?_) live short⟩
  · rcases fetched.state with modified | ⟨copied, _⟩
    · simp [modified]
    · simp [copied]
  · rw [fetched.content]
    exact fetched.size fun old here => (sized old here).2

theorem getattr_bytes (faithful : Faithful rpc) (env : Ambient) (attr : Attr)
    (file : ByteFile ino content state) :
    ∃ next a, handle rpc env (.getattr ino attr) state = (next, .OK, a) ∧
      a.size.toNat = content.length ∧ ByteFile ino content next := by
  obtain ⟨reads, sized, live, short⟩ := file
  have length := toNat_short short
  rcases ExtentClientCache.getattr_cases faithful attr with
    ⟨entry, ret, reply, here, ran, answer⟩ | ⟨absent, reply, ran, matching⟩
  · obtain ⟨rfl, rfl⟩ := answer (reads.not_removed entry here)
    refine ⟨state, entry.attr, ran, ?_, ⟨reads, sized, live, short⟩⟩
    obtain ⟨bare, full⟩ := sized entry here
    rcases reads with
      ⟨other, same, modified, rfl⟩ | ⟨other, same, copied, rfl, _⟩ | ⟨attributes, held⟩
    · cases here.symm.trans same
      rw [full (by simp [modified]), length]
    · cases here.symm.trans same
      rw [full (by simp [copied]), length]
    · obtain ⟨found, stored, rfl⟩ := Option.map_eq_some_iff.mp held
      rw [bare (attributes entry here) found stored, length]
  · have held := reads.held absent
    obtain ⟨found, stored, rfl⟩ := Option.map_eq_some_iff.mp held
    refine ⟨_, reply, ran, by rw [(matching found stored).2, length], .of_entry ?_ ?_ live short⟩
    · refine .inr (.inr ⟨fun entry here => ?_, held⟩)
      rw [← Option.some.inj here]
    · exact .attributes rfl fun other here => (matching other here).2

theorem put_bytes (rpc : Rpc Contents) (env : Ambient) {buf written : Bytes}
    (file : ByteFile ino content state) (same : buf = written) (short : written.length < 2 ^ 31) :
    ∃ next, handle rpc env (.put ino buf) state = (next, .OK) ∧ ByteFile ino written next := by
  subst same
  obtain ⟨attr, ran, size, _⟩ := ExtentClientCache.put_ok env buf file.reads.not_removed
  refine ⟨(Function.update state.1 ino (some ⟨buf, .MODIFIED, attr⟩), state.2), ?_,
    .of_entry (.inl ⟨_, rfl, rfl, rfl⟩) (.full _ (by simp) size) file.live short⟩
  simp only [handle, ran]

theorem flush_bytes (faithful : Faithful rpc) (env : Ambient) (file : ByteFile ino content state) :
    ∃ next ret, handle rpc env (.flush ino) state = (next, ret) ∧ ByteFile ino content next := by
  obtain ⟨ret, ran⟩ := ExtentClientCache.flush_ok faithful file.reads file.live
  obtain ⟨found, stored⟩ := Option.ne_none_iff_exists'.mp file.live
  refine ⟨_, ret, ran, .inr (.inr ⟨?_, ?_⟩), ?_, ?_, file.short⟩
  · simp only [Function.update_self]
    exact bare_none
  · simp [stored]
  · simp only [Function.update_self]
    exact slotSized_none _
  · simp [stored]

/-! ## The operations -/

theorem read_bytes (faithful : Faithful rpc) (env : Ambient) (size off : ℕ) (arg : Bytes)
    (file : ByteFile ino content state) :
    ∃ next, (read ino size off arg).run (handle rpc env) state =
        (next, Result.OK, slice content off size) ∧ ByteFile ino content next := by
  obtain ⟨next, got, kept⟩ := get_bytes faithful env arg file
  refine ⟨next, ?_, kept⟩
  simp only [YfsClient.read, perform_bind]
  rw [run_call_of (handle_acquire ..), run_call_of got, run_call_of (handle_release ..)]
  simp only [pure_eq, run_done, cases_eq_slice]

theorem getfile_bytes (faithful : Faithful rpc) (vars : Locals) (env : Ambient)
    (file : ByteFile ino content state) :
    ∃ next fin, (getfile vars ino).run (handle rpc env) state = (next, Result.OK, some fin) ∧
      fin.size.toNat = content.length ∧ ByteFile ino content next := by
  obtain ⟨next, a, asked, size, kept⟩ := getattr_bytes faithful env vars.attr file
  refine ⟨next, ⟨a.size.toUInt64, a.atime.toUInt64, a.mtime.toUInt64, a.ctime.toUInt64⟩, ?_, ?_,
    kept⟩
  · simp only [getfile, getInfo, perform_bind]
    rw [run_call_of (handle_acquire ..), run_call_of asked]
    simp only [ne_eq, not_true, if_false]
    exact run_call_of (handle_release ..)
  · exact size

theorem setattr_bytes (faithful : Faithful rpc) (vars : Locals) (env : Ambient) {size : ℕ}
    (file : ByteFile ino content state) (short : size < 2 ^ 31) :
    ∃ next, (setattr vars ino size).run (handle rpc env) state = (next, Result.OK) ∧
      ByteFile ino (cut 0 content size) next := by
  obtain ⟨asked, a, ran, known, kept⟩ := getattr_bytes faithful env vars.attr file
  obtain ⟨read, got, here⟩ := get_bytes faithful env [] kept
  have resized : (if a.size.toNat < size then content ++ List.replicate (size - a.size.toNat) 0
      else if size < a.size.toNat then content.take size else content) = cut 0 content size := by
    rw [known]
    split
    next grows => exact append_replicate_eq_cut grows.le
    next fits =>
      split
      next shrinks => exact take_eq_cut shrinks.le
      next exact_ =>
        obtain rfl : size = content.length := by omega
        exact cut_length.symm
  obtain ⟨next, put, after⟩ := put_bytes rpc env here resized (by rw [length_cut]; exact short)
  refine ⟨next, ?_, after⟩
  simp only [setattr, perform_bind]
  rw [run_call_of (handle_acquire ..), run_call_of ran]
  simp only [ne_eq, not_true, if_false]
  rw [run_call_of got, run_call_of put, run_call_of (handle_release ..)]
  rfl

theorem write_bytes (faithful : Faithful rpc) (env : Ambient) {off : ℕ} {data : Bytes}
    (file : ByteFile ino content state) (short : off + data.length < 2 ^ 31) :
    ∃ next, (write ino off data).run (handle rpc env) state = (next, Result.OK, data.length) ∧
      ByteFile ino (splice 0 content off data) next := by
  obtain ⟨read, got, here⟩ := get_bytes faithful env [] file
  have grown : (if content.length < data.length + off then resize content (off + data.length)
      else content) = cut 0 content (max content.length (off + data.length)) := by
    split
    next grows => rw [resize, take_append_replicate, Nat.max_eq_right (by omega)]
    next fits => rw [Nat.max_eq_left (by omega), cut_length]
  have replaced : (if content.length < data.length + off then resize content (off + data.length)
        else content).take off ++ data ++
      (if content.length < data.length + off then resize content (off + data.length)
        else content).drop (off + data.length) = splice 0 content off data := by
    rw [grown, replace_eq_splice]
  have limit : (splice 0 content off data).length < 2 ^ 31 := by
    rw [length_splice]
    exact max_lt file.short short
  obtain ⟨written, put, after⟩ := put_bytes rpc env here replaced limit
  obtain ⟨next, ret, flushed, last⟩ := flush_bytes faithful env after
  refine ⟨next, ?_, last⟩
  simp only [write, perform_bind]
  rw [run_call_of (handle_acquire ..), run_call_of got, run_call_of put, run_call_of flushed,
    run_call_of (handle_release ..)]
  rfl

/-- Each operation answers as the array does, and leaves the client with the new array. -/
theorem ByteFile.step {next : Table × Contents} {label : FileOp × FileReply}
    (file : ByteFile ino content state) (fits : label.1.Fits)
    (step : FileStep ino state label next) :
    label.1.Answers content label.2 ∧ ByteFile ino (label.1.apply content) next := by
  cases step with
  | write env faithful ran =>
    obtain ⟨_, did, kept⟩ := write_bytes faithful env file fits
    rw [ran] at did
    cases did
    exact ⟨rfl, kept⟩
  | setattr vars env faithful ran =>
    obtain ⟨_, did, kept⟩ := setattr_bytes faithful vars env file fits
    rw [ran] at did
    cases did
    exact ⟨rfl, kept⟩
  | @read _ _ _ size off _ _ env arg faithful ran =>
    obtain ⟨_, did, kept⟩ := read_bytes faithful env size off arg file
    rw [ran] at did
    cases did
    exact ⟨rfl, kept⟩
  | getfile vars env faithful ran =>
    obtain ⟨_, fin, did, size, kept⟩ := getfile_bytes faithful vars env file
    rw [ran] at did
    cases did
    exact ⟨⟨fin, rfl, size⟩, kept⟩
  | flush env faithful ran =>
    obtain ⟨_, _, did, kept⟩ := flush_bytes faithful env file
    rw [ran] at did
    cases did
    exact ⟨rfl, kept⟩

end Operations

/-- Every run on a file is a run on an array of bytes, with the same answers. -/
theorem file_refines {ino : Inum} {content : Bytes} (short : content.length < 2 ^ 31)
    {trace : List (FileOp × FileReply)} {state : Table × Contents}
    (run : Run (fileClient ino content) trace state) :
    ∃ bytes, Run (byteArray content) trace bytes ∧ ByteFile ino bytes state := by
  obtain ⟨bytes, abstractly, here⟩ := @Run.simulate _ _ _ (fileClient ino content)
    (byteArray content) (fun state bytes => ByteFile ino bytes state)
    (fun state opens => ⟨content, rfl, .of_opens opens short⟩)
    (fun state label next bytes _ file moves => by
      obtain ⟨answers, kept⟩ := file.step moves.1 moves.2
      exact ⟨_, ⟨rfl, answers⟩, kept⟩) _ _ run
  exact ⟨bytes, abstractly, here⟩

theorem file_refines_hole : ∃ bytes, Run (byteArray [])
    [(.write 2 [65, 66], .written 0 2), (.flush, .flushed), (.setattr 3, .set 0),
      (.read 9 1, .data 0 [0, 65])] bytes := by
  let env : Ambient := ⟨0, 0, 0, 0, 0, 0⟩
  have faithful := faithful_plain 2
  have begins : Run (fileClient 2 []) [] _ := .start (@Opens.created 2 (fun _ => none)
    (Function.update (fun _ => none) 2 (some ⟨.T_FILE, []⟩)) .T_FILE env 2 rfl)
  have written : Run (fileClient 2 []) [(.write 2 [65, 66], .written 0 2)] _ :=
    begins.extend ⟨(by decide : 2 + 2 < 2 ^ 31), .write env faithful rfl⟩
  have flushed : Run (fileClient 2 []) [(.write 2 [65, 66], .written 0 2), (.flush, .flushed)] _ :=
    written.extend ⟨trivial, .flush env faithful rfl⟩
  have set : Run (fileClient 2 []) [(.write 2 [65, 66], .written 0 2), (.flush, .flushed),
      (.setattr 3, .set 0)] _ :=
    flushed.extend ⟨(by decide : 3 < 2 ^ 31), .setattr ⟨⟨0, 0, 0, 0, 0⟩, 0⟩ env faithful rfl⟩
  have read : Run (fileClient 2 []) [(.write 2 [65, 66], .written 0 2), (.flush, .flushed),
      (.setattr 3, .set 0), (.read 9 1, .data 0 [0, 65])] _ :=
    set.extend ⟨(by decide : 1 + 9 < 2 ^ 31), .read env [] faithful rfl⟩
  obtain ⟨bytes, run, _⟩ := file_refines (by decide) read
  exact ⟨bytes, run⟩

end NaiveFileSystem.Yfs
