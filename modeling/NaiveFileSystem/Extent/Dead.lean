import NaiveFileSystem.Extent.Mapping
import NaiveFileSystem.Extent.Runs

/-!
# Requests on dead ids

An id is dead when it masks to 0, to a number behind the last inode, or to an inode
without a type. No handler rejects it: `getattr` answers with what it finds,
`get`, `put` and `remove` use the null inode of an id that has none, `remove` of an
inode without a type ends the process, and `put` gives such an inode blocks.
-/

namespace NaiveFileSystem.Extent

open LittleEndian BlockManager InodeManager Transition

/-- The extent server, whatever it is asked, as long as it answers, and whatever `sb.nblocks` held. -/
def serving : System InodeManager (Request × UInt32 × Reply) where
  init im := ∃ nblocks junk now, im = .init nblocks junk now
  step im label next := ExtentServer.serve im label.2.1 label.1 = .ok (next, label.2.2)

def Dead (im : InodeManager) (id : ℕ) : Prop := ¬ Live im (id &&& 0x7fffffff)

def Request.For (id : ℕ) : Request → Prop
  | .create _ => False
  | .put other _ | .get other | .getattr other | .remove other => other = id

def Reply.status : Reply → Status
  | .created ret _ | .data ret _ | .attr ret _ | .done ret => ret

/-- A status other than `OK`, and no live file, no live inode and no mark is another. -/
structure Rejected (im : InodeManager) (now : UInt32) (request : Request) (next : InodeManager)
    (reply : Reply) : Prop where
  answered : ExtentServer.serve im now request = .ok (next, reply)
  status : reply.status ≠ .OK
  live : ∀ inum, Live next inum ↔ Live im inum
  content : ∀ inum, Live im inum → ∀ later,
    (ExtentServer.get next inum later).map Prod.snd = (ExtentServer.get im inum later).map Prod.snd
  marks : ∀ block, next.bm.usingBlocks block ≠ 0 ↔ im.bm.usingBlocks block ≠ 0

section Requests

variable {im next : InodeManager} {id : ℕ} {now : UInt32} {request : Request} {reply : Reply}

theorem serve_status (ran : ExtentServer.serve im now request = .ok (next, reply)) :
    reply.status = .OK := by
  cases request with
  | create type =>
    cases took : im.allocInode type.code now with
    | error => simp [ExtentServer.serve, ExtentServer.create, took, bind, Except.bind] at ran
    | ok found =>
      simp only [ExtentServer.serve, ExtentServer.create, took, bind, Except.bind] at ran
      cases ran
      rfl
  | put other buf =>
    cases wrote : im.writeFile (other &&& 0x7fffffff) buf (.ofNat buf.length) now with
    | error => simp [ExtentServer.serve, ExtentServer.put, wrote, bind, Except.bind] at ran
    | ok after =>
      simp only [ExtentServer.serve, ExtentServer.put, wrote, bind, Except.bind] at ran
      cases ran
      rfl
  | get other =>
    cases read : im.readFile (other &&& 0x7fffffff) now with
    | error => simp [ExtentServer.serve, ExtentServer.get, read, bind, Except.bind] at ran
    | ok found =>
      simp only [ExtentServer.serve, ExtentServer.get, read, bind, Except.bind] at ran
      cases ran
      rfl
  | getattr other =>
    cases ran
    rfl
  | remove other =>
    cases removed : im.removeFile (other &&& 0x7fffffff) with
    | error => simp [ExtentServer.serve, ExtentServer.remove, removed, bind, Except.bind] at ran
    | ok after =>
      simp only [ExtentServer.serve, ExtentServer.remove, removed, bind, Except.bind] at ran
      cases ran
      rfl

/-- An id without an inode: three handlers use a null pointer, and one answers zeros. -/
theorem serve_null (outside : id &&& 0x7fffffff = 0 ∨ inodeNum < id &&& 0x7fffffff) :
    (∀ buf, ExtentServer.serve im now (.put id buf) = .error .undefined) ∧
    ExtentServer.serve im now (.get id) = .error .undefined ∧
    ExtentServer.serve im now (.remove id) = .error .undefined ∧
    ExtentServer.serve im now (.getattr id) = .ok (im, .attr .OK ⟨0, 0, 0, 0, 0⟩) := by
  have none : im.getInode (id &&& 0x7fffffff) = Option.none := if_pos outside
  have null : im.derefInode (id &&& 0x7fffffff) = .error .undefined := by rw [derefInode, none]
  refine ⟨fun buf => ?_, ?_, ?_, ?_⟩
  · simp only [ExtentServer.serve, ExtentServer.put, writeFile, null, bind, Except.bind]
  · simp only [ExtentServer.serve, ExtentServer.get, readFile, null, bind, Except.bind]
  · simp only [ExtentServer.serve, ExtentServer.remove, removeFile, null, bind, Except.bind]
  · simp only [ExtentServer.serve, ExtentServer.getattr, InodeManager.getattr, none]

theorem remove_typeless (real : IsInode id) (free : (record im.bm.blocks id).type = 0)
    (bound : blocksOf im.bm id ≤ maxfile)
    (table : ndirect < blocksOf im.bm id → isBlockrwLegal (record im.bm.blocks id).table = true) :
    ExtentServer.serve im now (.remove id) = .error .exit := by
  obtain ⟨bm, ran, freed⟩ := @freeBlocks_ok im.bm (record im.bm.blocks id) 0 (blocksOf im.bm id)
    (by rwa [Nat.zero_add]) (by rwa [Nat.zero_add])
  rw [blocksOf] at ran
  simp only [ExtentServer.serve, ExtentServer.remove, mask_eq real, removeFile, derefInode_eq real,
    ran, freeInode, getInode_eq real, freed.blocks, free, bind, Except.bind, if_true]

theorem serve_put {buf : List UInt8} (real : IsInode id)
    (ran : im.writeFile id buf (.ofNat buf.length) now = .ok next) :
    ExtentServer.serve im now (.put id buf) = .ok (next, .done .OK) := by
  simp only [ExtentServer.serve, ExtentServer.put, mask_eq real, ran, bind, Except.bind]

theorem put_typeless (real : IsInode id) (empty : (record im.bm.blocks id).size = 0)
    (cursor : Cursor im.bm) (room : 0 < im.bm.freeCount) (byte : UInt8) :
    ∃ next block, ExtentServer.serve im now (.put id [byte]) = .ok (next, .done .OK) ∧
      im.bm.usingBlocks block = 0 ∧ next.bm.usingBlocks block ≠ 0 := by
  have none : blocksOf im.bm id = 0 := by
    rw [blocksOf, empty]
    rfl
  have one : blockCount (UInt32.ofNat [byte].length).toNat = 1 := by
    rw [List.length_singleton]
    rfl
  obtain ⟨found, block, took, data, unused, disk, marked, _⟩ := allocBlock_ok cursor room
  obtain ⟨after, ino, allocated, _, _, maps, _, marks, _⟩ := @allocNthBlock_ok im.bm
    (record im.bm.blocks id) 0 (by simp) (fun far => absurd far (by simp)) found block took disk
  have resized : im.bm.resizeBlocks (record im.bm.blocks id) (blocksOf im.bm id)
      (blockCount (UInt32.ofNat [byte].length).toNat) = .ok (after, ino) := by
    rw [none, one]
    exact resizeBlocks_one allocated
  have writable : Writable after.blocks ino 1 := by
    refine ⟨by simp, fun far => absurd far (by simp), fun nth below => ?_,
      fun nth other below below' _ => by omega, fun far => absurd far (by simp)⟩
    obtain rfl : nth = 0 := by omega
    rw [maps 0 (by simp), if_pos rfl]
    exact data.legal
  have ready : Writable after.blocks { ino with size := .ofNat [byte].length }
      (blockCount (UInt32.ofNat [byte].length).toNat) := by
    rw [one]
    exact writable.congr rfl fun _ => rfl
  obtain ⟨disk, wrote, written⟩ := writeBlocks_ok (toNat_length (by simp)) ready
  have ran := @writeFile_eq _ _ _ _ now _ _ _ real resized wrote
  refine ⟨_, block, serve_put real ran, unused, ?_⟩
  rw [usingBlocks_putInode real, written.marks, marks, marked, Function.update_self]
  decide

/-- No request on a dead id is rejected. -/
theorem dead_not_rejected : ∀ im, Reachable serving im → ∀ id, Dead im id →
    ∀ request now, request.For id → ¬ ∃ next reply, Rejected im now request next reply := by
  rintro im _ id _ request now _ ⟨next, reply, rejected⟩
  exact rejected.status (serve_status rejected.answered)

end Requests

/-! ## On a fresh server -/

section Fresh

/-- The server as it starts. -/
def freshServer : InodeManager := .init blockNum (fun _ => 0) 0

theorem freshServer_reachable : Reachable serving freshServer := ⟨[], .start ⟨_, _, _, rfl⟩⟩

theorem record_freshServer {id : ℕ} (real : IsInode id) (notRoot : id ≠ 1) :
    record freshServer.bm.blocks id = ⟨0, 0, 0, 0, 0, fun _ => 0⟩ := by
  have put := @record_putInode ⟨.init blockNum, 0⟩ 1 isInode_one ⟨1, 0, 0, 0, 0, fun _ => 0⟩ id real
  rw [if_neg notRoot] at put
  refine put.trans ?_
  simp only [record, BlockManager.init, Inode.ofBlock, loadWord, load_zero]
  rfl

theorem dead_freshServer : Dead freshServer 2 := by
  intro live
  refine live.2 ?_
  rw [mask_eq isInode_two, record_freshServer isInode_two (by decide)]

theorem dead_not_rejected_two :
    ¬ ∃ next reply, Rejected freshServer 0 (.getattr 2) next reply :=
  dead_not_rejected freshServer freshServer_reachable 2 dead_freshServer (.getattr 2) 0 rfl

/-- Four requests on dead ids: `getattr` answers `OK`, `put` takes a block, `get` uses a null
inode, and `remove` ends the process. -/
theorem dead_requests :
    (ExtentServer.serve freshServer 0 (.getattr 2) = .ok (freshServer, .attr .OK ⟨0, 0, 0, 0, 0⟩) ∧
      (∃ next block, ExtentServer.serve freshServer 0 (.put 2 [120]) = .ok (next, .done .OK) ∧
        freshServer.bm.usingBlocks block = 0 ∧ next.bm.usingBlocks block ≠ 0) ∧
      ExtentServer.serve freshServer 0 (.get 0) = .error .undefined ∧
      ExtentServer.serve freshServer 0 (.remove 2) = .error .exit) ∧
    ¬ ∀ im, Reachable serving im → ∀ id, Dead im id → ∀ request now, request.For id →
      ∃ next reply, Rejected im now request next reply := by
  have record_two := record_freshServer isInode_two (by decide)
  have represents : Represents freshServer .initial := .init _ _
  have none : blocksOf freshServer.bm 2 = 0 := by
    rw [blocksOf, record_two]
    rfl
  refine ⟨⟨?_, ?_, ?_, ?_⟩, fun claim => ?_⟩
  · simp only [ExtentServer.serve, ExtentServer.getattr, mask_eq isInode_two, InodeManager.getattr,
      getInode_eq isInode_two, record_two]
    rfl
  · refine put_typeless isInode_two (by rw [record_two]) represents.cursor ?_ 120
    have room := represents.room
    rw [Store.total_initial] at room
    simp only [blockNum, dataStart, blockSize] at room
    omega
  · exact (@serve_null freshServer 0 0 (.inl rfl)).2.1
  · exact remove_typeless isInode_two (by rw [record_two]) (by rw [none]; exact Nat.zero_le _)
      fun far => absurd far (by rw [none]; exact Nat.not_lt_zero _)
  · obtain ⟨next, reply, rejected⟩ :=
      claim freshServer freshServer_reachable 2 dead_freshServer (.getattr 2) 0 rfl
    exact rejected.status (serve_status rejected.answered)

end Fresh

end NaiveFileSystem.Extent
