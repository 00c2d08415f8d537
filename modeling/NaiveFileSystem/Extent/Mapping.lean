import NaiveFileSystem.Extent.Inodes
import NaiveFileSystem.Extent.Runs

/-!
# Files on any disk

What writing a file and reading it back needs on a disk of which nothing is known:
the blocks of the file are legal and apart, and none of them was its indirect block
when the data went out. A file whose table lists itself is the reason for the last.
-/

namespace NaiveFileSystem.Extent

open LittleEndian BlockManager InodeManager Transition

/-! ## What resizing leaves alone -/

namespace BlockManager

variable {bm next : BlockManager} {ino final : Inode}

theorem allocBlock_blocks {id : BlockId} (took : bm.allocBlock = .ok (next, id)) :
    next.blocks = bm.blocks := by
  have found : ∀ {first last start : ℕ}, bm.findFitBlock first last start = some (next, id) →
      next.blocks = bm.blocks := by
    intro first last start found
    obtain ⟨_, _, _, _, same⟩ := findFitBlock_some found
    cases same
    rfl
  cases ahead : bm.findFitBlock bm.nextBlock blockNum (iblock inodeNum blockNum + 1) with
  | some one =>
    simp only [allocBlock, ahead, Except.ok.injEq] at took
    exact found (ahead.trans (congrArg some took))
  | none =>
    cases behind : bm.findFitBlock (iblock inodeNum blockNum + 1) bm.nextBlock
        (iblock inodeNum blockNum + 1) with
    | some one =>
      simp only [allocBlock, ahead, behind, Except.ok.injEq] at took
      exact found (behind.trans (congrArg some took))
    | none => simp only [allocBlock, ahead, behind, reduceCtorEq] at took

theorem writeBlock_of_ne {id other : BlockId} {buf : Block} (apart : other ≠ id) :
    (bm.writeBlock id buf).blocks other = bm.blocks other := by
  unfold writeBlock
  split
  next => exact Function.update_of_ne apart _ _
  next => rfl

theorem allocNthBlock_frame {k : ℕ} (ran : bm.allocNthBlock ino k = .ok (next, final)) :
    final.table = ino.table ∧
      ∀ id, id ≠ ino.table ∨ k < ndirect → next.blocks id = bm.blocks id := by
  cases took : bm.allocBlock with
  | error fault => simp [allocNthBlock, took, bind, Except.bind] at ran
  | ok found =>
    have disk := allocBlock_blocks took
    simp only [allocNthBlock, took, bind, Except.bind] at ran
    rcases Nat.lt_or_ge k ndirect with direct | far
    · rw [dif_pos direct] at ran
      cases ran
      refine ⟨Function.update_of_ne (fun same => ?_) _ _, fun id _ => congrFun disk id⟩
      exact absurd (congrArg Fin.val same) (Nat.ne_of_gt direct)
    · rw [dif_neg (Nat.not_lt.mpr far)] at ran
      split at ran
      next =>
        split at ran
        next =>
          cases ran
          exact ⟨rfl, fun id _ => congrFun disk id⟩
        next =>
          cases ran
          refine ⟨rfl, fun id apart => ?_⟩
          rw [writeBlock_of_ne (apart.resolve_right (Nat.not_lt.mpr far)), disk]
      next => cases ran

theorem freeNthBlock_blocks {k : ℕ} (ran : bm.freeNthBlock ino k = .ok next) :
    next.blocks = bm.blocks := by
  simp only [freeNthBlock, bind, Except.bind] at ran
  split at ran
  next => cases ran
  next =>
    cases ran
    rfl

theorem resizeBlocks_frame {before after : ℕ}
    (ran : bm.resizeBlocks ino before after = .ok (next, final)) :
    final.table = ino.table ∧
      ∀ id, id ≠ ino.table ∨ after ≤ ndirect → next.blocks id = bm.blocks id := by
  rcases Nat.lt_or_ge after before with shrinks | grows
  · rw [resizeBlocks, if_pos shrinks, freeBlocks] at ran
    cases freed :
      Loop.counted (fun nth bm => bm.freeNthBlock ino nth) after (before - after) bm with
    | error => simp [freed, bind, Except.bind] at ran
    | ok middle =>
      simp only [freed, bind, Except.bind] at ran
      cases ran
      have kept := @Loop.counted_keeps _ _ _ (fun _ state => state.blocks = bm.blocks) _ _
        (fun k state later _ _ same step => (freeNthBlock_blocks step).trans same) _ _ rfl freed
      exact ⟨rfl, fun id _ => congrFun kept id⟩
  · rw [resizeBlocks, if_neg (Nat.not_lt.mpr grows), allocBlocks] at ran
    refine @Loop.counted_keeps _ _ _ (fun _ (state : BlockManager × Inode) =>
      state.2.table = ino.table ∧
        ∀ id, id ≠ ino.table ∨ after ≤ ndirect → state.1.blocks id = bm.blocks id) _ _
      (fun k state later _ high same step => ?_) _ _ ⟨rfl, fun _ _ => rfl⟩ ran
    obtain ⟨tables, kept⟩ := same
    obtain ⟨moved, frame⟩ := allocNthBlock_frame step
    refine ⟨moved.trans tables, fun id apart => ?_⟩
    rw [frame id (by rw [tables]; exact apart.imp_right (by omega))]
    exact kept id apart

theorem writeNthBlock_table {content : List UInt8} {k : ℕ} (bound : k < maxfile)
    (table : isBlockrwLegal ino.table = true) (apart : mapped bm.blocks ino k ≠ ino.table)
    (ran : bm.writeNthBlock ino k content = .ok next) :
    next.blocks ino.table = bm.blocks ino.table := by
  rw [writeNthBlock, getNthBlock_eq bound fun _ => table] at ran
  cases ran
  exact writeBlock_of_ne apart.symm

/-- The table stays as long as no index has it for its block. -/
theorem writeBlocks_table {buf : List UInt8} {size : ℕ} (bound : blockCount size ≤ maxfile)
    (table : isBlockrwLegal ino.table = true)
    (apart : ∀ nth, nth < blockCount size → mapped bm.blocks ino nth ≠ ino.table)
    (ran : bm.writeBlocks ino buf size = .ok next) :
    next.blocks ino.table = bm.blocks ino.table := by
  have pass : ∀ (k : ℕ) (state later : BlockManager) (content : List UInt8), k < blockCount size →
      state.blocks ino.table = bm.blocks ino.table →
      state.writeNthBlock ino k content = .ok later →
      later.blocks ino.table = bm.blocks ino.table := by
    intro k state later content below same step
    have here : mapped state.blocks ino k ≠ ino.table := by
      rw [mapped_congr rfl fun _ => same]
      exact apart k below
    rw [writeNthBlock_table (lt_of_lt_of_le below bound) table here step, same]
  simp only [writeBlocks] at ran
  split at ran
  next =>
    cases ran
    rfl
  next some_ =>
    cases wrote : Loop.counted
      (fun nth bm => bm.writeNthBlock ino nth (assign buf (blockSize * nth) blockSize))
      0 (blockCount size - 1) bm with
    | error => simp [wrote, bind, Except.bind] at ran
    | ok middle =>
      simp only [wrote, bind, Except.bind] at ran
      have kept := @Loop.counted_keeps _ _ _
        (fun _ (state : BlockManager) => state.blocks ino.table = bm.blocks ino.table) _ _
        (fun k state later _ high same step => pass k state later _ (by omega) same step)
        _ _ rfl wrote
      exact pass _ middle next _ (by omega) kept ran

end BlockManager

/-! ## Writing a file and reading it back -/

/-- Where `get_nth_block` finds a file of `size` bytes: its blocks are legal and apart
from each other, from the block of the inode and from the indirect block, if that is needed. -/
structure Laid (bm : BlockManager) (ino : Inode) (inum size : ℕ) : Prop where
  legal : ∀ nth, nth < blockCount size → ∃ id, bm.getNthBlock ino nth = .ok id ∧
    isBlockrwLegal id = true ∧ id ≠ .ofNat (iblock inum blockNum)
  distinct : ∀ nth other id, nth < blockCount size → other < blockCount size →
    bm.getNthBlock ino nth = .ok id → bm.getNthBlock ino other = .ok id → nth = other
  table : ndirect * blockSize < size → isBlockrwLegal ino.table = true ∧
    ino.table ≠ .ofNat (iblock inum blockNum) ∧
    ∀ nth, nth < blockCount size → bm.getNthBlock ino nth ≠ .ok ino.table

/-- The file reads as `buf`, and only its blocks, its record and its indirect block differ. -/
structure ReadsBack (im : InodeManager) (inum : ℕ) (buf : List UInt8) (next : InodeManager)
    (ino : Inode) : Prop where
  read : ∀ later, ∃ final rv size, next.readFile inum later = .ok (final, rv, size) ∧
    size.toNat = buf.length ∧ rv.take buf.length = buf
  frame : ∀ block, (∀ nth, nth < blockCount buf.length → next.bm.getNthBlock ino nth ≠ .ok block) →
    block ≠ .ofNat (iblock inum blockNum) →
    (ndirect * blockSize < buf.length → block ≠ ino.table) →
    next.bm.blocks block = im.bm.blocks block

/-- None of the blocks that the data goes to is the indirect block. -/
def AwayFromTable (im : InodeManager) (inum size : ℕ) : Prop :=
  ∀ old bm ino, im.getInode inum = some old →
    im.bm.resizeBlocks old (blockCount old.size.toNat) (blockCount size) = .ok (bm, ino) →
    ndirect * blockSize < size → ∀ nth, nth < blockCount size →
      bm.getNthBlock ino nth ≠ .ok ino.table

section RoundTrip

variable {im next : InodeManager} {inum : ℕ} {buf : List UInt8} {now : UInt32} {ino : Inode}

theorem far_iff {size : ℕ} : ndirect * blockSize < size ↔ ndirect < blockCount size := by
  simp only [blockCount, ndirect, blockSize]
  split <;> omega

theorem Laid.getNthBlock {bm : BlockManager} {size nth : ℕ} (laid : Laid bm ino inum size)
    (bound : size ≤ maxfile * blockSize) (below : nth < blockCount size) :
    bm.getNthBlock ino nth = .ok (mapped bm.blocks ino nth) :=
  getNthBlock_eq (lt_of_lt_of_le below (blockCount_le bound)) fun far =>
    (laid.table (far_iff.mpr (lt_of_le_of_lt far below))).1

theorem Laid.writable {bm : BlockManager} {size : ℕ} (laid : Laid bm ino inum size)
    (bound : size ≤ maxfile * blockSize) : Writable bm.blocks ino (blockCount size) where
  bound := blockCount_le bound
  table far := (laid.table (far_iff.mpr far)).1
  legal nth below := by
    obtain ⟨id, found, legal, _⟩ := laid.legal nth below
    rw [laid.getNthBlock bound below] at found
    cases found
    exact legal
  distinct nth other below below' same := by
    refine laid.distinct nth other _ below below' (laid.getNthBlock bound below) ?_
    rw [laid.getNthBlock bound below', same]
  apart far nth below same := by
    refine (laid.table (far_iff.mpr far)).2.2 nth below ?_
    rw [laid.getNthBlock bound below, same]

theorem Laid.ne_own {bm : BlockManager} {size nth : ℕ} (laid : Laid bm ino inum size)
    (bound : size ≤ maxfile * blockSize) (below : nth < blockCount size) :
    mapped bm.blocks ino nth ≠ .ofNat (iblock inum blockNum) := by
  obtain ⟨id, found, _, apart⟩ := laid.legal nth below
  rw [laid.getNthBlock bound below] at found
  cases found
  exact apart

theorem writeFile_parts {size : UInt32} (real : IsInode inum)
    (ran : im.writeFile inum buf size now = .ok next) :
    ∃ bm final disk, im.bm.resizeBlocks (record im.bm.blocks inum) (blocksOf im.bm inum)
        (blockCount size.toNat) = .ok (bm, final) ∧
      bm.writeBlocks { final with size := size } buf size.toNat = .ok disk ∧
      next = ({ im with bm := disk } : InodeManager).putInode inum
        { final with size := size, atime := now, mtime := now, ctime := now } := by
  cases resized : im.bm.resizeBlocks (record im.bm.blocks inum) (blocksOf im.bm inum)
      (blockCount size.toNat) with
  | error fault =>
    rw [blocksOf] at resized
    simp [writeFile, derefInode_eq real, bind, Except.bind, resized] at ran
  | ok state =>
    obtain ⟨bm, final⟩ := state
    cases wrote : bm.writeBlocks { final with size := size } buf size.toNat with
    | error fault =>
      rw [blocksOf] at resized
      simp [writeFile, derefInode_eq real, bind, Except.bind, resized, wrote] at ran
    | ok disk =>
      rw [writeFile_eq real resized wrote] at ran
      cases ran
      exact ⟨bm, final, disk, rfl, wrote, rfl⟩

theorem AwayFromTable.kept {bm disk : BlockManager} {final : Inode} {given : UInt32} {size : ℕ}
    (away : AwayFromTable im inum size) (real : IsInode inum) (bound : size ≤ maxfile * blockSize)
    (resized : im.bm.resizeBlocks (record im.bm.blocks inum) (blocksOf im.bm inum)
      (blockCount size) = .ok (bm, final))
    (wrote : bm.writeBlocks { final with size := given } buf size = .ok disk)
    (far : ndirect * blockSize < size) (legal : isBlockrwLegal final.table = true) :
    disk.blocks final.table = bm.blocks final.table := by
  have fits := blockCount_le bound
  refine @writeBlocks_table bm disk { final with size := given } buf size fits legal
    (fun nth below same => ?_) wrote
  refine away _ bm final (getInode_eq real) resized far nth below ?_
  rw [getNthBlock_eq (lt_of_lt_of_le below fits) fun _ => legal]
  exact congrArg Except.ok same

/-- What is written to a file is read back, and nothing else changes. -/
theorem writeFile_readsBack (live : Live im inum) (bound : buf.length ≤ maxfile * blockSize)
    (ran : im.writeFile inum buf (.ofNat buf.length) now = .ok next)
    (found : next.getInode inum = some ino) (laid : Laid next.bm ino inum buf.length)
    (away : AwayFromTable im inum buf.length) : ReadsBack im inum buf next ino := by
  have whole := toNat_length bound
  have real := live.1
  obtain ⟨bm, final, disk, resized, wrote, put⟩ := writeFile_parts real ran
  rw [whole] at resized wrote
  obtain ⟨tables, grown⟩ := resizeBlocks_frame resized
  have own : record next.bm.blocks inum = ino := by
    rw [getInode_eq real] at found
    exact Option.some.inj found
  have written_ino : ino = { final with
      size := .ofNat buf.length, atime := now, mtime := now, ctime := now } := by
    rw [← own, put, record_putInode real _ real, if_pos rfl]
  have entries : final.blocks = ino.blocks := by rw [written_ino]
  have same_table : final.table = ino.table := congrFun entries _
  have after_put : ∀ block, block ≠ .ofNat (iblock inum blockNum) →
      next.bm.blocks block = disk.blocks block := by
    intro block apart
    rw [iblock_eq] at apart
    rw [put]
    exact blocks_putInode real _ apart
  -- The blocks are found where the data was written.
  have table_kept : ndirect < blockCount buf.length →
      bm.blocks ino.table = next.bm.blocks ino.table := by
    intro far
    obtain ⟨legal, apart, _⟩ := laid.table (far_iff.mpr far)
    rw [after_put _ apart]
    rw [← same_table] at legal ⊢
    exact (away.kept real bound resized wrote (far_iff.mpr far) legal).symm
  have places : ∀ nth, nth < blockCount buf.length →
      mapped bm.blocks { final with size := .ofNat buf.length } nth =
        mapped next.bm.blocks ino nth := mapped_kept entries.symm table_kept
  have writable : Writable bm.blocks { final with size := .ofNat buf.length }
      (blockCount buf.length) := (laid.writable bound).congr entries.symm table_kept
  obtain ⟨disk', wrote', written⟩ := writeBlocks_ok rfl writable
  rw [wrote] at wrote'
  cases wrote'
  have content : Content next.bm.blocks ino buf := by
    intro nth below index _
    rw [after_put _ (laid.ne_own bound below), ← places nth below, written.written nth below]
    rfl
  refine ⟨fun later => ?_, fun block data record_ table => ?_⟩
  · have size : (record next.bm.blocks inum).size.toNat = buf.length := by
      rw [own, written_ino, whole]
    obtain ⟨last, rv, read, bytes, _⟩ := readFile_ok later real size
      (by rw [own]; exact laid.writable bound) (by rw [own]; exact content)
    exact ⟨last, rv, _, read, size, bytes⟩
  · have outside : ∀ nth, nth < blockCount buf.length →
        mapped bm.blocks { final with size := .ofNat buf.length } nth ≠ block := by
      intro nth below same
      rw [places nth below] at same
      exact data nth below (same ▸ laid.getNthBlock bound below)
    rw [after_put block record_, written.kept block outside]
    refine grown block ?_
    rcases Nat.lt_or_ge ndirect (blockCount buf.length) with far | near
    · refine .inl ?_
      rw [← tables, same_table]
      exact table (far_iff.mpr far)
    · exact .inr near

/-- The files that the server keeps are laid out so. -/
theorem Placed.laid {bm : BlockManager} {size : ℕ} (placed : Placed bm ino (blockCount size))
    (real : IsInode inum) : Laid bm ino inum size := by
  have found : ∀ nth, nth < blockCount size →
      bm.getNthBlock ino nth = .ok (mapped bm.blocks ino nth) := fun nth below =>
    getNthBlock_eq (lt_of_lt_of_le below placed.bound) fun far =>
      (placed.table (lt_of_le_of_lt far below)).legal
  refine ⟨fun nth below => ⟨_, found nth below, (placed.data nth below).legal, ?_⟩,
    fun nth other id below below' here there => ?_, fun far => ?_⟩
  · rw [iblock_eq]
    exact (placed.data nth below).ne_inodeBlock real
  · rw [found nth below, ← there, found other below', Except.ok.injEq] at here
    exact placed.distinct nth other below below' here
  · have front := placed.table (far_iff.mp far)
    refine ⟨front.legal, ?_, fun nth below same => ?_⟩
    · rw [iblock_eq]
      exact front.ne_inodeBlock real
    · rw [found nth below, Except.ok.injEq] at same
      exact front.ne_data (placed.data nth below) same.symm

theorem Placed.awayFromTable {size : ℕ} (real : IsInode inum)
    (placed : Placed im.bm (record im.bm.blocks inum) (blocksOf im.bm inum)) (cursor : Cursor im.bm)
    (bound : blockCount size ≤ maxfile)
    (table : ndirect < blockCount size → IsFront (record im.bm.blocks inum).table)
    (room : blockCount size ≤ blocksOf im.bm inum + im.bm.freeCount) :
    AwayFromTable im inum size := by
  intro old bm final found resized far
  rw [getInode_eq real] at found
  rw [← Option.some.inj found] at resized
  obtain ⟨_, _, ran, shape⟩ := resize_ok placed cursor bound table room
  cases ran.symm.trans resized
  exact (@Placed.laid inum final bm size shape.placed real).table far |>.2.2

end RoundTrip

/-- The second of two files, two bytes long so far, is written beyond the direct entries. -/
theorem writeFile_readsBack_grown : ∃ im next ino, Reachable served (im, twoWritten) ∧
    im.writeFile 3 (beyond 98) (.ofNat (beyond 98).length) 0 = .ok next ∧
    next.getInode 3 = some ino ∧ ndirect * blockSize < (beyond 98).length ∧
    ReadsBack im 3 (beyond 98) next ino := by
  obtain ⟨im, reachable⟩ := twoWritten_reachable
  have represents : Represents im twoWritten := represents_of_reachable reachable
  have real : IsInode 3 := by simp [IsInode]
  have count := represents.blocksOf_eq twoWritten_three
  have placed : Placed im.bm (record im.bm.blocks 3) (blocksOf im.bm 3) :=
    count ▸ represents.placed 3 _ twoWritten_three
  have table : ndirect < blockCount (beyond 98).length → IsFront (record im.bm.blocks 3).table := by
    rw [represents.table 3 real (by decide)]
    exact fun _ => isFront_zero
  have room : blockCount (beyond 98).length ≤ blocksOf im.bm 3 + im.bm.freeCount := by
    have free := represents.room
    rw [total_twoWritten] at free
    rw [blockCount_beyond]
    simp at free ⊢
    omega
  obtain ⟨next, ran, rewritten⟩ :=
    writeFile_ok 0 real placed represents.cursor (beyond_fits 98) table room
  refine ⟨im, next, record next.bm.blocks 3, reachable, ran, getInode_eq real,
    by rw [length_beyond]; simp, ?_⟩
  refine writeFile_readsBack ⟨real, ?_⟩ (beyond_fits 98) ran (getInode_eq real)
    (rewritten.placed.laid real) (placed.awayFromTable real represents.cursor
      (blockCount_le (beyond_fits 98)) table room)
  rw [represents.type 3 _ twoWritten_three]
  exact code_ne_zero _

/-! ## A table that lists itself -/

section Tangled

/-- The indirect block of inode 2 is block 1500. -/
def tangledInode (size : UInt32) : Inode where
  type := 2
  size := size
  atime := 0
  mtime := 0
  ctime := 0
  blocks index := if index = Fin.last ndirect then 1500 else .ofNat (2000 + index)

def tangled (size : UInt32) : InodeManager where
  bm := {
    nextBlock := dataStart
    blocks := fun id =>
      if id = 13 then (tangledInode size).toBlock fun _ => 0
      else if id = 1500 then storeWord (fun _ => 0) 0 1500
      else fun _ => 0
    usingBlocks := fun _ => 1 }
  nextInum := 3

variable {size : UInt32} {nth : ℕ}

theorem isInode_two : IsInode 2 := ⟨by simp, by simp⟩

theorem record_tangled : record (tangled size).bm.blocks 2 = tangledInode size :=
  Inode.ofBlock_toBlock _ _

theorem live_tangled : Live (tangled size) 2 := by
  refine ⟨isInode_two, ?_⟩
  rw [record_tangled]
  exact (by decide : (2 : Int16) ≠ 0)

theorem table_tangled : (tangledInode size).table = 1500 := by
  simp only [Inode.table, tangledInode, if_true]

theorem mapped_tangled {blocks : BlockId → Block} {ino : Inode}
    (entries : ino.blocks = (tangledInode size).blocks) (direct : nth < ndirect) :
    mapped blocks ino nth = .ofNat (2000 + nth) := by
  rw [mapped_direct direct, entries]
  exact if_neg fun same => absurd (congrArg Fin.val same) (Nat.ne_of_lt direct)

theorem tangled_bound (direct : nth < ndirect) : 2000 + nth < blockNum :=
  (Nat.add_lt_add_left direct 2000).trans (by decide)

theorem writable_tangled {blocks : BlockId → Block} {ino : Inode}
    (entries : ino.blocks = (tangledInode size).blocks) : Writable blocks ino ndirect where
  bound := by simp
  table far := absurd far (lt_irrefl _)
  legal nth below := by
    rw [mapped_tangled entries below]
    exact (isData_ofNat ((by decide : dataStart ≤ 2000).trans (Nat.le_add_right _ _))
      (tangled_bound below)).legal
  distinct nth other below below' same := by
    rw [mapped_tangled entries below, mapped_tangled entries below'] at same
    have := ofNat_injective (tangled_bound below) (tangled_bound below') same
    omega
  apart far := absurd far (lt_irrefl _)

theorem resizeBlocks_same {bm : BlockManager} {ino : Inode} {count : ℕ} :
    bm.resizeBlocks ino count count = .ok (bm, ino) := by
  rw [resizeBlocks, if_neg (lt_irrefl count), allocBlocks, Nat.sub_self]
  rfl

theorem writeFile_tangled {buf : List UInt8} {disk : BlockManager}
    (wrote : (tangled size).bm.writeBlocks (tangledInode size) buf size.toNat = .ok disk) :
    (tangled size).writeFile 2 buf size 0 =
      .ok (({ tangled size with bm := disk } : InodeManager).putInode 2 (tangledInode size)) := by
  have resized : (tangled size).bm.resizeBlocks (record (tangled size).bm.blocks 2)
      (blocksOf (tangled size).bm 2) (blockCount size.toNat) =
        .ok ((tangled size).bm, tangledInode size) := by
    have count : blocksOf (tangled size).bm 2 = blockCount size.toNat := by
      rw [blocksOf, record_tangled, tangledInode]
    rw [count, record_tangled, resizeBlocks_same]
  exact @writeFile_eq (tangled size) 2 buf size 0 _ disk (tangledInode size) isInode_two resized
    wrote

/-- A hundred blocks of zeros and the number 3000. -/
def tangledBuf : List UInt8 := List.replicate 51200 0 ++ [184, 11, 0, 0]

theorem length_tangledBuf : tangledBuf.length = 51204 := by
  rw [tangledBuf, List.length_append, List.length_replicate]
  rfl

theorem tangledBuf_zero {position : ℕ} (early : position < 51200) :
    tangledBuf.getD position 0 = 0 := by
  rw [tangledBuf, List.getD_eq_getElem?_getD,
    List.getElem?_append_left (by rw [List.length_replicate]; exact early),
    List.getElem?_replicate, if_pos early, Option.getD_some]

theorem chunk_tangledBuf : chunk tangledBuf 100 = blockOf [184, 11, 0, 0] := by
  funext index
  have behind : (List.replicate 51200 (0 : UInt8)).length ≤ blockSize * 100 + index := by
    rw [List.length_replicate]
    exact Nat.le_add_right _ _
  rw [chunk, tangledBuf, List.getD_eq_getElem?_getD, List.getElem?_append_right behind,
    List.length_replicate,
    show blockSize * 100 + index.val - 51200 = index.val from Nat.add_sub_cancel_left _ _]
  exact (List.getD_eq_getElem?_getD ..).symm

/-- The last chunk goes to block 1500 and makes it list block 3000. -/
theorem writeFile_tangledBuf : ∃ next, (tangled 51204).writeFile 2 tangledBuf 51204 0 = .ok next ∧
    next.getInode 2 = some (tangledInode 51204) ∧
    (∀ nth, nth < ndirect → next.bm.blocks (.ofNat (2000 + nth)) = chunk tangledBuf nth) ∧
    next.bm.blocks 1500 = chunk tangledBuf 100 ∧ next.bm.blocks 3000 = fun _ => 0 := by
  obtain ⟨middle, content, written, bytes, ran⟩ := @writeBlocks_last (tangled 51204).bm
    (tangledInode 51204) tangledBuf 51204 100 length_tangledBuf.symm rfl (writable_tangled rfl)
  have table : (tangledInode 51204).table = 1500 := table_tangled
  have apart : ∀ (id : ℕ), id < blockNum → (id < 2000 ∨ 2100 ≤ id) → ∀ nth, nth < 100 →
      mapped (tangled 51204).bm.blocks (tangledInode 51204) nth ≠ .ofNat id := by
    intro id bound outside nth below same
    rw [mapped_tangled rfl below] at same
    have := ofNat_injective (tangled_bound below) bound same
    omega
  have last : middle.getNthBlock (tangledInode 51204) 100 = .ok 1500 := by
    rw [getNthBlock_eq (by simp) fun _ => by rw [table]; rfl, mapped_indirect (by simp), table,
      written.kept 1500 (apart 1500 (by simp) (.inl (by decide)))]
    exact congrArg Except.ok (loadWord_storeWord_same _ (by decide))
  have wrote : (tangled 51204).bm.writeBlocks (tangledInode 51204) tangledBuf 51204 =
      .ok (middle.writeBlock 1500 (chunk tangledBuf 100)) := by
    rw [ran, writeNthBlock, last, bytes]
    rfl
  have away : ∀ id : BlockId, id ≠ 13 → id ≠ 1500 →
      (({ tangled 51204 with bm := middle.writeBlock 1500 (chunk tangledBuf 100) } :
        InodeManager).putInode 2 (tangledInode 51204)).bm.blocks id = middle.blocks id := by
    intro id record_ data
    rw [blocks_putInode isInode_two _ record_]
    exact writeBlock_of_ne data
  refine ⟨_, writeFile_tangled wrote, ?_, fun nth below => ?_, ?_, ?_⟩
  · rw [getInode_eq isInode_two, record_putInode isInode_two _ isInode_two, if_pos rfl]
  · have here := written.written nth below
    rw [mapped_tangled rfl below] at here
    have outside : ∀ id : ℕ, id < 2000 → UInt32.ofNat (2000 + nth) ≠ .ofNat id := by
      intro id low same
      have := ofNat_injective (tangled_bound below) (low.trans (by decide)) same
      omega
    rw [away _ (outside 13 (by decide)) (outside 1500 (by decide)), here]
  · have legal : isBlockrwLegal 1500 = true := by decide
    simp only [blocks_putInode isInode_two _ (by decide : (1500 : BlockId) ≠ .ofNat (2 + 11)),
      writeBlock, if_pos legal, Function.update_self]
  · rw [away 3000 (by decide) (by decide),
      written.kept 3000 (apart 3000 (by simp) (.inr (by decide)))]
    rfl

def tangledPlace (nth : ℕ) : ℕ := if nth < ndirect then 2000 + nth else 3000

theorem tangledPlace_bound (below : nth < 101) :
    2000 ≤ tangledPlace nth ∧ tangledPlace nth < blockNum := by
  simp only [tangledPlace, ndirect, blockNum, blockSize]
  split <;> omega

theorem laid_tangled {next : InodeManager} (table : next.bm.blocks 1500 = chunk tangledBuf 100) :
    (∀ nth, nth < 101 → next.bm.getNthBlock (tangledInode 51204) nth =
      .ok (.ofNat (tangledPlace nth))) ∧ Laid next.bm (tangledInode 51204) 2 51204 := by
  have found : ∀ nth, nth < 101 → next.bm.getNthBlock (tangledInode 51204) nth =
      .ok (.ofNat (tangledPlace nth)) := by
    intro nth below
    rw [getNthBlock_eq (below.trans (by decide)) fun _ => by rw [table_tangled]; rfl]
    refine congrArg Except.ok ?_
    rcases Nat.lt_or_ge nth ndirect with direct | far
    · rw [mapped_tangled rfl direct, tangledPlace, if_pos direct]
    · obtain rfl : nth = 100 := by
        simp only [ndirect] at far
        omega
      rw [mapped_indirect far, table_tangled, table, chunk_tangledBuf]
      rfl
  refine ⟨found, fun nth below => ⟨_, found nth below, ?_, fun same => ?_⟩,
    fun nth other id below below' here there => ?_, fun _ => ?_⟩
  · have bound := tangledPlace_bound below
    exact (isData_ofNat ((by decide : dataStart ≤ 2000).trans bound.1) bound.2).legal
  · have bound := tangledPlace_bound below
    have := @ofNat_injective _ 13 bound.2 (by decide) same
    omega
  · rw [found nth below, ← there, found other below', Except.ok.injEq] at here
    have same := ofNat_injective (tangledPlace_bound below).2 (tangledPlace_bound below').2 here
    have first : nth < 101 := below
    have second : other < 101 := below'
    simp only [tangledPlace, ndirect] at same
    split at same <;> split at same <;> omega
  · rw [table_tangled]
    refine ⟨rfl, by decide, fun nth below here => ?_⟩
    have bound := tangledPlace_bound below
    rw [found nth below, Except.ok.injEq] at here
    have := @ofNat_injective _ 1500 bound.2 (by decide) here
    omega

/-- A chunk that was written over the table sends the last index elsewhere. -/
theorem writeFile_not_readsBack : ¬ ∀ (im next : InodeManager) (inum : ℕ) (buf : List UInt8)
    (now : UInt32) (ino : Inode), Live im inum →
    (∀ old, im.getInode inum = some old → old.size.toNat ≤ maxfile * blockSize) →
    buf.length ≤ maxfile * blockSize →
    im.writeFile inum buf (.ofNat buf.length) now = .ok next → next.getInode inum = some ino →
    Laid next.bm ino inum buf.length → ReadsBack im inum buf next ino := by
  intro claim
  obtain ⟨next, ran, found, chunks, table, blank⟩ := writeFile_tangledBuf
  obtain ⟨places, laid⟩ := laid_tangled table
  have limit : (51204 : ℕ) ≤ maxfile * blockSize := by decide
  have back := claim (tangled 51204) next 2 tangledBuf 0 (tangledInode 51204) live_tangled
    (fun old here => by
      rw [getInode_eq isInode_two, record_tangled] at here
      cases here
      exact limit)
    (by rw [length_tangledBuf]; exact limit) (by rw [length_tangledBuf]; exact ran) found
    (by rw [length_tangledBuf]; exact laid)
  obtain ⟨final, rv, size, read, _, bytes⟩ := back.read 0
  -- Every block of the file holds zeros now.
  have own : record next.bm.blocks 2 = tangledInode 51204 := by
    rw [getInode_eq isInode_two] at found
    exact Option.some.inj found
  have zeros : (List.replicate 51204 (0 : UInt8)).length = 51204 := List.length_replicate
  have content : Content next.bm.blocks (tangledInode 51204) (List.replicate 51204 0) := by
    intro nth below index inside
    rw [zeros] at below inside
    have place : mapped next.bm.blocks (tangledInode 51204) nth = .ofNat (tangledPlace nth) :=
      Except.ok.inj ((laid.getNthBlock limit below).symm.trans (places nth below))
    have zero : (List.replicate 51204 (0 : UInt8)).getD (blockSize * nth + index) 0 = 0 := by
      rw [List.getD_eq_getElem?_getD, List.getElem?_replicate, if_pos inside, Option.getD_some]
    rw [place, zero, tangledPlace]
    split
    next direct =>
      rw [chunks nth direct]
      refine tangledBuf_zero ?_
      have := index.isLt
      simp only [blockSize, ndirect] at direct this ⊢
      omega
    next => exact congrFun blank index
  obtain ⟨_, rv', read', bytes', _⟩ := @readFile_ok next 2 (List.replicate 51204 0) 0 isInode_two
    (by rw [own, zeros]; rfl) (by rw [own, zeros]; exact laid.writable limit)
    (by rw [own]; exact content)
  rw [read'] at read
  cases read
  rw [length_tangledBuf] at bytes
  rw [zeros, bytes] at bytes'
  have last := congrArg (·[51200]?) bytes'
  simp only [tangledBuf, List.getElem?_replicate] at last
  rw [List.getElem?_append_right (by rw [List.length_replicate]), List.length_replicate] at last
  exact absurd last (by decide)

end Tangled

end NaiveFileSystem.Extent
