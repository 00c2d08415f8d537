import NaiveFileSystem.Extent.Inode

/-!
# Where a file lies

The record of an inode and the block of each index of a file, as functions of
the disk. The operations of the inode manager are described by what they do to
these two. Data blocks, inode blocks and the blocks in front of them are apart.
-/

namespace NaiveFileSystem.Extent

open LittleEndian

/-- The block of index `nth`, where `get_nth_block` finds one. -/
def mapped (blocks : BlockId → Block) (ino : Inode) (nth : ℕ) : BlockId :=
  if direct : nth < ndirect then ino.blocks ⟨nth, Nat.lt_succ_of_lt direct⟩
  else loadWord (blocks ino.table) (4 * (nth - ndirect))

def record (blocks : BlockId → Block) (inum : ℕ) : Inode :=
  .ofBlock (blocks (.ofNat (inum + 11)))

/-- A block for file data. -/
def IsData (id : BlockId) : Prop := dataStart ≤ id.toNat ∧ id.toNat < blockNum

/-- A block in front of the inode table. -/
def IsFront (id : BlockId) : Prop := id.toNat < 12

def IsInode (inum : ℕ) : Prop := 1 ≤ inum ∧ inum ≤ inodeNum

theorem IsData.legal {id : BlockId} (data : IsData id) : BlockManager.isBlockrwLegal id = true := by
  simpa [BlockManager.isBlockrwLegal] using data.2

theorem IsFront.legal {id : BlockId} (front : IsFront id) :
    BlockManager.isBlockrwLegal id = true := by
  simp only [IsFront] at front
  simp [BlockManager.isBlockrwLegal]
  omega

theorem IsFront.ne_data {front data : BlockId} (isFront : IsFront front) (isData : IsData data) :
    front ≠ data := by
  rintro rfl
  simp only [IsFront, IsData, dataStart] at isFront isData
  omega

theorem toNat_inodeBlock {inum : ℕ} (real : IsInode inum) :
    (UInt32.ofNat (inum + 11)).toNat = inum + 11 := by
  simp only [IsInode, inodeNum] at real
  simp
  omega

theorem inodeBlock_legal {inum : ℕ} (real : IsInode inum) :
    BlockManager.isBlockrwLegal (.ofNat (inum + 11)) = true := by
  have value := toNat_inodeBlock real
  simp only [IsInode, inodeNum] at real
  rw [BlockManager.isBlockrwLegal, value]
  simp
  omega

theorem IsData.ne_inodeBlock {id : BlockId} {inum : ℕ} (data : IsData id) (real : IsInode inum) :
    id ≠ .ofNat (inum + 11) := by
  rintro rfl
  simp only [IsData, toNat_inodeBlock real, dataStart] at data
  simp only [IsInode, inodeNum] at real
  omega

theorem IsFront.ne_inodeBlock {id : BlockId} {inum : ℕ} (front : IsFront id) (real : IsInode inum) :
    id ≠ .ofNat (inum + 11) := by
  rintro rfl
  simp only [IsFront, toNat_inodeBlock real] at front
  simp only [IsInode] at real
  omega

theorem inodeBlock_injective {one other : ℕ} (first : IsInode one) (second : IsInode other)
    (same : UInt32.ofNat (one + 11) = .ofNat (other + 11)) : one = other := by
  have values := congrArg UInt32.toNat same
  rw [toNat_inodeBlock first, toNat_inodeBlock second] at values
  omega

theorem mapped_direct {blocks : BlockId → Block} {ino : Inode} {nth : ℕ} (direct : nth < ndirect) :
    mapped blocks ino nth = ino.blocks ⟨nth, Nat.lt_succ_of_lt direct⟩ := dif_pos direct

theorem mapped_indirect {blocks : BlockId → Block} {ino : Inode} {nth : ℕ} (far : ndirect ≤ nth) :
    mapped blocks ino nth = loadWord (blocks ino.table) (4 * (nth - ndirect)) :=
  dif_neg (Nat.not_lt.mpr far)

theorem mapped_congr {blocks other : BlockId → Block} {ino next : Inode} {nth : ℕ}
    (entries : ino.blocks = next.blocks)
    (table : ndirect ≤ nth → blocks ino.table = other ino.table) :
    mapped blocks ino nth = mapped other next nth := by
  have same : ino.table = next.table := congrFun entries _
  rcases Nat.lt_or_ge nth ndirect with direct | far
  · rw [mapped_direct direct, mapped_direct direct, entries]
  · rw [mapped_indirect far, mapped_indirect far, table far, same]

theorem mapped_of_blocks (blocks : BlockId → Block) {ino next : Inode}
    (entries : ino.blocks = next.blocks) : mapped blocks ino = mapped blocks next :=
  funext fun _ => mapped_congr entries fun _ => rfl

namespace InodeManager

variable {im : InodeManager} {inum : ℕ}

theorem getInode_eq (real : IsInode inum) :
    im.getInode inum = some (record im.bm.blocks inum) := by
  have inside : ¬ (inum = 0 ∨ inodeNum < inum) := by
    simp only [IsInode] at real
    omega
  rw [getInode, if_neg inside, BlockManager.iblock_eq, BlockManager.readBlock,
    if_pos (inodeBlock_legal real)]
  rfl

theorem derefInode_eq (real : IsInode inum) :
    im.derefInode inum = .ok (record im.bm.blocks inum) := by
  rw [derefInode, getInode_eq real]

theorem putInode_eq (real : IsInode inum) (ino : Inode) :
    im.putInode inum ino = { im with bm := { im.bm with
      blocks := Function.update im.bm.blocks (.ofNat (inum + 11))
        (ino.toBlock (im.bm.blocks (.ofNat (inum + 11)))) } } := by
  simp only [putInode, BlockManager.iblock_eq, BlockManager.readBlock, BlockManager.writeBlock,
    inodeBlock_legal real, if_true]

theorem record_putInode (real : IsInode inum) (ino : Inode) {other : ℕ} (also : IsInode other) :
    record (im.putInode inum ino).bm.blocks other =
      if other = inum then ino else record im.bm.blocks other := by
  rw [putInode_eq real]
  split
  next same =>
    subst same
    simp [record, Inode.ofBlock_toBlock]
  next different =>
    have apart : UInt32.ofNat (other + 11) ≠ .ofNat (inum + 11) :=
      fun same => different (inodeBlock_injective also real same)
    simp only [record, Function.update_of_ne apart]

theorem blocks_putInode (real : IsInode inum) (ino : Inode) {id : BlockId}
    (apart : id ≠ .ofNat (inum + 11)) : (im.putInode inum ino).bm.blocks id = im.bm.blocks id := by
  rw [putInode_eq real]
  exact Function.update_of_ne apart _ _

theorem usingBlocks_putInode (real : IsInode inum) (ino : Inode) :
    (im.putInode inum ino).bm.usingBlocks = im.bm.usingBlocks := by rw [putInode_eq real]

theorem nextBlock_putInode (real : IsInode inum) (ino : Inode) :
    (im.putInode inum ino).bm.nextBlock = im.bm.nextBlock := by rw [putInode_eq real]

theorem nextInum_putInode (real : IsInode inum) (ino : Inode) :
    (im.putInode inum ino).nextInum = im.nextInum := by rw [putInode_eq real]

end InodeManager

namespace BlockManager

theorem getNthBlock_eq {bm : BlockManager} {ino : Inode} {nth : ℕ} (bound : nth < maxfile)
    (table : ndirect ≤ nth → isBlockrwLegal ino.table = true) :
    bm.getNthBlock ino nth = .ok (mapped bm.blocks ino nth) := by
  rcases Nat.lt_or_ge nth ndirect with direct | far
  · rw [getNthBlock, dif_pos direct, mapped_direct direct]
  · have index : nth - ndirect < nindirect := by
      simp only [maxfile] at bound
      omega
    rw [getNthBlock, dif_neg (Nat.not_lt.mpr far), readBlock, if_pos (table far),
      mapped_indirect far]
    simp only [if_pos index]

end BlockManager

end NaiveFileSystem.Extent
