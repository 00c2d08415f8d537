import NaiveFileSystem.Extent.Disk
import NaiveFileSystem.Lib.Loop

/-!
# The inode manager

One record per inode, in a block of its own, with `NDIRECT` direct entries and
one indirect table. Every call of `std::time` in a request returns `now`. The
blocks of a file are freed and allocated, then written, by counting loops.
-/

namespace NaiveFileSystem.Extent

open LittleEndian

/-- `inode_t`. -/
@[ext]
structure Inode where
  type : Int16
  size : UInt32
  atime : UInt32
  mtime : UInt32
  ctime : UInt32
  blocks : Fin (ndirect + 1) → BlockId

/-- `*(struct inode *) buf`. -/
def Inode.ofBlock (buf : Block) : Inode where
  type := (UInt16.ofNat (load buf 0 2)).toInt16
  size := loadWord buf 4
  atime := loadWord buf 8
  mtime := loadWord buf 12
  ctime := loadWord buf 16
  blocks index := loadWord buf (20 + 4 * index)

/-- `*(struct inode *) buf = ino`. -/
def Inode.toBlock (ino : Inode) (buf : Block) : Block :=
  let buf := store buf 0 2 ino.type.toUInt16.toNat
  let buf := storeWord buf 4 ino.size
  let buf := storeWord buf 8 ino.atime
  let buf := storeWord buf 12 ino.mtime
  let buf := storeWord buf 16 ino.ctime
  storeWords buf 20 ino.blocks

/-- `ino->blocks[NDIRECT]`. -/
def Inode.table (ino : Inode) : BlockId := ino.blocks (Fin.last ndirect)

/-- `size == 0 ? 0 : (size - 1) / BLOCK_SIZE + 1`. -/
def blockCount (size : ℕ) : ℕ := if size = 0 then 0 else (size - 1) / blockSize + 1

/-- What `write_block` copies from the `data()` of a string. -/
def blockOf (content : List UInt8) : Block := fun index => content.getD index 0

structure InodeManager where
  bm : BlockManager
  nextInum : ℕ

namespace BlockManager

def getNthBlock (bm : BlockManager) (ino : Inode) (nth : ℕ) : Except Fault BlockId :=
  if direct : nth < ndirect then .ok (ino.blocks ⟨nth, Nat.lt_succ_of_lt direct⟩)
  else
    match bm.readBlock ino.table with
    | none => .error .undefined
    | some inblock =>
      if nth - ndirect < nindirect then .ok (loadWord inblock (4 * (nth - ndirect)))
      else .error .undefined

def allocNthBlock (bm : BlockManager) (ino : Inode) (nth : ℕ) :
    Except Fault (BlockManager × Inode) := do
  let (bm, id) ← bm.allocBlock
  if direct : nth < ndirect then
    .ok (bm, { ino with
      blocks := Function.update ino.blocks ⟨nth, Nat.lt_succ_of_lt direct⟩ id })
  else if nth - ndirect < nindirect then
    match bm.readBlock ino.table with
    | none => .ok (bm, ino)
    | some inblock =>
      .ok (bm.writeBlock ino.table (storeWord inblock (4 * (nth - ndirect)) id), ino)
  else .error .undefined

def freeNthBlock (bm : BlockManager) (ino : Inode) (nth : ℕ) : Except Fault BlockManager := do
  let id ← bm.getNthBlock ino nth
  .ok (bm.freeBlock id)

def readNthBlock (bm : BlockManager) (ino : Inode) (nth : ℕ) : Except Fault (List UInt8) := do
  let id ← bm.getNthBlock ino nth
  match bm.readBlock id with
  | none => .error .undefined
  | some content => .ok (List.ofFn content)

def writeNthBlock (bm : BlockManager) (ino : Inode) (nth : ℕ) (content : List UInt8) :
    Except Fault BlockManager := do
  let id ← bm.getNthBlock ino nth
  .ok (bm.writeBlock id (blockOf content))

/-- The loop over `free_nth_block` from index `first` on. -/
def freeBlocks (bm : BlockManager) (ino : Inode) (first count : ℕ) : Except Fault BlockManager :=
  Loop.counted (fun nth bm => bm.freeNthBlock ino nth) first count bm

def allocBlocks (bm : BlockManager) (ino : Inode) (first count : ℕ) :
    Except Fault (BlockManager × Inode) :=
  Loop.counted (fun nth state => state.1.allocNthBlock state.2 nth) first count (bm, ino)

/-- The part of `write_file` that frees or allocates blocks. -/
def resizeBlocks (bm : BlockManager) (ino : Inode) (blnumBefore blnumAfter : ℕ) :
    Except Fault (BlockManager × Inode) :=
  if blnumAfter < blnumBefore then do
    let bm ← bm.freeBlocks ino blnumAfter (blnumBefore - blnumAfter)
    .ok (bm, ino)
  else bm.allocBlocks ino blnumBefore (blnumAfter - blnumBefore)

/-- `content.assign(buf + start, count)`. -/
def assign (buf : List UInt8) (start count : ℕ) : List UInt8 := (buf.drop start).take count

/-- All blocks of the new content but the last, then the last one, filled up with zeros. -/
def writeBlocks (bm : BlockManager) (ino : Inode) (buf : List UInt8) (size : ℕ) :
    Except Fault BlockManager := do
  let count := blockCount size
  if count = 0 then .ok bm
  else
    let last := count - 1
    let bm ← Loop.counted (fun nth bm =>
      bm.writeNthBlock ino nth (assign buf (blockSize * nth) blockSize)) 0 last bm
    let paddingBytes := count * blockSize - size
    let tailBytes := blockSize - paddingBytes
    let content := assign buf (blockSize * last) tailBytes
    bm.writeNthBlock ino last (content.rightpad blockSize 0)

end BlockManager

namespace InodeManager

def getInode (im : InodeManager) (inum : ℕ) : Option Inode :=
  if inum = 0 ∨ inodeNum < inum then none
  else (im.bm.readBlock (.ofNat (iblock inum blockNum))).map Inode.ofBlock

/-- `get_inode` where the result is used without a check for null. -/
def derefInode (im : InodeManager) (inum : ℕ) : Except Fault Inode :=
  match im.getInode inum with
  | none => .error .undefined
  | some ino => .ok ino

def putInode (im : InodeManager) (inum : ℕ) (ino : Inode) : InodeManager :=
  let id := .ofNat (iblock inum blockNum)
  match im.bm.readBlock id with
  | none => im
  | some buf => { im with bm := im.bm.writeBlock id (ino.toBlock buf) }

/-- The first inode from `hover` on, among `count`, whose type is zero. -/
def findInode (im : InodeManager) (hover : ℕ) : ℕ → Except Fault (Option (ℕ × Inode))
  | 0 => .ok none
  | count + 1 => do
    let ino ← im.derefInode hover
    if ino.type = 0 then .ok (some (hover, ino)) else findInode im (hover + 1) count

def allocInode (im : InodeManager) (type now : UInt32) : Except Fault (InodeManager × ℕ) := do
  let ahead ← im.findInode im.nextInum (inodeNum + 1 - im.nextInum)
  let found ← match ahead with
    | some found => .ok (some found)
    | none => im.findInode 2 (im.nextInum - 2)
  match found with
  | none => .error .exit
  | some (hover, ino) =>
    let im := { im with nextInum := if hover + 1 > inodeNum then 2 else hover + 1 }
    .ok (im.putInode hover { ino with
      type := type.toUInt16.toInt16, size := 0, atime := now, mtime := now, ctime := now }, hover)

def freeInode (im : InodeManager) (inum : ℕ) : Except Fault InodeManager :=
  match im.getInode inum with
  | none => .error .exit
  | some ino =>
    if ino.type = 0 then .error .exit else .ok (im.putInode inum { ino with type := 0 })

/-- The buffer holds whole blocks; it is null, here empty, for a size of zero. -/
def readFile (im : InodeManager) (inum : ℕ) (now : UInt32) :
    Except Fault (InodeManager × List UInt8 × UInt32) := do
  let ino ← im.derefInode inum
  if ino.size = 0 then .ok (im, [], ino.size)
  else if maxfile * blockSize < ino.size.toNat then .error .exit
  else
    let rv ← Loop.counted (fun nth (rv : List UInt8) => do
      let content ← im.bm.readNthBlock ino nth
      .ok (rv ++ content)) 0 (blockCount ino.size.toNat) []
    .ok (im.putInode inum { ino with atime := now }, rv, ino.size)

def writeFile (im : InodeManager) (inum : ℕ) (buf : List UInt8) (size now : UInt32) :
    Except Fault InodeManager := do
  let ino ← im.derefInode inum
  let (bm, ino) ← im.bm.resizeBlocks ino (blockCount ino.size.toNat) (blockCount size.toNat)
  let ino := { ino with size := size }
  let bm ← bm.writeBlocks ino buf size.toNat
  .ok ({ im with bm := bm }.putInode inum { ino with atime := now, mtime := now, ctime := now })

def removeFile (im : InodeManager) (inum : ℕ) : Except Fault InodeManager := do
  let ino ← im.derefInode inum
  let bm ← im.bm.freeBlocks ino 0 (blockCount ino.size.toNat)
  { im with bm := bm }.freeInode inum

/-- `extent_protocol::attr`. -/
structure Attr where
  type : UInt32
  atime : UInt32
  mtime : UInt32
  ctime : UInt32
  size : UInt32
  deriving DecidableEq, Repr

def getattr (im : InodeManager) (inum : ℕ) (a : Attr) : Attr :=
  match im.getInode inum with
  | none => a
  | some ino => ⟨ino.type.toInt32.toUInt32, ino.atime, ino.mtime, ino.ctime, ino.size⟩

/-- The constructor; the entries of the root's record are never set. -/
def init (nblocks : ℕ) (junk : Fin (ndirect + 1) → BlockId) (now : UInt32) : InodeManager :=
  { putInode ⟨.init nblocks, 0⟩ 1 ⟨1, 0, now, now, now, junk⟩ with nextInum := 2 }

end InodeManager

theorem Inode.ofBlock_toBlock (ino : Inode) (buf : Block) : Inode.ofBlock (ino.toBlock buf) = ino := by
  have before : ∀ (buffer : Block) (words : Fin (ndirect + 1) → BlockId) (offset : ℕ),
      offset + 4 ≤ 20 → loadWord (storeWords buffer 20 words) offset = loadWord buffer offset :=
    fun buffer words offset low => by rw [loadWord, load_storeWords_before buffer low]; rfl
  ext1
  · simp only [ofBlock, toBlock]
    rw [load_storeWords_before _ (by simp), storeWord, load_store_disjoint _ (by simp), storeWord,
      load_store_disjoint _ (by simp), storeWord, load_store_disjoint _ (by simp), storeWord,
      load_store_disjoint _ (by simp), load_store_same _ (by simp),
      Nat.mod_eq_of_lt (show _ < 256 ^ 2 from ino.type.toUInt16.toNat_lt)]
    simp
  · simp only [ofBlock, toBlock]
    rw [before _ _ _ (by simp), loadWord_storeWord_disjoint _ (by simp),
      loadWord_storeWord_disjoint _ (by simp), loadWord_storeWord_disjoint _ (by simp),
      loadWord_storeWord_same _ (by simp)]
  · simp only [ofBlock, toBlock]
    rw [before _ _ _ (by simp), loadWord_storeWord_disjoint _ (by simp),
      loadWord_storeWord_disjoint _ (by simp), loadWord_storeWord_same _ (by simp)]
  · simp only [ofBlock, toBlock]
    rw [before _ _ _ (by simp), loadWord_storeWord_disjoint _ (by simp),
      loadWord_storeWord_same _ (by simp)]
  · simp only [ofBlock, toBlock]
    rw [before _ _ _ (by simp), loadWord_storeWord_same _ (by simp)]
  · funext index
    exact loadWord_storeWords_same _ (by simp) index

end NaiveFileSystem.Extent
