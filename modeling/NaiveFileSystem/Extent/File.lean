import NaiveFileSystem.Extent.Blocks

/-!
# Reading and writing one file

The blocks of a file are placed when they are data blocks, in use, and apart
from each other, and its table is in front of the inodes. Writing a placed file
places the new content, and reading a placed file returns its content; other
records and data blocks stay.
-/

namespace NaiveFileSystem.Extent

open LittleEndian BlockManager

structure Placed (bm : BlockManager) (ino : Inode) (count : ℕ) : Prop where
  bound : count ≤ maxfile
  table : ndirect < count → IsFront ino.table
  data : ∀ nth, nth < count → IsData (mapped bm.blocks ino nth)
  used : ∀ nth, nth < count → bm.usingBlocks (mapped bm.blocks ino nth) ≠ 0
  distinct : ∀ nth other, nth < count → other < count →
    mapped bm.blocks ino nth = mapped bm.blocks ino other → nth = other

theorem Placed.writable {bm : BlockManager} {ino : Inode} {count : ℕ}
    (placed : Placed bm ino count) : Writable bm.blocks ino count where
  bound := placed.bound
  table far := (placed.table far).legal
  legal nth below := (placed.data nth below).legal
  distinct := placed.distinct
  apart far nth below := ((placed.table far).ne_data (placed.data nth below)).symm

def Content (blocks : BlockId → Block) (ino : Inode) (data : List UInt8) : Prop :=
  ∀ nth, nth < blockCount data.length → ∀ index : Fin blockSize,
    blockSize * nth + index < data.length →
    blocks (mapped blocks ino nth) index = data.getD (blockSize * nth + index) 0

theorem mapped_kept {blocks other : BlockId → Block} {ino final : Inode} {count : ℕ}
    (entries : ino.blocks = final.blocks)
    (table : ndirect < count → other ino.table = blocks ino.table) :
    ∀ nth, nth < count → mapped other final nth = mapped blocks ino nth :=
  fun _ below => (mapped_congr entries fun far => (table (lt_of_le_of_lt far below)).symm).symm

theorem BlockManager.Writable.congr {blocks other : BlockId → Block} {ino next : Inode} {count : ℕ}
    (writable : Writable blocks ino count) (entries : ino.blocks = next.blocks)
    (table : ndirect < count → other ino.table = blocks ino.table) :
    Writable other next count := by
  have same := mapped_kept entries table
  have tables : ino.table = next.table := congrFun entries _
  refine ⟨writable.bound, fun far => ?_, fun nth below => ?_, fun nth other below below' equal => ?_,
    fun far nth below => ?_⟩
  · rw [← tables]
    exact writable.table far
  · rw [same nth below]
    exact writable.legal nth below
  · rw [same nth below, same other below'] at equal
    exact writable.distinct nth other below below' equal
  · rw [same nth below, ← tables]
    exact writable.apart far nth below

theorem Placed.transfer {bm next : BlockManager} {ino final : Inode} {count : ℕ}
    (placed : Placed bm ino count) (entries : ino.blocks = final.blocks)
    (table : ndirect < count → next.blocks ino.table = bm.blocks ino.table)
    (marks : ∀ nth, nth < count → next.usingBlocks (mapped bm.blocks ino nth) =
      bm.usingBlocks (mapped bm.blocks ino nth)) : Placed next final count := by
  have same := mapped_kept entries table
  have tables : ino.table = final.table := congrFun entries _
  refine ⟨placed.bound, fun far => ?_, fun nth below => ?_, fun nth below => ?_,
    fun nth other below below' equal => ?_⟩
  · rw [← tables]
    exact placed.table far
  · rw [same nth below]
    exact placed.data nth below
  · rw [same nth below, marks nth below]
    exact placed.used nth below
  · rw [same nth below, same other below'] at equal
    exact placed.distinct nth other below below' equal

theorem Content.transfer {bm next : BlockManager} {ino final : Inode} {data : List UInt8}
    (content : Content bm.blocks ino data)
    (same : ∀ nth, nth < blockCount data.length →
      mapped next.blocks final nth = mapped bm.blocks ino nth)
    (bytes : ∀ nth, nth < blockCount data.length →
      next.blocks (mapped bm.blocks ino nth) = bm.blocks (mapped bm.blocks ino nth)) :
    Content next.blocks final data := by
  intro nth below index inside
  rw [same nth below, bytes nth below]
  exact content nth below index inside

/-! ## Changing the number of blocks -/

/-- A file of `before` blocks was given `after` blocks. -/
structure Resized (bm : BlockManager) (ino : Inode) (before after : ℕ) (next : BlockManager)
    (final : Inode) : Prop where
  same : final = { ino with blocks := final.blocks }
  table : final.table = ino.table
  placed : Placed next final after
  origin : ∀ nth, nth < after → (nth < before ∧
    mapped next.blocks final nth = mapped bm.blocks ino nth) ∨
      (before ≤ nth ∧ bm.usingBlocks (mapped next.blocks final nth) = 0)
  freed : ∀ nth, after ≤ nth → nth < before → next.usingBlocks (mapped bm.blocks ino nth) = 0
  marks : ∀ id, (∀ nth, nth < after → mapped next.blocks final nth ≠ id) →
    (∀ nth, nth < before → mapped bm.blocks ino nth ≠ id) →
    next.usingBlocks id = bm.usingBlocks id
  blocks : ∀ id, id ≠ ino.table ∨ after ≤ ndirect → next.blocks id = bm.blocks id
  cursor : Cursor next

theorem BlockManager.Freed.resized {bm next : BlockManager} {ino : Inode} {before after : ℕ}
    (freed : Freed bm ino after before next) (placed : Placed bm ino before)
    (shrinks : after < before) (cursor : Cursor bm) : Resized bm ino before after next ino := by
  have same : ∀ nth, mapped next.blocks ino nth = mapped bm.blocks ino nth := by
    rw [freed.blocks]
    exact fun _ => rfl
  refine {
    same := rfl
    table := rfl
    placed := {
      bound := shrinks.le.trans placed.bound
      table := fun far => placed.table (far.trans shrinks)
      data := fun nth below => by
        rw [same]
        exact placed.data nth (below.trans shrinks)
      used := ?_
      distinct := ?_ }
    origin := fun nth below => .inl ⟨below.trans shrinks, same nth⟩
    freed := freed.freed
    marks := fun id _ apart => freed.kept id fun nth _ below => apart nth below
    blocks := fun id _ => congrFun freed.blocks id
    cursor := by rwa [Cursor, freed.cursor] }
  · intro nth below
    rw [same, freed.kept _ fun other above below' equal => ?_]
    · exact placed.used nth (below.trans shrinks)
    · have := placed.distinct other nth below' (below.trans shrinks) equal
      omega
  · intro nth other below below' equal
    rw [same, same] at equal
    exact placed.distinct nth other (below.trans shrinks) (below'.trans shrinks) equal

theorem BlockManager.Allocated.resized {bm next : BlockManager} {ino final : Inode} {before after : ℕ}
    (allocated : Allocated bm ino before after next final) (placed : Placed bm ino before)
    (grows : before ≤ after) (bound : after ≤ maxfile) (table : ndirect < after → IsFront ino.table) :
    Resized bm ino before after next final := by
  have old : ∀ nth, nth < before → mapped next.blocks final nth = mapped bm.blocks ino nth :=
    fun nth below => allocated.old nth (by omega) (.inl below)
  -- A block of the old content was in use, and a fresh one was not.
  have apart : ∀ nth other, nth < before → before ≤ other → other < after →
      mapped bm.blocks ino nth ≠ mapped next.blocks final other := by
    intro nth other below above below' equal
    apply placed.used nth below
    rw [equal]
    exact allocated.fresh other above below'
  refine {
    same := allocated.record
    table := allocated.table
    placed := {
      bound := bound
      table := fun far => by
        rw [allocated.table]
        exact table far
      data := ?_
      used := ?_
      distinct := ?_ }
    origin := ?_
    freed := fun nth above below => absurd (above.trans_lt below) (Nat.not_lt.mpr grows)
    marks := fun id away _ => allocated.kept id fun nth _ below => away nth below
    blocks := allocated.blocks
    cursor := allocated.cursor }
  · intro nth below
    rcases Nat.lt_or_ge nth before with early | late
    · rw [old nth early]
      exact placed.data nth early
    · exact allocated.data nth late below
  · intro nth below
    rcases Nat.lt_or_ge nth before with early | late
    · rw [old nth early, allocated.kept _ fun other above below' equal =>
        apart nth other early above below' equal.symm]
      exact placed.used nth early
    · rw [allocated.marked nth late below]
      decide
  · intro nth other below below' equal
    rcases Nat.lt_or_ge nth before with early | late <;>
      rcases Nat.lt_or_ge other before with early' | late'
    · rw [old nth early, old other early'] at equal
      exact placed.distinct nth other early early' equal
    · rw [old nth early] at equal
      exact absurd equal (apart nth other early late' below')
    · rw [old other early'] at equal
      exact absurd equal.symm (apart other nth early' late below)
    · exact allocated.distinct nth other late below late' below' equal
  · intro nth below
    rcases Nat.lt_or_ge nth before with early | late
    · exact .inl ⟨early, old nth early⟩
    · exact .inr ⟨late, allocated.fresh nth late below⟩

theorem Resized.away {bm next : BlockManager} {ino final : Inode} {before after : ℕ}
    (shape : Resized bm ino before after next final) {id : BlockId}
    (apart : ∀ front, IsFront front → front ≠ id) : next.blocks id = bm.blocks id := by
  rcases Nat.lt_or_ge ndirect after with far | near
  · have front := shape.placed.table far
    rw [shape.table] at front
    exact shape.blocks _ (.inl (apart _ front).symm)
  · exact shape.blocks _ (.inr near)

theorem resize_ok {bm : BlockManager} {ino : Inode} {before after : ℕ}
    (placed : Placed bm ino before) (cursor : Cursor bm) (bound : after ≤ maxfile)
    (table : ndirect < after → IsFront ino.table) (room : after ≤ before + bm.freeCount) :
    ∃ next final, bm.resizeBlocks ino before after = .ok (next, final) ∧
      Resized bm ino before after next final := by
  rcases Nat.lt_or_ge after before with shrinks | grows
  · have last : after + (before - after) = before := by omega
    obtain ⟨next, ran, freed⟩ := @freeBlocks_ok bm ino after (before - after)
      (last.symm ▸ placed.bound) fun far => (placed.table (by omega)).legal
    rw [last] at freed
    refine ⟨next, ino, ?_, freed.resized placed shrinks cursor⟩
    rw [resizeBlocks, if_pos shrinks, ran]
    rfl
  · have last : before + (after - before) = after := by omega
    obtain ⟨next, final, ran, allocated⟩ := @allocBlocks_ok bm ino before (after - before) cursor
      (last.symm ▸ bound) (fun far => (table (by omega)).legal) (by omega)
    rw [last] at allocated
    refine ⟨next, final, ?_, allocated.resized placed grows bound table⟩
    rw [resizeBlocks, if_neg (Nat.not_lt.mpr grows), ran]

/-! ## Writing a file -/

def blocksOf (bm : BlockManager) (inum : ℕ) : ℕ := blockCount (record bm.blocks inum).size.toNat

/-- The block of inode `inum` for index `nth`. -/
def place (bm : BlockManager) (inum nth : ℕ) : BlockId :=
  mapped bm.blocks (record bm.blocks inum) nth

/-- Inode `inum` was given the content `buf`. -/
structure Rewritten (im : InodeManager) (inum : ℕ) (buf : List UInt8) (next : InodeManager) :
    Prop where
  type : (record next.bm.blocks inum).type = (record im.bm.blocks inum).type
  size : (record next.bm.blocks inum).size = .ofNat buf.length
  table : (record next.bm.blocks inum).table = (record im.bm.blocks inum).table
  others : ∀ other, IsInode other → other ≠ inum →
    record next.bm.blocks other = record im.bm.blocks other
  content : Content next.bm.blocks (record next.bm.blocks inum) buf
  placed : Placed next.bm (record next.bm.blocks inum) (blockCount buf.length)
  origin : ∀ nth, nth < blockCount buf.length →
    (nth < blocksOf im.bm inum ∧ place next.bm inum nth = place im.bm inum nth) ∨
      (blocksOf im.bm inum ≤ nth ∧ im.bm.usingBlocks (place next.bm inum nth) = 0)
  freed : ∀ nth, blockCount buf.length ≤ nth → nth < blocksOf im.bm inum →
    next.bm.usingBlocks (place im.bm inum nth) = 0
  marks : ∀ id, (∀ nth, nth < blockCount buf.length → place next.bm inum nth ≠ id) →
    (∀ nth, nth < blocksOf im.bm inum → place im.bm inum nth ≠ id) →
    next.bm.usingBlocks id = im.bm.usingBlocks id
  data : ∀ id, IsData id → (∀ nth, nth < blockCount buf.length → place next.bm inum nth ≠ id) →
    next.bm.blocks id = im.bm.blocks id
  front : ∀ id, IsFront id →
    id ≠ (record im.bm.blocks inum).table ∨ blockCount buf.length ≤ ndirect →
    next.bm.blocks id = im.bm.blocks id
  cursor : Cursor next.bm
  nextInum : next.nextInum = im.nextInum

theorem rewritten_of_resized {im : InodeManager} {inum : ℕ} {buf : List UInt8}
    {bm disk : BlockManager} {final middle ino : Inode}
    (shape : Resized im.bm (record im.bm.blocks inum) (blocksOf im.bm inum)
      (blockCount buf.length) bm final)
    (written : Written bm middle buf (blockCount buf.length) disk) (real : IsInode inum)
    (middle_eq : middle.blocks = final.blocks) (entries : ino.blocks = final.blocks)
    (size : ino.size = .ofNat buf.length) (type : ino.type = (record im.bm.blocks inum).type) :
    Rewritten im inum buf (({ im with bm := disk } : InodeManager).putInode inum ino) := by
  let next := ({ im with bm := disk } : InodeManager).putInode inum ino
  have tables : ino.table = (record im.bm.blocks inum).table :=
    (congrFun entries _).trans shape.table
  have own : record next.bm.blocks inum = ino := by
    rw [InodeManager.record_putInode real ino real, if_pos rfl]
  have maps : mapped bm.blocks middle = mapped bm.blocks final := mapped_of_blocks _ middle_eq
  obtain ⟨cursor_, kept_marks, wrote, kept⟩ := written
  rw [maps] at wrote kept
  have disk_front : ∀ id, IsFront id → next.bm.blocks id = bm.blocks id := by
    intro id front
    rw [InodeManager.blocks_putInode real ino (front.ne_inodeBlock real)]
    exact kept id fun nth below => (front.ne_data (shape.placed.data nth below)).symm
  have disk_data : ∀ id, IsData id → next.bm.blocks id = disk.blocks id := fun id data =>
    InodeManager.blocks_putInode real ino (data.ne_inodeBlock real)
  have table : ndirect < blockCount buf.length → next.bm.blocks final.table = bm.blocks final.table :=
    fun far => disk_front _ (shape.placed.table far)
  have places : ∀ nth, nth < blockCount buf.length →
      mapped next.bm.blocks ino nth = mapped bm.blocks final nth := mapped_kept entries.symm table
  have marks : next.bm.usingBlocks = bm.usingBlocks := by
    rw [InodeManager.usingBlocks_putInode real]
    exact kept_marks
  have here : ∀ nth, nth < blockCount buf.length →
      place next.bm inum nth = mapped bm.blocks final nth := fun nth below => by
    rw [place, own, places nth below]
  show Rewritten im inum buf next
  refine {
    type := by rw [own, type]
    size := by rw [own, size]
    table := by rw [own, tables]
    others := fun other also different => ?_
    content := ?_
    placed := ?_
    origin := fun nth below => ?_
    freed := fun nth above below => ?_
    marks := fun id away apart => ?_
    data := fun id data away => ?_
    front := fun id front apart => ?_
    cursor := ?_
    nextInum := InodeManager.nextInum_putInode real ino }
  · rw [InodeManager.record_putInode real ino also, if_neg different]
    apply congrArg Inode.ofBlock
    rw [kept _ fun nth below => (shape.placed.data nth below).ne_inodeBlock also]
    exact shape.away fun front isFront => isFront.ne_inodeBlock also
  · intro nth below index inside
    rw [own, places nth below, disk_data _ (shape.placed.data nth below), wrote nth below]
    rfl
  · rw [own]
    exact shape.placed.transfer entries.symm table fun nth _ => by rw [marks]
  · rw [here nth below]
    exact shape.origin nth below
  · rw [marks]
    exact shape.freed nth above below
  · rw [marks]
    refine shape.marks id (fun nth below => ?_) apart
    rw [← here nth below]
    exact away nth below
  · rw [disk_data id data, kept id fun nth below => by rw [← here nth below]; exact away nth below]
    exact shape.away fun front isFront => isFront.ne_data data
  · rw [disk_front id front]
    exact shape.blocks id apart
  · rw [Cursor, InodeManager.nextBlock_putInode real]
    have moved := shape.cursor
    rwa [Cursor, ← cursor_] at moved

theorem toNat_length {buf : List UInt8} (bound : buf.length ≤ maxfile * blockSize) :
    (UInt32.ofNat buf.length).toNat = buf.length := by
  simp only [maxfile, ndirect, nindirect, blockSize] at bound
  simp
  omega

theorem blockCount_le {size : ℕ} (bound : size ≤ maxfile * blockSize) :
    blockCount size ≤ maxfile := by
  simp only [blockCount, maxfile, ndirect, nindirect, blockSize] at bound ⊢
  split <;> omega

theorem writeFile_eq {im : InodeManager} {inum : ℕ} {buf : List UInt8} {size now : UInt32}
    {bm disk : BlockManager} {ino : Inode} (real : IsInode inum)
    (resized : im.bm.resizeBlocks (record im.bm.blocks inum) (blocksOf im.bm inum)
      (blockCount size.toNat) = .ok (bm, ino))
    (wrote : bm.writeBlocks { ino with size := size } buf size.toNat = .ok disk) :
    im.writeFile inum buf size now = .ok (({ im with bm := disk } : InodeManager).putInode inum
      { ino with size := size, atime := now, mtime := now, ctime := now }) := by
  rw [blocksOf] at resized
  unfold InodeManager.writeFile
  simp only [InodeManager.derefInode_eq real, bind, Except.bind, resized, wrote]

theorem writeFile_ok {im : InodeManager} {inum : ℕ} {buf : List UInt8} (now : UInt32)
    (real : IsInode inum) (placed : Placed im.bm (record im.bm.blocks inum) (blocksOf im.bm inum))
    (cursor : Cursor im.bm) (bound : buf.length ≤ maxfile * blockSize)
    (table : ndirect < blockCount buf.length → IsFront (record im.bm.blocks inum).table)
    (room : blockCount buf.length ≤ blocksOf im.bm inum + im.bm.freeCount) :
    ∃ next, im.writeFile inum buf (.ofNat buf.length) now = .ok next ∧
      Rewritten im inum buf next := by
  have whole := toNat_length bound
  have blocks := blockCount_le bound
  obtain ⟨bm, final, resized, shape⟩ := resize_ok placed cursor blocks table room
  have writable : Writable bm.blocks { final with size := .ofNat buf.length }
      (blockCount buf.length) := shape.placed.writable.congr rfl fun _ => rfl
  obtain ⟨disk, wrote, written⟩ := writeBlocks_ok rfl writable
  have front : ndirect < blockCount buf.length → IsFront final.table := shape.placed.table
  refine ⟨({ im with bm := disk } : InodeManager).putInode inum { final with
    size := .ofNat buf.length, atime := now, mtime := now, ctime := now }, ?_, ?_⟩
  · exact writeFile_eq real (by rw [whole, resized]) (by rw [whole, wrote])
  · have type := congrArg Inode.type shape.same
    exact rewritten_of_resized shape written real rfl rfl rfl type

/-- Without room for the new content the process ends. -/
theorem writeFile_exit {im : InodeManager} {inum : ℕ} {buf : List UInt8} (now : UInt32)
    (real : IsInode inum) (cursor : Cursor im.bm) (bound : buf.length ≤ maxfile * blockSize)
    (table : ndirect < blockCount buf.length → IsFront (record im.bm.blocks inum).table)
    (full : blocksOf im.bm inum + im.bm.freeCount < blockCount buf.length) :
    im.writeFile inum buf (.ofNat buf.length) now = .error .exit := by
  have last : blocksOf im.bm inum + (blockCount buf.length - blocksOf im.bm inum) =
      blockCount buf.length := by omega
  have exits := @allocBlocks_exit im.bm (record im.bm.blocks inum) (blocksOf im.bm inum)
    (blockCount buf.length - blocksOf im.bm inum) cursor (by rw [last]; exact blockCount_le bound)
    (fun far => (table (last ▸ far)).legal) (by omega)
  have grows : ¬ blockCount buf.length < blocksOf im.bm inum := by omega
  simp only [InodeManager.writeFile, InodeManager.derefInode_eq real, toNat_length bound, bind,
    Except.bind]
  rw [← blocksOf, resizeBlocks, if_neg grows, exits]

/-! ## Reading a file -/

def Holds (data : List UInt8) (count : ℕ) (rv : List UInt8) : Prop :=
  rv.length = blockSize * count ∧
    ∀ position, position < blockSize * count → position < data.length → rv[position]? = data[position]?

theorem Holds.pass {bm : BlockManager} {ino : Inode} {data rv : List UInt8} {k : ℕ}
    (holds : Holds data k rv) (writable : Writable bm.blocks ino (blockCount data.length))
    (content : Content bm.blocks ino data) (below : k < blockCount data.length) :
    ∃ block, bm.readNthBlock ino k = .ok block ∧ Holds data (k + 1) (rv ++ block) := by
  refine ⟨List.ofFn (bm.blocks (mapped bm.blocks ino k)), ?_, ?_, ?_⟩
  · rw [readNthBlock, getNthBlock_eq (lt_of_lt_of_le below writable.bound)
      fun far => writable.table (lt_of_le_of_lt far below)]
    simp only [bind, Except.bind, readBlock, if_pos (writable.legal k below)]
  · rw [List.length_append, List.length_ofFn, holds.1, Nat.mul_succ]
  · intro position inside real
    rcases Nat.lt_or_ge position (blockSize * k) with early | late
    · rw [List.getElem?_append_left (by rw [holds.1]; exact early)]
      exact holds.2 position early real
    · have index : position - blockSize * k < blockSize := by
        rw [Nat.mul_succ] at inside
        omega
      have whole : blockSize * k + (position - blockSize * k) = position := by omega
      have byte := content k below ⟨_, index⟩ (by simp only [whole]; exact real)
      rw [List.getElem?_append_right (by rw [holds.1]; exact late), holds.1, List.getElem?_ofFn,
        dif_pos index, byte]
      simp only [whole, List.getD_eq_getElem?_getD, List.getElem?_eq_getElem real, Option.getD_some]

theorem Holds.take {data rv : List UInt8} {count : ℕ} (holds : Holds data count rv)
    (all : data.length ≤ blockSize * count) : rv.take data.length = data := by
  refine List.ext_getElem? fun position => ?_
  rcases Nat.lt_or_ge position data.length with inside | outside
  · rw [List.getElem?_take_of_lt inside]
    exact holds.2 position (lt_of_lt_of_le inside all) inside
  · rw [List.getElem?_eq_none outside, List.getElem?_eq_none]
    exact (List.length_take_le _ _).trans outside

theorem readFile_ok {im : InodeManager} {inum : ℕ} {data : List UInt8} (now : UInt32)
    (real : IsInode inum) (size : (record im.bm.blocks inum).size.toNat = data.length)
    (writable : Writable im.bm.blocks (record im.bm.blocks inum) (blockCount data.length))
    (content : Content im.bm.blocks (record im.bm.blocks inum) data) :
    ∃ next rv, im.readFile inum now = .ok (next, rv, (record im.bm.blocks inum).size) ∧
      rv.take data.length = data ∧
      (next = im ∨ next = im.putInode inum { record im.bm.blocks inum with atime := now }) := by
  generalize old : record im.bm.blocks inum = ino at *
  by_cases none : ino.size = 0
  · have empty : data = [] := by
      rw [none] at size
      exact List.length_eq_zero_iff.mp size.symm
    refine ⟨im, [], ?_, by simp [empty], .inl rfl⟩
    simp only [InodeManager.readFile, InodeManager.derefInode_eq real, old, bind, Except.bind,
      if_pos none]
  · have bound : ¬ maxfile * blockSize < data.length := by
      have limit := writable.bound
      simp only [blockCount, maxfile, ndirect, nindirect, blockSize] at limit ⊢
      split at limit <;> omega
    obtain ⟨rv, ran, holds⟩ := @Loop.counted_ok _ _ (fun nth (rv : List UInt8) => (do
      let content ← im.bm.readNthBlock ino nth
      .ok (rv ++ content) : Except Fault (List UInt8))) (Holds data) 0 (blockCount data.length)
      (fun k rv _ below holds => by
        obtain ⟨block, read, more⟩ := holds.pass writable content (by omega)
        exact ⟨rv ++ block, by rw [read]; rfl, more⟩) [] ⟨rfl, by simp⟩
    rw [Nat.zero_add] at holds
    refine ⟨_, rv, ?_, holds.take ?_, .inr rfl⟩
    · simp only [InodeManager.readFile, InodeManager.derefInode_eq real, old, bind, Except.bind,
        if_neg none, if_neg bound, size] at ran ⊢
      rw [ran]
    · simp only [blockCount, blockSize]
      split <;> omega

end NaiveFileSystem.Extent
