import Mathlib.Data.Finset.Card
import Mathlib.Order.Interval.Finset.Nat
import NaiveFileSystem.Extent.Layout

/-!
# The block loops

What freeing, allocating and writing a range of the indices of a file does to
the marks and to the disk. Each loop has a record of its effect, which is the
loop invariant, and one lemma that a pass extends it.
-/

namespace NaiveFileSystem.Extent.BlockManager

open LittleEndian

variable {bm : BlockManager} {ino : Inode} {first count : ℕ}

/-! ## Freeing -/

structure Freed (bm : BlockManager) (ino : Inode) (first last : ℕ) (next : BlockManager) :
    Prop where
  blocks : next.blocks = bm.blocks
  cursor : next.nextBlock = bm.nextBlock
  freed : ∀ nth, first ≤ nth → nth < last → next.usingBlocks (mapped bm.blocks ino nth) = 0
  kept : ∀ id, (∀ nth, first ≤ nth → nth < last → mapped bm.blocks ino nth ≠ id) →
    next.usingBlocks id = bm.usingBlocks id

theorem Freed.pass {k : ℕ} {next : BlockManager} (freed : Freed bm ino first k next)
    (low : first ≤ k) (bound : k < maxfile) (table : ndirect ≤ k → isBlockrwLegal ino.table = true) :
    ∃ after, next.freeNthBlock ino k = .ok after ∧ Freed bm ino first (k + 1) after := by
  refine ⟨next.freeBlock (mapped bm.blocks ino k), ?_, freed.blocks, freed.cursor, ?_, ?_⟩
  · simp only [freeNthBlock, getNthBlock_eq bound table, freed.blocks]
    rfl
  · intro nth above below
    simp only [freeBlock]
    by_cases same : mapped bm.blocks ino nth = mapped bm.blocks ino k
    · rw [same, Function.update_self]
    · have earlier : nth ≠ k := fun here => same (here ▸ rfl)
      rw [Function.update_of_ne same]
      exact freed.freed nth above (by omega)
  · intro id apart
    simp only [freeBlock]
    rw [Function.update_of_ne (Ne.symm (apart k low (Nat.lt_succ_self k)))]
    exact freed.kept id fun nth above below => apart nth above (by omega)

theorem freeBlocks_ok (bound : first + count ≤ maxfile)
    (table : ndirect < first + count → isBlockrwLegal ino.table = true) :
    ∃ next, bm.freeBlocks ino first count = .ok next ∧ Freed bm ino first (first + count) next := by
  refine Loop.counted_ok (fun k next low high freed =>
    freed.pass low (lt_of_lt_of_le high bound) fun far => table (lt_of_le_of_lt far high)) ?_
  exact ⟨rfl, rfl, fun nth above below => absurd above (Nat.not_le.mpr below), fun _ _ => rfl⟩

/-! ## Allocating -/

/-- How many data blocks are not in use. -/
def freeCount (bm : BlockManager) : ℕ :=
  ((Finset.Ico dataStart blockNum).filter fun hover => bm.usingBlocks (.ofNat hover) = 0).card

theorem isData_ofNat {hover : ℕ} (low : dataStart ≤ hover) (high : hover < blockNum) :
    IsData (.ofNat hover) := by
  rw [IsData, toNat_ofNat_block high]
  exact ⟨low, high⟩

theorem ofNat_injective {one other : ℕ} (first : one < blockNum) (second : other < blockNum)
    (same : UInt32.ofNat one = .ofNat other) : one = other := by
  have values := congrArg UInt32.toNat same
  rwa [toNat_ofNat_block first, toNat_ofNat_block second] at values

/-- The cursor of the next fit search stays in the data region. -/
def Cursor (bm : BlockManager) : Prop := dataStart ≤ bm.nextBlock ∧ bm.nextBlock ≤ blockNum

theorem allocBlock_ok (cursor : Cursor bm) (room : 0 < bm.freeCount) :
    ∃ next id, bm.allocBlock = .ok (next, id) ∧ IsData id ∧ bm.usingBlocks id = 0 ∧
      next.blocks = bm.blocks ∧ next.usingBlocks = Function.update bm.usingBlocks id 1 ∧
      Cursor next ∧ next.freeCount + 1 = bm.freeCount := by
  rcases allocBlock_cases cursor.2 with
    ⟨hover, after, done, high, unused, bound, data⟩ | ⟨_, full⟩
  · obtain ⟨low, moved⟩ := data cursor.1
    refine ⟨_, _, done, isData_ofNat low high, unused, rfl, rfl, ⟨moved, bound.le⟩, ?_⟩
    have member : hover ∈ (Finset.Ico dataStart blockNum).filter
        fun hover => bm.usingBlocks (.ofNat hover) = 0 := by
      simp only [Finset.mem_filter, Finset.mem_Ico]
      exact ⟨⟨low, high⟩, unused⟩
    rw [freeCount, freeCount, ← Finset.card_erase_add_one member]
    congr 2
    ext other
    simp only [Finset.mem_filter, Finset.mem_Ico, Finset.mem_erase]
    constructor
    · rintro ⟨inside, free⟩
      have different : other ≠ hover := by
        rintro rfl
        simp at free
      refine ⟨different, inside, ?_⟩
      rwa [Function.update_of_ne fun same => different (ofNat_injective inside.2 high same)] at free
    · rintro ⟨different, inside, free⟩
      refine ⟨inside, ?_⟩
      rwa [Function.update_of_ne fun same => different (ofNat_injective inside.2 high same)]
  · obtain ⟨hover, member⟩ := Finset.card_pos.mp room
    simp only [Finset.mem_filter, Finset.mem_Ico] at member
    exact absurd member.2 (full hover member.1.1 member.1.2)

theorem allocBlock_exit (cursor : Cursor bm) (full : bm.freeCount = 0) :
    bm.allocBlock = .error .exit := by
  rcases allocBlock_cases cursor.2 with ⟨hover, _, _, high, unused, _, data⟩ | ⟨exits, _⟩
  · have member : hover ∈ (Finset.Ico dataStart blockNum).filter
        fun hover => bm.usingBlocks (.ofNat hover) = 0 := by
      simp only [Finset.mem_filter, Finset.mem_Ico]
      exact ⟨⟨(data cursor.1).1, high⟩, unused⟩
    exact absurd full (Finset.card_ne_zero_of_mem member)
  · exact exits

structure Allocated (bm : BlockManager) (ino : Inode) (first last : ℕ) (next : BlockManager)
    (after : Inode) : Prop where
  record : after = { ino with blocks := after.blocks }
  table : after.table = ino.table
  old : ∀ nth, nth < maxfile → nth < first ∨ last ≤ nth →
    mapped next.blocks after nth = mapped bm.blocks ino nth
  data : ∀ nth, first ≤ nth → nth < last → IsData (mapped next.blocks after nth)
  fresh : ∀ nth, first ≤ nth → nth < last → bm.usingBlocks (mapped next.blocks after nth) = 0
  marked : ∀ nth, first ≤ nth → nth < last → next.usingBlocks (mapped next.blocks after nth) = 1
  distinct : ∀ nth other, first ≤ nth → nth < last → first ≤ other → other < last →
    mapped next.blocks after nth = mapped next.blocks after other → nth = other
  kept : ∀ id, (∀ nth, first ≤ nth → nth < last → mapped next.blocks after nth ≠ id) →
    next.usingBlocks id = bm.usingBlocks id
  blocks : ∀ id, id ≠ ino.table ∨ last ≤ ndirect → next.blocks id = bm.blocks id
  cursor : Cursor next
  room : next.freeCount + last = bm.freeCount + first

theorem Allocated.refl (cursor : Cursor bm) : Allocated bm ino first first bm ino where
  record := rfl
  table := rfl
  old _ _ _ := rfl
  data _ above below := absurd above (Nat.not_le.mpr below)
  fresh _ above below := absurd above (Nat.not_le.mpr below)
  marked _ above below := absurd above (Nat.not_le.mpr below)
  distinct _ _ above below := absurd above (Nat.not_le.mpr below)
  kept _ _ := rfl
  blocks _ _ := rfl
  cursor := cursor
  room := rfl

/-- `alloc_nth_block` once the block is allocated: one index is redirected. -/
theorem allocNthBlock_ok {k : ℕ} (bound : k < maxfile)
    (table : ndirect ≤ k → isBlockrwLegal ino.table = true) {found : BlockManager} {id : BlockId}
    (allocated : bm.allocBlock = .ok (found, id)) (disk : found.blocks = bm.blocks) :
    ∃ next after, bm.allocNthBlock ino k = .ok (next, after) ∧
      after = { ino with blocks := after.blocks } ∧ after.table = ino.table ∧
      (∀ nth, nth < maxfile → mapped next.blocks after nth =
        if nth = k then id else mapped bm.blocks ino nth) ∧
      (∀ other, other ≠ ino.table ∨ k < ndirect → next.blocks other = bm.blocks other) ∧
      next.usingBlocks = found.usingBlocks ∧ next.nextBlock = found.nextBlock := by
  rcases Nat.lt_or_ge k ndirect with direct | far
  · have entry : (Fin.last ndirect) ≠ ⟨k, Nat.lt_succ_of_lt direct⟩ := by
      intro same
      exact absurd (congrArg Fin.val same) (Nat.ne_of_gt direct)
    have kept : (Function.update ino.blocks ⟨k, Nat.lt_succ_of_lt direct⟩ id) (Fin.last ndirect) =
        ino.table := Function.update_of_ne entry _ _
    refine ⟨found, { ino with
      blocks := Function.update ino.blocks ⟨k, Nat.lt_succ_of_lt direct⟩ id },
      ?_, rfl, kept, fun nth _ => ?_, fun other _ => by rw [disk], rfl, rfl⟩
    · simp only [allocNthBlock, allocated]
      exact dif_pos direct
    · rcases Nat.lt_or_ge nth ndirect with near | beyond
      · rw [mapped_direct near, mapped_direct near]
        simp only [Function.update_apply, Fin.mk.injEq]
      · have different : nth ≠ k := Nat.ne_of_gt (lt_of_lt_of_le direct beyond)
        rw [mapped_indirect beyond, mapped_indirect beyond, if_neg different, disk]
        exact congrArg (fun table => loadWord (bm.blocks table) _) kept
  · have index : k - ndirect < nindirect := by
      simp only [maxfile] at bound
      omega
    refine ⟨found.writeBlock ino.table
      (storeWord (found.blocks ino.table) (4 * (k - ndirect)) id), ino, ?_, rfl, rfl,
      fun nth limit => ?_, fun other apart => ?_, ?_, ?_⟩
    · simp only [allocNthBlock, allocated, bind, Except.bind]
      rw [dif_neg (Nat.not_lt.mpr far), if_pos index, readBlock, if_pos (table far)]
    · simp only [writeBlock, if_pos (table far), disk]
      rcases Nat.lt_or_ge nth ndirect with near | beyond
      · rw [mapped_direct near, mapped_direct near,
          if_neg (Nat.ne_of_lt (lt_of_lt_of_le near far))]
      · rw [mapped_indirect beyond, mapped_indirect beyond, Function.update_self]
        simp only [ndirect, nindirect, blockSize] at beyond far index ⊢
        split
        next same => rw [same, loadWord_storeWord_same _ (by omega)]
        next different =>
          rw [loadWord_storeWord_disjoint _ (by omega)]
    · have different := apart.resolve_right (Nat.not_lt.mpr far)
      simp only [writeBlock, if_pos (table far), disk]
      exact Function.update_of_ne different _ _
    · simp only [writeBlock, if_pos (table far)]
    · simp only [writeBlock, if_pos (table far)]

theorem Allocated.pass {k : ℕ} {next : BlockManager} {after : Inode}
    (allocated : Allocated bm ino first k next after) (low : first ≤ k) (bound : k < maxfile)
    (table : ndirect ≤ k → isBlockrwLegal ino.table = true) (room : 0 < next.freeCount) :
    ∃ later final, next.allocNthBlock after k = .ok (later, final) ∧
      Allocated bm ino first (k + 1) later final := by
  obtain ⟨found, id, took, data, unused, disk, marks, cursor, left⟩ :=
    allocBlock_ok allocated.cursor room
  obtain ⟨later, final, ran, rest, tables, maps, frame, using_, next_⟩ :=
    allocNthBlock_ok bound (fun far => by rw [allocated.table]; exact table far) took disk
  have moved : ∀ nth, first ≤ nth → nth < k →
      mapped later.blocks final nth = mapped next.blocks after nth := by
    intro nth _ below
    rw [maps nth (lt_trans below bound), if_neg (Nat.ne_of_lt below)]
  have here : mapped later.blocks final k = id := by rw [maps k bound, if_pos rfl]
  -- A block given out earlier is marked, so this one is another.
  have other : ∀ nth, first ≤ nth → nth < k → mapped next.blocks after nth ≠ id := by
    intro nth above below same
    have marked := allocated.marked nth above below
    rw [same, unused] at marked
    exact absurd marked (by decide)
  have split : ∀ nth, nth < k + 1 → nth = k ∨ nth < k := fun nth below => by omega
  refine ⟨later, final, ran, {
    record := ?_
    table := tables.trans allocated.table
    old := ?_
    data := ?_
    fresh := ?_
    marked := ?_
    distinct := ?_
    kept := ?_
    blocks := ?_
    cursor := by rwa [Cursor, next_]
    room := ?_ }⟩
  · calc final = { after with blocks := final.blocks } := rest
      _ = { ino with blocks := final.blocks } := by rw [allocated.record]
  · intro nth limit outside
    rw [maps nth limit, if_neg (by omega)]
    exact allocated.old nth limit (by omega)
  · intro nth above below
    rcases split nth below with rfl | earlier
    · rwa [here]
    · rw [moved nth above earlier]
      exact allocated.data nth above earlier
  · intro nth above below
    rcases split nth below with rfl | earlier
    · rw [here, ← allocated.kept id other, unused]
    · rw [moved nth above earlier]
      exact allocated.fresh nth above earlier
  · intro nth above below
    rw [using_, marks]
    rcases split nth below with rfl | earlier
    · rw [here, Function.update_self]
    · rw [moved nth above earlier, Function.update_of_ne (other nth above earlier)]
      exact allocated.marked nth above earlier
  · intro nth index above below above' below' same
    rcases split nth below with rfl | earlier <;> rcases split index below' with rfl | earlier'
    · rfl
    · rw [here, moved index above' earlier'] at same
      exact absurd same.symm (other index above' earlier')
    · rw [here, moved nth above earlier] at same
      exact absurd same (other nth above earlier)
    · rw [moved nth above earlier, moved index above' earlier'] at same
      exact allocated.distinct nth index above earlier above' earlier' same
  · intro target apart
    have different : target ≠ id := fun same =>
      apart k low (Nat.lt_succ_self k) (here.trans same.symm)
    rw [using_, marks, Function.update_of_ne different]
    apply allocated.kept target
    intro nth above below
    rw [← moved nth above below]
    exact apart nth above (by omega)
  · intro target apart
    rw [frame target (by rw [allocated.table]; exact apart.imp_right Nat.lt_of_succ_le)]
    exact allocated.blocks target (apart.imp_right Nat.le_of_succ_le)
  · have same : later.freeCount = found.freeCount := by simp only [freeCount, using_]
    have before := allocated.room
    omega

theorem allocBlocks_ok (cursor : Cursor bm) (bound : first + count ≤ maxfile)
    (table : ndirect < first + count → isBlockrwLegal ino.table = true)
    (room : count ≤ bm.freeCount) :
    ∃ next after, bm.allocBlocks ino first count = .ok (next, after) ∧
      Allocated bm ino first (first + count) next after := by
  have loop := @Loop.counted_ok _ _
    (fun nth (state : BlockManager × Inode) => state.1.allocNthBlock state.2 nth)
    (fun k state => Allocated bm ino first k state.1 state.2) first count
    (fun k state low high allocated => ?_) (bm, ino) (.refl cursor)
  · obtain ⟨⟨next, after⟩, ran, done⟩ := loop
    exact ⟨next, after, ran, done⟩
  · have left := allocated.room
    obtain ⟨later, final, ran, done⟩ := allocated.pass low (lt_of_lt_of_le high bound)
      (fun far => table (lt_of_le_of_lt far high)) (by omega)
    exact ⟨(later, final), ran, done⟩

theorem allocBlocks_exit (cursor : Cursor bm) (bound : first + count ≤ maxfile)
    (table : ndirect < first + count → isBlockrwLegal ino.table = true)
    (full : bm.freeCount < count) : bm.allocBlocks ino first count = .error .exit := by
  obtain ⟨next, after, ran, allocated⟩ := @allocBlocks_ok bm ino first bm.freeCount cursor
    (by omega) (fun far => table (by omega)) le_rfl
  obtain ⟨left, rfl⟩ := Nat.exists_eq_add_of_lt full
  have none : next.freeCount = 0 := by
    have room := allocated.room
    omega
  rw [allocBlocks] at ran ⊢
  rw [Nat.add_assoc, Loop.counted_add, ran]
  simp only [Loop.counted, allocNthBlock, allocBlock_exit allocated.cursor none, bind, Except.bind]

/-! ## Writing -/

/-- The bytes of `buf` for one block, filled up with zeros. -/
def chunk (buf : List UInt8) (nth : ℕ) : Block := fun index =>
  buf.getD (blockSize * nth + index) 0

/-- The first `last` blocks of a file were written. -/
structure Written (bm : BlockManager) (ino : Inode) (buf : List UInt8) (last : ℕ)
    (next : BlockManager) : Prop where
  cursor : next.nextBlock = bm.nextBlock
  marks : next.usingBlocks = bm.usingBlocks
  written : ∀ nth, nth < last → next.blocks (mapped bm.blocks ino nth) = chunk buf nth
  kept : ∀ id, (∀ nth, nth < last → mapped bm.blocks ino nth ≠ id) →
    next.blocks id = bm.blocks id

/-- The blocks of a file can be written one after the other: they are legal and
apart from each other and from the table. -/
structure Writable (blocks : BlockId → Block) (ino : Inode) (count : ℕ) : Prop where
  bound : count ≤ maxfile
  table : ndirect < count → isBlockrwLegal ino.table = true
  legal : ∀ nth, nth < count → isBlockrwLegal (mapped blocks ino nth) = true
  distinct : ∀ nth other, nth < count → other < count →
    mapped blocks ino nth = mapped blocks ino other → nth = other
  apart : ndirect < count → ∀ nth, nth < count → mapped blocks ino nth ≠ ino.table

theorem Written.pass {buf content : List UInt8} {count k : ℕ} {next : BlockManager}
    (written : Written bm ino buf k next) (writable : Writable bm.blocks ino count)
    (bound : k < count) (bytes : blockOf content = chunk buf k) :
    ∃ after, next.writeNthBlock ino k content = .ok after ∧ Written bm ino buf (k + 1) after := by
  have same : mapped next.blocks ino k = mapped bm.blocks ino k := by
    refine mapped_congr rfl fun far => written.kept _ fun nth below => ?_
    exact writable.apart (lt_of_le_of_lt far bound) nth (lt_trans below bound)
  have legal := writable.legal k bound
  refine ⟨next.writeBlock (mapped bm.blocks ino k) (chunk buf k), ?_, ?_, ?_, ?_, ?_⟩
  · rw [writeNthBlock, getNthBlock_eq (lt_of_lt_of_le bound writable.bound)
      (fun far => writable.table (lt_of_le_of_lt far bound)), same, bytes]
    rfl
  · rw [writeBlock, if_pos legal]
    exact written.cursor
  · rw [writeBlock, if_pos legal]
    exact written.marks
  · intro nth below
    rw [writeBlock, if_pos legal]
    by_cases here : nth = k
    · simp only [here, Function.update_self]
    · have different : mapped bm.blocks ino nth ≠ mapped bm.blocks ino k := fun equal =>
        here (writable.distinct nth k (by omega) bound equal)
      simp only [Function.update_of_ne different]
      exact written.written nth (by omega)
  · intro id away
    rw [writeBlock, if_pos legal]
    simp only [Function.update_of_ne (away k (Nat.lt_succ_self k)).symm]
    exact written.kept id fun nth below => away nth (by omega)

theorem blockOf_assign {buf : List UInt8} {nth : ℕ} :
    blockOf (assign buf (blockSize * nth) blockSize) = chunk buf nth := by
  funext index
  simp only [blockOf, assign, chunk, List.getD_eq_getElem?_getD,
    List.getElem?_take_of_lt index.isLt, List.getElem?_drop]

theorem blockCount_bounds {size last : ℕ} (count : blockCount size = last + 1) :
    blockSize * last < size ∧ size ≤ blockSize * (last + 1) := by
  simp only [blockCount, blockSize] at count ⊢
  split at count <;> omega

theorem blockOf_tail {buf : List UInt8} {size last : ℕ} (whole : size = buf.length)
    (count : blockCount size = last + 1) :
    blockOf ((assign buf (blockSize * last) (blockSize - ((last + 1) * blockSize - size))).rightpad
      blockSize 0) = chunk buf last := by
  obtain ⟨low, high⟩ := blockCount_bounds count
  have all : assign buf (blockSize * last) (blockSize - ((last + 1) * blockSize - size)) =
      buf.drop (blockSize * last) := by
    apply List.take_of_length_le
    rw [List.length_drop]
    simp only [blockSize] at low high ⊢
    omega
  funext index
  rw [all]
  simp only [blockOf, chunk, List.rightpad, List.getD_eq_getElem?_getD]
  rcases Nat.lt_or_ge index.val (buf.drop (blockSize * last)).length with inside | outside
  · rw [List.getElem?_append_left inside, List.getElem?_drop]
  · have beyond : buf.length ≤ blockSize * last + index := by
      rw [List.length_drop] at outside
      omega
    rw [List.getElem?_append_right outside, List.getElem?_replicate,
      List.getElem?_eq_none beyond]
    split <;> rfl

theorem Writable.mono {blocks : BlockId → Block} {fewer more : ℕ}
    (writable : Writable blocks ino more) (le : fewer ≤ more) : Writable blocks ino fewer where
  bound := le.trans writable.bound
  table far := writable.table (far.trans_le le)
  legal nth below := writable.legal nth (below.trans_le le)
  distinct nth other below below' := writable.distinct nth other (below.trans_le le)
    (below'.trans_le le)
  apart far nth below := writable.apart (far.trans_le le) nth (below.trans_le le)

theorem writeBlocks_last {buf : List UInt8} {size last : ℕ} (whole : size = buf.length)
    (count : blockCount size = last + 1) (writable : Writable bm.blocks ino last) :
    ∃ middle content, Written bm ino buf last middle ∧ blockOf content = chunk buf last ∧
      bm.writeBlocks ino buf size = middle.writeNthBlock ino last content := by
  have start : Written bm ino buf 0 bm := ⟨rfl, rfl, fun _ below => absurd below (by omega),
    fun _ _ => rfl⟩
  obtain ⟨middle, ran, written⟩ := @Loop.counted_ok _ _
    (fun nth bm => bm.writeNthBlock ino nth (assign buf (blockSize * nth) blockSize))
    (Written bm ino buf) 0 last (fun k state _ high written =>
      written.pass writable (by omega) blockOf_assign) bm start
  rw [Nat.zero_add] at written
  refine ⟨middle, _, written, blockOf_tail whole count, ?_⟩
  simp only [writeBlocks, count, Nat.add_eq_zero_iff, one_ne_zero, and_false, if_false,
    Nat.add_sub_cancel, ran]
  rfl

theorem writeBlocks_ok {buf : List UInt8} {size : ℕ} (whole : size = buf.length)
    (writable : Writable bm.blocks ino (blockCount size)) :
    ∃ next, bm.writeBlocks ino buf size = .ok next ∧
      Written bm ino buf (blockCount size) next := by
  cases count : blockCount size with
  | zero =>
    exact ⟨bm, by simp [writeBlocks, count], rfl, rfl, fun _ below => absurd below (by omega),
      fun _ _ => rfl⟩
  | succ last =>
    rw [count] at writable
    obtain ⟨middle, content, written, bytes, ran⟩ := writeBlocks_last whole count
      (writable.mono (Nat.le_succ last))
    rw [ran]
    exact written.pass writable (Nat.lt_succ_self last) bytes

end NaiveFileSystem.Extent.BlockManager
