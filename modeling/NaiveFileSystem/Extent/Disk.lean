import Mathlib.Logic.Function.Basic
import NaiveFileSystem.Lib.LittleEndian

/-!
# The disk and the block manager

The constants of `inode_manager.h`, the disk as an array of blocks, and the next
fit allocation of data blocks. A request may end the process by `exit(0)`, or run
into what C++ leaves undefined; both are faults of the model.
-/

namespace NaiveFileSystem.Extent

open LittleEndian

@[simp] abbrev blockSize : ℕ := 512
@[simp] abbrev blockNum : ℕ := 1024 * 1024 * 16 / blockSize
@[simp] abbrev inodeNum : ℕ := 1024
@[simp] abbrev ipb : ℕ := 1
@[simp] abbrev bpb : ℕ := blockSize * 8
@[simp] abbrev ndirect : ℕ := 100
@[simp] abbrev nindirect : ℕ := blockSize / 4
@[simp] abbrev maxfile : ℕ := ndirect + nindirect

/-- `IBLOCK`, the block of inode `i`. -/
def iblock (i nblocks : ℕ) : ℕ := nblocks / bpb + i / ipb + 3

/-- The first block behind the inode table. -/
@[simp] abbrev dataStart : ℕ := 1036

/-- What ends a request other than a return: `exit(0)`, or a null pointer, an
index outside an array or the use of indeterminate bytes. -/
inductive Fault
  | exit | undefined
  deriving DecidableEq, Repr

abbrev BlockId := UInt32

abbrev Block := Buffer blockSize

/-- `disk` and `block_manager`. The constructor sets `sb.nblocks` to `BLOCK_NUM`
and nothing changes it later, so the constant stands for it. -/
structure BlockManager where
  nextBlock : ℕ
  blocks : BlockId → Block
  usingBlocks : BlockId → Int

namespace BlockManager

def isBlockrwLegal (id : BlockId) : Bool := id.toNat < blockNum

/-- `none` leaves the caller's buffer as it was. -/
def readBlock (bm : BlockManager) (id : BlockId) : Option Block :=
  if isBlockrwLegal id then some (bm.blocks id) else none

def writeBlock (bm : BlockManager) (id : BlockId) (buf : Block) : BlockManager :=
  if isBlockrwLegal id then { bm with blocks := Function.update bm.blocks id buf } else bm

/-- The first unused block from `first` on and below `last`. -/
def findFitBlock (bm : BlockManager) (first last start : ℕ) : Option (BlockManager × BlockId) :=
  ((List.range' first (last - first)).find? fun hover =>
    bm.usingBlocks (.ofNat hover) = 0).map fun hover =>
      ({ bm with
          usingBlocks := Function.update bm.usingBlocks (.ofNat hover) 1
          nextBlock := if hover + 1 = blockNum then start else hover + 1 }, .ofNat hover)

def allocBlock (bm : BlockManager) : Except Fault (BlockManager × BlockId) :=
  let start := iblock inodeNum blockNum + 1
  match bm.findFitBlock bm.nextBlock blockNum start with
  | some found => .ok found
  | none =>
    match bm.findFitBlock start bm.nextBlock start with
    | some found => .ok found
    | none => .error .exit

def freeBlock (bm : BlockManager) (id : BlockId) : BlockManager :=
  { bm with usingBlocks := Function.update bm.usingBlocks id 0 }

/-- The constructor, which reads `sb.nblocks` before it sets it. -/
def init (nblocks : ℕ) : BlockManager where
  nextBlock := iblock inodeNum nblocks + 1
  blocks := fun _ _ => 0
  usingBlocks := fun _ => 0

/-! ## What allocation does -/

theorem iblock_eq (i : ℕ) : iblock i blockNum = i + 11 := by
  simp [iblock]
  omega

theorem toNat_ofNat_block {hover : ℕ} (bound : hover < blockNum) :
    (UInt32.ofNat hover).toNat = hover := by
  simp at bound ⊢
  omega

theorem findFitBlock_some {bm : BlockManager} {first last start : ℕ}
    {found : BlockManager × BlockId} (result : bm.findFitBlock first last start = some found) :
    ∃ hover, first ≤ hover ∧ hover < last ∧ bm.usingBlocks (.ofNat hover) = 0 ∧
      found = ({ bm with
        usingBlocks := Function.update bm.usingBlocks (.ofNat hover) 1
        nextBlock := if hover + 1 = blockNum then start else hover + 1 }, .ofNat hover) := by
  obtain ⟨hover, search, rfl⟩ := Option.map_eq_some_iff.mp result
  have unused := List.find?_some search
  have member := List.mem_range'_1.mp (List.mem_of_find?_eq_some search)
  exact ⟨hover, member.1, by omega, by simpa using unused, rfl⟩

theorem findFitBlock_none {bm : BlockManager} {first last start : ℕ}
    (result : bm.findFitBlock first last start = none) {hover : ℕ} (low : first ≤ hover)
    (high : hover < last) : bm.usingBlocks (.ofNat hover) ≠ 0 := by
  have search := List.find?_eq_none.mp (Option.map_eq_none_iff.mp result)
  simpa using search hover (List.mem_range'_1.mpr ⟨low, by omega⟩)

theorem allocBlock_cases {bm : BlockManager} (cursor : bm.nextBlock ≤ blockNum) :
    (∃ hover next, bm.allocBlock = .ok ({ bm with
        usingBlocks := Function.update bm.usingBlocks (.ofNat hover) 1
        nextBlock := next }, .ofNat hover) ∧
      hover < blockNum ∧ bm.usingBlocks (.ofNat hover) = 0 ∧ next < blockNum ∧
      (dataStart ≤ bm.nextBlock → dataStart ≤ hover ∧ dataStart ≤ next)) ∨
    (bm.allocBlock = .error .exit ∧
      ∀ hover, dataStart ≤ hover → hover < blockNum → bm.usingBlocks (.ofNat hover) ≠ 0) := by
  have region : iblock inodeNum blockNum + 1 = dataStart := by rw [iblock_eq]
  have next : ∀ hover, hover < blockNum →
      (if hover + 1 = blockNum then dataStart else hover + 1) < blockNum ∧
      (dataStart ≤ hover → dataStart ≤ if hover + 1 = blockNum then dataStart else hover + 1) := by
    intro hover bound
    split
    next => simp
    next inside => exact ⟨by omega, by omega⟩
  simp only [allocBlock, region]
  cases ahead : bm.findFitBlock bm.nextBlock blockNum dataStart with
  | some found =>
    obtain ⟨hover, low, high, unused, rfl⟩ := findFitBlock_some ahead
    have moved := next hover high
    exact .inl ⟨hover, _, rfl, high, unused, moved.1, fun data =>
      ⟨data.trans low, moved.2 (data.trans low)⟩⟩
  | none =>
    cases behind : bm.findFitBlock dataStart bm.nextBlock dataStart with
    | some found =>
      obtain ⟨hover, low, high, unused, rfl⟩ := findFitBlock_some behind
      have bound := lt_of_lt_of_le high cursor
      have moved := next hover bound
      exact .inl ⟨hover, _, rfl, bound, unused, moved.1, fun _ => ⟨low, moved.2 low⟩⟩
    | none =>
      refine .inr ⟨rfl, fun hover low high => ?_⟩
      rcases Nat.lt_or_ge hover bm.nextBlock with before | after
      · exact findFitBlock_none behind low before
      · exact findFitBlock_none ahead after high

/-- Wherever the cursor stands, an allocation takes a block that was not in use and marks
it alone, and it ends the process only if every block behind the inode table is in use. -/
theorem allocBlock_next_fit {bm : BlockManager} (cursor : bm.nextBlock ≤ blockNum) :
    (∃ id next, bm.allocBlock = .ok ({ bm with
        usingBlocks := Function.update bm.usingBlocks id 1
        nextBlock := next }, id) ∧
      id.toNat < blockNum ∧ bm.usingBlocks id = 0 ∧ next ≤ blockNum - 1) ∨
    (bm.allocBlock = .error .exit ∧ ∀ id : BlockId, iblock inodeNum blockNum + 1 ≤ id.toNat →
      id.toNat < blockNum → bm.usingBlocks id ≠ 0) := by
  rcases allocBlock_cases cursor with ⟨hover, next, ran, bound, unused, room, _⟩ | ⟨ran, full⟩
  · refine .inl ⟨.ofNat hover, next, ran, ?_, unused, by omega⟩
    rwa [toNat_ofNat_block bound]
  · refine .inr ⟨ran, fun id low high => ?_⟩
    rw [iblock_eq] at low
    have used := full id.toNat low high
    rwa [UInt32.ofNat_toNat] at used

/-- The cursor stands behind the last block, which alone is free; then no block is. -/
theorem allocBlock_next_fit_last :
    (∃ next ≤ 32767, (⟨32768, fun _ _ => 0, fun id => if id = 32767 then 0 else 1⟩ :
      BlockManager).allocBlock =
        .ok (⟨next, fun _ _ => 0, Function.update (fun id => if id = 32767 then 0 else 1) 32767 1⟩,
          32767)) ∧
    (⟨0, fun _ _ => 0, fun _ => 1⟩ : BlockManager).allocBlock = .error .exit := by
  constructor
  · rcases @allocBlock_next_fit ⟨32768, fun _ _ => 0, fun id => if id = 32767 then 0 else 1⟩
      (by decide) with ⟨id, next, ran, bound, unused, room⟩ | ⟨_, full⟩
    · have last : id = 32767 := by
        by_contra other
        simp [other] at unused
      subst last
      exact ⟨next, room, ran⟩
    · exact absurd rfl (full 32767 (by decide) (by decide))
  · rcases @allocBlock_next_fit ⟨0, fun _ _ => 0, fun _ => 1⟩ (by decide) with
      ⟨id, _, _, _, unused, _⟩ | ⟨exits, _⟩
    · exact absurd unused (by simp)
    · exact exits

theorem range'_split {first middle last : ℕ} (low : first ≤ middle) (high : middle ≤ last) :
    List.range' first (last - first) =
      List.range' first (middle - first) ++ List.range' middle (last - middle) := by
  obtain ⟨ahead, rfl⟩ := Nat.exists_eq_add_of_le low
  obtain ⟨behind, rfl⟩ := Nat.exists_eq_add_of_le high
  rw [Nat.add_sub_cancel_left, Nat.add_sub_cancel_left, Nat.add_assoc, Nat.add_sub_cancel_left,
    List.range'_append_1]

theorem allocBlock_beyond {bm : BlockManager} (beyond : blockNum ≤ bm.nextBlock) {hover : ℕ}
    (low : dataStart ≤ hover) (high : hover < blockNum)
    (unused : bm.usingBlocks (.ofNat hover) = 0) :
    bm.allocBlock = ({ bm with nextBlock := blockNum } : BlockManager).allocBlock := by
  have region : iblock inodeNum blockNum + 1 = dataStart := by rw [iblock_eq]
  have whole := range'_split (by simp : dataStart ≤ blockNum) beyond
  unfold allocBlock
  simp only [region, findFitBlock, Nat.sub_self, Nat.sub_eq_zero_of_le beyond, List.range'_zero,
    List.find?_nil, Option.map_none, whole, List.find?_append]
  cases found : (List.range' dataStart (blockNum - dataStart)).find? fun hover =>
      bm.usingBlocks (.ofNat hover) = 0 with
  | some hover => rfl
  | none =>
    have used := List.find?_eq_none.mp found hover (List.mem_range'_1.mpr ⟨low, by omega⟩)
    simp [unused] at used

end BlockManager

end NaiveFileSystem.Extent
