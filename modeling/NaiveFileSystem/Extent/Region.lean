import NaiveFileSystem.Extent.Layout
import NaiveFileSystem.Lib.Transition

/-!
# The data region

Runs of the block manager from its constructor on: ids are allocated, those that
were returned are freed and written, and records are put. The constructor computes
its first cursor from `sb.nblocks` before it sets that field, so the runs have the
old value of the field as a parameter. They stay in the data region exactly when
the value is at least `BLOCK_NUM`: the cursor then starts in the region, or behind
the disk, where the first search finds nothing and the second one starts over.
-/

namespace NaiveFileSystem.Extent

open BlockManager Transition

/-- The block manager and the ids it has returned. -/
structure Handed where
  bm : BlockManager
  returned : List BlockId

inductive BlockCall
  | alloc (id : BlockId)
  | free (id : BlockId)
  | write (id : BlockId) (buf : Block)
  | put (inum : ℕ) (ino : Inode)

inductive BlockStep : Handed → BlockCall → Handed → Prop
  | alloc {state : Handed} {bm id} : state.bm.allocBlock = .ok (bm, id) →
      BlockStep state (.alloc id) ⟨bm, id :: state.returned⟩
  | free {state : Handed} {id} : id ∈ state.returned →
      BlockStep state (.free id) { state with bm := state.bm.freeBlock id }
  | write {state : Handed} {id} (buf) : id ∈ state.returned →
      BlockStep state (.write id buf) { state with bm := state.bm.writeBlock id buf }
  | put {state : Handed} {inum next} (ino) : IsInode inum →
      (⟨state.bm, 0⟩ : InodeManager).putInode inum ino = next →
      BlockStep state (.put inum ino) { state with bm := next.bm }

/-- The runs of a block manager that finds `nblocks` in `sb.nblocks`. -/
def allocation (nblocks : UInt32) : System Handed BlockCall where
  init state := state = ⟨.init nblocks.toNat, []⟩
  step := BlockStep

/-- Every id that is returned is behind the last inode and on the disk, and a
write of file data changes no record. -/
def KeepsRegion (nblocks : UInt32) : Prop :=
  ∀ trace state, Run (allocation nblocks) trace state →
    (∀ id, .alloc id ∈ trace → iblock inodeNum blockNum < id.toNat ∧ id.toNat < blockNum) ∧
    ∀ id buf next, BlockStep state (.write id buf) next → ∀ inum, IsInode inum →
      record next.bm.blocks inum = record state.bm.blocks inum

structure InRegion (trace : List BlockCall) (state : Handed) : Prop where
  low : dataStart ≤ state.bm.nextBlock
  high : state.bm.nextBlock ≤ blockNum ∨ ∀ id, state.bm.usingBlocks id = 0
  seen : ∀ id, .alloc id ∈ trace → id ∈ state.returned
  data : ∀ id ∈ state.returned, IsData id

theorem InRegion.alloc {trace : List BlockCall} {state : Handed} (region : InRegion trace state)
    {bm : BlockManager} {id : BlockId} (took : state.bm.allocBlock = .ok (bm, id)) :
    IsData id ∧ dataStart ≤ bm.nextBlock ∧ bm.nextBlock ≤ blockNum := by
  -- Behind the disk the search goes on as from the last block.
  obtain ⟨start, cursor, low, same⟩ : ∃ start : BlockManager, start.nextBlock ≤ blockNum ∧
      dataStart ≤ start.nextBlock ∧ start.allocBlock = .ok (bm, id) := by
    rcases region.high with inside | unused
    · exact ⟨state.bm, inside, region.low, took⟩
    · rcases Nat.le_total state.bm.nextBlock blockNum with inside | beyond
      · exact ⟨state.bm, inside, region.low, took⟩
      · rw [allocBlock_beyond beyond le_rfl (by simp) (unused _)] at took
        exact ⟨_, le_rfl, by simp, took⟩
  rcases allocBlock_cases cursor with ⟨hover, next, ran, high, _, bound, data⟩ | ⟨exits, _⟩
  · rw [ran] at same
    cases same
    obtain ⟨above, moved⟩ := data low
    refine ⟨?_, moved, bound.le⟩
    rw [IsData, toNat_ofNat_block high]
    exact ⟨above, high⟩
  · rw [exits] at same
    cases same

theorem InRegion.step {trace : List BlockCall} {state next : Handed} {call : BlockCall}
    (region : InRegion trace state) (steps : BlockStep state call next) :
    InRegion (trace ++ [call]) next := by
  have older : ∀ other, (∀ id, call ≠ .alloc id) → .alloc other ∈ trace ++ [call] →
      other ∈ state.returned := by
    intro other different member
    rcases List.mem_append.mp member with early | last
    · exact region.seen other early
    · exact absurd (List.mem_singleton.mp last).symm (different other)
  cases steps with
  | @alloc bm id took =>
    obtain ⟨data, low, high⟩ := region.alloc took
    refine ⟨low, .inl high, ?_, ?_⟩
    · intro other member
      rcases List.mem_append.mp member with early | last
      · exact .tail _ (region.seen other early)
      · cases List.mem_singleton.mp last
        exact .head _
    · intro other member
      rcases List.mem_cons.mp member with rfl | early
      · exact data
      · exact region.data other early
  | @free id returned =>
    refine ⟨region.low, region.high.imp_right fun unused other => ?_, fun other member =>
      older other (fun _ => by simp) member, region.data⟩
    by_cases same : other = id
    · simp [freeBlock, same]
    · simp [freeBlock, Function.update_of_ne same, unused other]
  | @write id buf returned =>
    have legal := (region.data id returned).legal
    refine ⟨?_, ?_, fun other member => older other (fun _ => by simp) member, region.data⟩
    · simpa only [writeBlock, if_pos legal] using region.low
    · simpa only [writeBlock, if_pos legal] using region.high
  | @put inum after ino real done =>
    subst done
    refine ⟨?_, ?_, fun other member => older other (fun _ => by simp) member, region.data⟩
    · rw [InodeManager.nextBlock_putInode real]
      exact region.low
    · rw [InodeManager.nextBlock_putInode real, InodeManager.usingBlocks_putInode real]
      exact region.high

theorem InRegion.of_run {nblocks : UInt32} (large : blockNum ≤ nblocks.toNat)
    {trace : List BlockCall} {state : Handed} (run : Run (allocation nblocks) trace state) :
    InRegion trace state := by
  refine run.invariant ?_ fun _ _ _ _ region steps => region.step steps
  rintro state rfl
  refine ⟨?_, .inr fun _ => rfl, by simp, by simp⟩
  simp only [init, iblock, blockNum, bpb, blockSize, inodeNum, ipb, dataStart] at large ⊢
  omega

theorem InRegion.record_kept {trace : List BlockCall} {state next : Handed}
    (region : InRegion trace state) {id : BlockId} {buf : Block}
    (steps : BlockStep state (.write id buf) next) {inum : ℕ} (real : IsInode inum) :
    record next.bm.blocks inum = record state.bm.blocks inum := by
  cases steps with
  | write _ returned =>
    have data := region.data id returned
    simp only [record, writeBlock, if_pos data.legal]
    rw [Function.update_of_ne (data.ne_inodeBlock real).symm]

theorem allocBlock_init {nblocks : ℕ} (small : nblocks < blockNum) :
    ∃ bm, (BlockManager.init nblocks).allocBlock =
      .ok (bm, .ofNat (iblock inodeNum nblocks + 1)) := by
  have bound : iblock inodeNum nblocks + 1 < blockNum := by
    simp only [iblock, blockNum, bpb, blockSize, inodeNum, ipb] at small ⊢
    omega
  obtain ⟨left, count⟩ := Nat.exists_eq_add_of_lt bound
  have first : (List.range' (iblock inodeNum nblocks + 1)
      (blockNum - (iblock inodeNum nblocks + 1))).find?
        (fun _ => ((0 : Int) = 0 : Bool)) = some (iblock inodeNum nblocks + 1) := by
    rw [count, Nat.add_assoc, Nat.add_sub_cancel_left, List.range'_succ]
    rfl
  unfold allocBlock findFitBlock BlockManager.init
  rw [first]
  exact ⟨_, rfl⟩

theorem KeepsRegion.large {nblocks : UInt32} (keeps : KeepsRegion nblocks) :
    blockNum ≤ nblocks.toNat := by
  by_contra small
  obtain ⟨bm, took⟩ := allocBlock_init (Nat.lt_of_not_le small)
  have run : Run (allocation nblocks) ([] ++ [.alloc _]) _ :=
    .extend (.start rfl) (.alloc took)
  have region := ((keeps _ _ run).1 _ (List.mem_append_right [] (List.mem_singleton_self _))).1
  have value : iblock inodeNum nblocks.toNat + 1 ≤ iblock inodeNum blockNum := by
    simp only [iblock, blockNum, bpb, blockSize, inodeNum, ipb] at small ⊢
    omega
  have bound : iblock inodeNum blockNum < blockNum := by
    rw [iblock_eq]
    simp
  rw [toNat_ofNat_block (lt_of_le_of_lt value bound)] at region
  omega

theorem keepsRegion_iff (nblocks : UInt32) : KeepsRegion nblocks ↔ blockNum ≤ nblocks.toNat := by
  constructor
  · exact KeepsRegion.large
  · intro large trace state run
    have region := InRegion.of_run large run
    refine ⟨fun id member => ?_, fun id buf next steps inum real => region.record_kept steps real⟩
    have data := region.data id (region.seen id member)
    rw [iblock_eq]
    exact ⟨data.1, data.2⟩

/-- With zero in the field the first id is 1028, the block of inode 1017. -/
theorem not_keepsRegion_zero : ¬ KeepsRegion 0 :=
  fun keeps => absurd keeps.large (by decide)

end NaiveFileSystem.Extent
