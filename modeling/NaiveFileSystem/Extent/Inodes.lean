import NaiveFileSystem.Extent.Accounting

/-!
# Allocating inodes

Where the cursor is between the first inode behind the root and the last one, an
allocation takes an inode of type 0 and writes its record alone, or every inode
behind the root has a type. Over a run of allocations and removals the typed
inodes are those that were handed out and not freed since.
-/

namespace NaiveFileSystem.Extent

open BlockManager InodeManager Transition

/-- The cursor of the inode table, as the constructor and every allocation leave it. -/
def InodeCursor (im : InodeManager) : Prop := 2 ≤ im.nextInum ∧ im.nextInum ≤ inodeNum

/-- Inode `id` was free and was given `type` and no content, and nothing else was written. -/
structure Allotted (im : InodeManager) (type now : UInt32) (next : InodeManager) (id : ℕ) :
    Prop where
  low : 2 ≤ id
  high : id ≤ inodeNum
  record : ∃ old, im.getInode id = some old ∧ old.type = 0 ∧ next.getInode id = some { old with
    type := type.toUInt16.toInt16, size := 0, atime := now, mtime := now, ctime := now }
  blocks : ∀ block, block ≠ .ofNat (iblock id blockNum) → next.bm.blocks block = im.bm.blocks block
  marks : next.bm.usingBlocks = im.bm.usingBlocks
  cursor : InodeCursor next

section Single

variable {im next : InodeManager} {type now : UInt32} {id inum : ℕ}

theorem toInt16_ne_zero (typed : type.toUInt16 ≠ 0) : type.toUInt16.toInt16 ≠ 0 := by
  intro zero
  have back := congrArg Int16.toUInt16 zero
  rw [UInt16.toUInt16_toInt16] at back
  exact typed back

theorem live_iff_getInode : Live im inum ↔ ∃ ino, im.getInode inum = some ino ∧ ino.type ≠ 0 := by
  constructor
  · exact fun live => ⟨_, getInode_eq live.1, live.2⟩
  · rintro ⟨ino, found, typed⟩
    have real : IsInode inum := by
      by_contra outside
      have far : inum = 0 ∨ inodeNum < inum := by
        simp only [IsInode] at outside
        omega
      rw [getInode, if_pos far] at found
      cases found
    rw [getInode_eq real] at found
    cases found
    exact ⟨real, typed⟩

theorem allocInode_allotted (cursor : InodeCursor im) (type now : UInt32) :
    (∃ next id, im.allocInode type now = .ok (next, id) ∧ Allotted im type now next id) ∨
    (im.allocInode type now = .error .exit ∧
      ∀ id, 2 ≤ id → id ≤ inodeNum → ∃ ino, im.getInode id = some ino ∧ ino.type ≠ 0) := by
  have low := cursor.1
  rcases @allocInode_cases im type now (by omega) (.inl (cursor.2.trans (Nat.le_succ _))) with
    ⟨id, after, real, behind, free, after_low, after_high, ran⟩ | ⟨exits, full⟩
  · refine .inl ⟨_, id, ran, behind cursor.1, real.2, ⟨_, getInode_eq real, free, ?_⟩, ?_, ?_, ?_⟩
    · rw [getInode_eq real, record_putInode real _ real, if_pos rfl]
    · intro block apart
      rw [iblock_eq] at apart
      exact blocks_putInode real _ apart
    · exact usingBlocks_putInode real _
    · rw [InodeCursor, nextInum_putInode real]
      exact ⟨after_low, after_high⟩
  · exact .inr ⟨exits, fun id above below =>
      live_iff_getInode.mp ⟨⟨by omega, below⟩, full id above below⟩⟩

theorem Allotted.live (allotted : Allotted im type now next id) (typed : type.toUInt16 ≠ 0) :
    Live next inum ↔ inum = id ∨ Live im inum := by
  have here : IsInode id := ⟨by have := allotted.low; omega, allotted.high⟩
  obtain ⟨old, _, _, given⟩ := allotted.record
  by_cases same : inum = id
  · subst same
    exact iff_of_true (live_iff_getInode.mpr ⟨_, given, toInt16_ne_zero typed⟩) (.inl rfl)
  · simp only [same, false_or, Live]
    refine and_congr_right fun real => ?_
    have apart : UInt32.ofNat (inum + 11) ≠ .ofNat (iblock id blockNum) := by
      rw [iblock_eq]
      exact fun equal => same (inodeBlock_injective real here equal)
    simp only [Extent.record, allotted.blocks _ apart]

theorem Allotted.dead (allotted : Allotted im type now next id) : ¬ Live im id := by
  obtain ⟨old, found, free, _⟩ := allotted.record
  rintro live
  obtain ⟨ino, read, typed⟩ := live_iff_getInode.mp live
  rw [found] at read
  cases read
  exact typed free

theorem freeInode_live (ran : im.freeInode inum = .ok next) :
    next.nextInum = im.nextInum ∧ ∀ other, Live next other ↔ other ≠ inum ∧ Live im other := by
  rw [freeInode] at ran
  cases found : im.getInode inum with
  | none =>
    rw [found] at ran
    cases ran
  | some ino =>
    simp only [found] at ran
    split at ran
    next => cases ran
    next typed =>
      cases ran
      have live : Live im inum := live_iff_getInode.mpr ⟨ino, found, typed⟩
      refine ⟨nextInum_putInode live.1 _, fun other => ?_⟩
      by_cases same : other = inum
      · subst same
        refine iff_of_false (fun still => still.2 ?_) fun both => both.1 rfl
        rw [record_putInode live.1 _ live.1, if_pos rfl]
      · simp only [Live, ne_eq, same, not_false_eq_true, true_and]
        refine and_congr_right fun real => ?_
        rw [record_putInode live.1 _ real, if_neg same]

end Single

/-! ## Runs -/

/-- A call that returned. -/
inductive InodeCall
  | alloc (type now : UInt32) (inum : ℕ)
  | free (inum : ℕ)

/-- An inode manager, and the inodes handed out and not freed since. -/
structure InodeTable where
  im : InodeManager
  live : Set ℕ

def inodeTable : System InodeTable InodeCall where
  init state := InodeCursor state.im ∧
    ∀ inum, inum ∈ state.live ↔ ∃ ino, state.im.getInode inum = some ino ∧ ino.type ≠ 0
  step state call next :=
    match call with
    | .alloc type now inum => type.toUInt16 ≠ 0 ∧
      state.im.allocInode type now = .ok (next.im, inum) ∧ next.live = insert inum state.live
    | .free inum => state.im.freeInode inum = .ok next.im ∧ next.live = state.live \ {inum}

/-- The inodes handed out are those that have a type. -/
theorem inodeTable_typed {state : InodeTable} (reachable : Reachable inodeTable state) :
    InodeCursor state.im ∧ ∀ inum, inum ∈ state.live ↔ Live state.im inum := by
  refine @Reachable.invariant _ _ inodeTable
    (fun state => InodeCursor state.im ∧ ∀ inum, inum ∈ state.live ↔ Live state.im inum)
    (fun state begins => ⟨begins.1, fun inum => ?_⟩) ?_ _ reachable
  · rw [begins.2 inum, live_iff_getInode]
  · rintro state call next ⟨cursor, same⟩ steps
    cases call with
    | alloc type now inum =>
      obtain ⟨typed, ran, live⟩ := steps
      rcases allocInode_allotted cursor type now with ⟨_, _, did, allotted⟩ | ⟨exits, _⟩
      · rw [ran] at did
        cases did
        refine ⟨allotted.cursor, fun other => ?_⟩
        rw [live, Set.mem_insert_iff, same, allotted.live typed]
      · rw [ran] at exits
        cases exits
    | free inum =>
      obtain ⟨ran, live⟩ := steps
      obtain ⟨kept, others⟩ := freeInode_live ran
      refine ⟨by rwa [InodeCursor, kept], fun other => ?_⟩
      rw [live, Set.mem_sdiff, Set.mem_singleton_iff, same, others, and_comm]

/-- One allocation is complete, fresh and framed, and no run hands out the root or a live
inode. -/
theorem allocInode_fresh :
    (∀ (im : InodeManager) (type now : UInt32), InodeCursor im →
      (∃ next id, im.allocInode type now = .ok (next, id) ∧ Allotted im type now next id) ∨
      (im.allocInode type now = .error .exit ∧
        ∀ id, 2 ≤ id → id ≤ inodeNum → ∃ ino, im.getInode id = some ino ∧ ino.type ≠ 0)) ∧
    ∀ state, Reachable inodeTable state → ∀ (type now : UInt32) next id,
      state.im.allocInode type now = .ok (next, id) → id ≠ 1 ∧ id ∉ state.live := by
  refine ⟨fun im type now cursor => allocInode_allotted cursor type now, ?_⟩
  intro state reachable type now next id ran
  obtain ⟨cursor, same⟩ := inodeTable_typed reachable
  rcases allocInode_allotted cursor type now with ⟨_, _, did, allotted⟩ | ⟨exits, _⟩
  · rw [ran] at did
    cases did
    have low := allotted.low
    exact ⟨by omega, fun live => allotted.dead ((same id).mp live)⟩
  · rw [ran] at exits
    cases exits

theorem allocInode_fresh_init : ∃ next id,
    (InodeManager.init blockNum (fun _ => 0) 0).allocInode 2 9 = .ok (next, id) ∧ id ≠ 1 ∧
      ¬ Live (InodeManager.init blockNum (fun _ => 0) 0) id := by
  have cursor : InodeCursor (InodeManager.init blockNum (fun _ => 0) 0) :=
    ⟨le_rfl, by simp [InodeManager.init]⟩
  rcases allocInode_fresh.1 _ 2 9 cursor with ⟨next, id, ran, _⟩ | ⟨_, full⟩
  · refine ⟨next, id, ran, ?_⟩
    exact allocInode_fresh.2 ⟨_, {inum | Live (.init blockNum (fun _ => 0) 0) inum}⟩
      ⟨[], .start ⟨cursor, fun inum => live_iff_getInode⟩⟩ 2 9 next id ran
  · obtain ⟨_, typed⟩ := live_iff_getInode.mpr (full 2 le_rfl (by simp))
    exact absurd ((Represents.init (fun _ => 0) 0).dead 2 ⟨by simp, by simp⟩ rfl) typed

end NaiveFileSystem.Extent
