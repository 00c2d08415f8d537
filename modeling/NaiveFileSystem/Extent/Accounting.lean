import NaiveFileSystem.Extent.Requests

/-!
# Block accounting

A state is well-accounted when no file needs its table, no block has two owners,
and the marks are exactly the blocks of the live inodes. A request changes one
inode, so it keeps the accounting when the blocks this inode gains were unmarked
and the ones it loses are unmarked. The definition bounds neither cursor from
above; the requests need in addition that a search from each cursor ends before it
leaves the disk or the inode table.
-/

namespace NaiveFileSystem.Extent

open BlockManager InodeManager

def Live (im : InodeManager) (inum : ℕ) : Prop :=
  IsInode inum ∧ (record im.bm.blocks inum).type ≠ 0

structure WellAccounted (im : InodeManager) : Prop where
  cursor : iblock inodeNum blockNum < im.bm.nextBlock
  size : ∀ inum, Live im inum → (record im.bm.blocks inum).size.toNat ≤ ndirect * blockSize
  data : ∀ inum nth, Live im inum → nth < blocksOf im.bm inum → IsData (place im.bm inum nth)
  distinct : ∀ one other nth index, Live im one → Live im other → nth < blocksOf im.bm one →
    index < blocksOf im.bm other → place im.bm one nth = place im.bm other index →
    one = other ∧ nth = index
  used : ∀ id, im.bm.usingBlocks id ≠ 0 ↔
    ∃ inum nth, Live im inum ∧ nth < blocksOf im.bm inum ∧ place im.bm inum nth = id

/-- Both searches end in time: the cursors are in range, or something is free. -/
structure Fits (im : InodeManager) : Prop where
  block : im.bm.nextBlock ≤ blockNum ∨
    ∃ hover, dataStart ≤ hover ∧ hover < blockNum ∧ im.bm.usingBlocks (.ofNat hover) = 0
  inode : 1 ≤ im.nextInum ∧ (im.nextInum ≤ inodeNum + 1 ∨
    ∃ inum, 2 ≤ inum ∧ inum ≤ inodeNum ∧ (record im.bm.blocks inum).type = 0)

/-! ## What one request may change -/

section Change

variable {im next : InodeManager} {inum : ℕ}

theorem blockCount_direct {size : ℕ} (bound : size ≤ ndirect * blockSize) :
    blockCount size ≤ ndirect := by
  simp only [blockCount, ndirect, blockSize] at bound ⊢
  split <;> omega

theorem place_of_record {bm after : BlockManager} {nth : ℕ}
    (same : record after.blocks inum = record bm.blocks inum) (direct : nth < ndirect) :
    place after inum nth = place bm inum nth := by
  rw [place, place, mapped_direct direct, mapped_direct direct, same]

theorem blocksOf_of_record {bm after : BlockManager}
    (same : record after.blocks inum = record bm.blocks inum) :
    blocksOf after inum = blocksOf bm inum := by rw [blocksOf, blocksOf, same]

theorem WellAccounted.direct (accounted : WellAccounted im) (live : Live im inum) :
    blocksOf im.bm inum ≤ ndirect := blockCount_direct (accounted.size inum live)

theorem WellAccounted.placed (accounted : WellAccounted im) (live : Live im inum) :
    Placed im.bm (record im.bm.blocks inum) (blocksOf im.bm inum) where
  bound := (accounted.direct live).trans (by simp)
  table far := absurd far (Nat.not_lt.mpr (accounted.direct live))
  data nth below := accounted.data inum nth live below
  used nth below := (accounted.used _).mpr ⟨inum, nth, live, below, rfl⟩
  distinct nth index below below' same :=
    (accounted.distinct inum inum nth index live live below below' same).2

/-- Inode `inum` owns the block with index `nth`. -/
def Owns (im : InodeManager) (inum nth : ℕ) : Prop := Live im inum ∧ nth < blocksOf im.bm inum

/-- Only inode `inum` changes. Its blocks were its own or unmarked, and the marks
are those of its blocks and of the blocks it never had. -/
structure Accounts (im : InodeManager) (inum : ℕ) (next : InodeManager) : Prop where
  cursor : iblock inodeNum blockNum < next.bm.nextBlock
  others : ∀ other, IsInode other → other ≠ inum →
    record next.bm.blocks other = record im.bm.blocks other
  size : Live next inum → (record next.bm.blocks inum).size.toNat ≤ ndirect * blockSize
  data : ∀ nth, Owns next inum nth → IsData (place next.bm inum nth)
  distinct : ∀ nth index, Owns next inum nth → Owns next inum index →
    place next.bm inum nth = place next.bm inum index → nth = index
  origin : ∀ nth, Owns next inum nth →
    (∃ index, Owns im inum index ∧ place im.bm inum index = place next.bm inum nth) ∨
      im.bm.usingBlocks (place next.bm inum nth) = 0
  used : ∀ id, next.bm.usingBlocks id ≠ 0 ↔
    (∃ nth, Owns next inum nth ∧ place next.bm inum nth = id) ∨
      (im.bm.usingBlocks id ≠ 0 ∧ ∀ nth, Owns im inum nth → place im.bm inum nth ≠ id)

theorem Accounts.live_other (accounts : Accounts im inum next) {other : ℕ} (apart : other ≠ inum) :
    Live next other ↔ Live im other := by
  refine and_congr_right fun real => ?_
  rw [accounts.others other real apart]

theorem Accounts.owns_other (accounts : Accounts im inum next) {other nth : ℕ}
    (apart : other ≠ inum) : Owns next other nth ↔ Owns im other nth := by
  constructor
  · rintro ⟨live, below⟩
    rw [blocksOf_of_record (accounts.others other live.1 apart)] at below
    exact ⟨(accounts.live_other apart).mp live, below⟩
  · rintro ⟨live, below⟩
    rw [← blocksOf_of_record (accounts.others other live.1 apart)] at below
    exact ⟨(accounts.live_other apart).mpr live, below⟩

theorem Accounts.place_other (accounts : Accounts im inum next) (accounted : WellAccounted im)
    {other nth : ℕ} (apart : other ≠ inum) (owns : Owns im other nth) :
    place next.bm other nth = place im.bm other nth :=
  place_of_record (accounts.others other owns.1.1 apart)
    (lt_of_lt_of_le owns.2 (accounted.direct owns.1))

/-- No block of another inode becomes one of this inode. -/
theorem Accounts.apart (accounts : Accounts im inum next) (accounted : WellAccounted im)
    {other nth index : ℕ} (different : other ≠ inum) (owns : Owns next inum nth)
    (rival : Owns im other index) : place next.bm inum nth ≠ place im.bm other index := by
  intro same
  rcases accounts.origin nth owns with ⟨old, before, here⟩ | fresh
  · rw [← here] at same
    have shared := accounted.distinct inum other old index before.1 rival.1 before.2 rival.2 same
    exact different shared.1.symm
  · rw [same] at fresh
    exact (accounted.used _).mpr ⟨other, index, rival.1, rival.2, rfl⟩ fresh

theorem WellAccounted.change (accounted : WellAccounted im) (accounts : Accounts im inum next) :
    WellAccounted next := by
  refine ⟨accounts.cursor, fun other live => ?_, fun other nth live below => ?_,
    fun one other nth index live live' below below' same => ?_, fun id => ?_⟩
  · by_cases own : other = inum
    · exact own ▸ accounts.size (own ▸ live)
    · rw [accounts.others other live.1 own]
      exact accounted.size other ((accounts.live_other own).mp live)
  · by_cases own : other = inum
    · subst own
      exact accounts.data nth ⟨live, below⟩
    · have owns := (accounts.owns_other own).mp ⟨live, below⟩
      rw [accounts.place_other accounted own owns]
      exact accounted.data other nth owns.1 owns.2
  · by_cases first : one = inum <;> by_cases second : other = inum
    · subst first second
      exact ⟨rfl, accounts.distinct nth index ⟨live, below⟩ ⟨live', below'⟩ same⟩
    · subst first
      have rival := (accounts.owns_other second).mp ⟨live', below'⟩
      rw [accounts.place_other accounted second rival] at same
      exact absurd same (accounts.apart accounted second ⟨live, below⟩ rival)
    · subst second
      have rival := (accounts.owns_other first).mp ⟨live, below⟩
      rw [accounts.place_other accounted first rival] at same
      exact absurd same.symm (accounts.apart accounted first ⟨live', below'⟩ rival)
    · have owns := (accounts.owns_other first).mp ⟨live, below⟩
      have rival := (accounts.owns_other second).mp ⟨live', below'⟩
      rw [accounts.place_other accounted first owns, accounts.place_other accounted second rival]
        at same
      exact accounted.distinct one other nth index owns.1 rival.1 owns.2 rival.2 same
  · rw [accounts.used, accounted.used]
    constructor
    · rintro (⟨nth, owns, here⟩ | ⟨⟨other, nth, live, below, here⟩, away⟩)
      · exact ⟨inum, nth, owns.1, owns.2, here⟩
      · have apart : other ≠ inum := by
          rintro rfl
          exact away nth ⟨live, below⟩ here
        have owns := (accounts.owns_other apart).mpr ⟨live, below⟩
        exact ⟨other, nth, owns.1, owns.2,
          (accounts.place_other accounted apart ⟨live, below⟩).trans here⟩
    · rintro ⟨other, nth, live, below, here⟩
      by_cases own : other = inum
      · subst own
        exact .inl ⟨nth, ⟨live, below⟩, here⟩
      · have owns := (accounts.owns_other own).mp ⟨live, below⟩
        rw [accounts.place_other accounted own owns] at here
        refine .inr ⟨⟨other, nth, owns.1, owns.2, here⟩, fun index before same => own ?_⟩
        exact (accounted.distinct other inum nth index owns.1 before.1 owns.2 before.2
          (here.trans same.symm)).1

end Change

/-! ## The requests -/

section Requests

variable {im next : InodeManager} {inum : ℕ}

theorem Accounts.emptied (cursor : iblock inodeNum blockNum < next.bm.nextBlock)
    (others : ∀ other, IsInode other → other ≠ inum →
      record next.bm.blocks other = record im.bm.blocks other)
    (empty : Live next inum → (record next.bm.blocks inum).size = 0)
    (freed : ∀ nth, Owns im inum nth → next.bm.usingBlocks (place im.bm inum nth) = 0)
    (marks : ∀ id, (∀ nth, Owns im inum nth → place im.bm inum nth ≠ id) →
      next.bm.usingBlocks id = im.bm.usingBlocks id) : Accounts im inum next := by
  have none : ∀ nth, ¬ Owns next inum nth := by
    rintro nth ⟨live, below⟩
    rw [blocksOf, empty live] at below
    simp [blockCount] at below
  refine ⟨cursor, others, fun live => ?_, fun nth owns => absurd owns (none nth),
    fun nth _ owns => absurd owns (none nth), fun nth owns => absurd owns (none nth), fun id => ?_⟩
  · rw [empty live]
    simp
  · constructor
    · intro used
      have away : ∀ nth, Owns im inum nth → place im.bm inum nth ≠ id := by
        rintro nth owns rfl
        exact used (freed nth owns)
      rw [marks id away] at used
      exact .inr ⟨used, away⟩
    · rintro (⟨nth, owns, _⟩ | ⟨used, away⟩)
      · exact absurd owns (none nth)
      · rwa [marks id away]

theorem Accounts.alloc (accounted : WellAccounted im) (real : IsInode inum)
    (unused : (record im.bm.blocks inum).type = 0) (after : ℕ) (ino : Inode) (empty : ino.size = 0) :
    Accounts im inum (({ im with nextInum := after } : InodeManager).putInode inum ino) := by
  refine .emptied ?_ (fun other also apart => ?_) (fun _ => ?_) (fun nth owns => ?_) fun id _ => ?_
  · rw [nextBlock_putInode real]
    exact accounted.cursor
  · rw [record_putInode real _ also, if_neg apart]
  · rw [record_putInode real _ real, if_pos rfl, empty]
  · exact absurd unused owns.1.2
  · rw [usingBlocks_putInode real]

theorem removeFile_accounts (accounted : WellAccounted im) (live : Live im inum) :
    ∃ next, im.removeFile inum = .ok next ∧ Accounts im inum next ∧
      next.nextInum = im.nextInum ∧ next.bm.nextBlock = im.bm.nextBlock ∧
      (∀ id, im.bm.usingBlocks id = 0 → next.bm.usingBlocks id = 0) ∧
      ∀ nth, nth < blocksOf im.bm inum → next.bm.usingBlocks (place im.bm inum nth) = 0 := by
  obtain ⟨real, typed⟩ := live
  have placed := accounted.placed ⟨real, typed⟩
  obtain ⟨bm, ran, freed⟩ := @freeBlocks_ok im.bm (record im.bm.blocks inum) 0
    (blocksOf im.bm inum) (by rw [Nat.zero_add]; exact placed.bound)
    fun far => (placed.table (by omega)).legal
  rw [Nat.zero_add] at freed
  have disk : record bm.blocks inum = record im.bm.blocks inum := by rw [freed.blocks]
  refine ⟨({ im with bm := bm } : InodeManager).putInode inum
    { record im.bm.blocks inum with type := 0 }, ?_, ?_, ?_, ?_, fun id free => ?_,
    fun nth below => ?_⟩
  · rw [blocksOf] at ran
    simp only [removeFile, derefInode_eq real, ran, bind, Except.bind, freeInode,
      getInode_eq real, disk, if_neg typed]
  · refine .emptied ?_ (fun other also apart => ?_) (fun live => ?_) (fun nth owns => ?_)
      fun id away => ?_
    · rw [nextBlock_putInode real, freed.cursor]
      exact accounted.cursor
    · rw [record_putInode real _ also, if_neg apart]
      simp only [freed.blocks]
    · have dead := live.2
      rw [record_putInode real _ real, if_pos rfl] at dead
      exact absurd rfl dead
    · rw [usingBlocks_putInode real]
      exact freed.freed nth (Nat.zero_le nth) owns.2
    · rw [usingBlocks_putInode real]
      exact freed.kept id fun nth _ below => away nth ⟨⟨real, typed⟩, below⟩
  · exact nextInum_putInode real _
  · rw [nextBlock_putInode real]
    exact freed.cursor
  · rw [usingBlocks_putInode real]
    refine (freed.kept id fun nth _ below here => ?_).trans free
    exact placed.used nth below (here ▸ free)
  · rw [usingBlocks_putInode real]
    exact freed.freed nth (Nat.zero_le nth) below

theorem WellAccounted.of_sameFiles (accounted : WellAccounted im) (live : Live im inum)
    (same : SameFiles im next) (others : ∀ other, IsInode other → other ≠ inum →
      record next.bm.blocks other = record im.bm.blocks other) : WellAccounted next := by
  obtain ⟨typed, sized, entries⟩ := same.records inum live.1
  have count : blocksOf next.bm inum = blocksOf im.bm inum := by rw [blocksOf, blocksOf, sized]
  have owns : ∀ nth, Owns next inum nth ↔ Owns im inum nth := fun nth => by
    rw [Owns, Owns, count, Live, Live, typed]
  have places : ∀ nth, Owns im inum nth → place next.bm inum nth = place im.bm inum nth := by
    intro nth owned
    have direct := lt_of_lt_of_le owned.2 (accounted.direct owned.1)
    rw [place, place, mapped_direct direct, mapped_direct direct, entries]
  refine accounted.change ⟨?_, others, fun _ => ?_, fun nth owned => ?_,
    fun nth index owned owned' equal => ?_, fun nth owned => .inl ?_, fun id => ?_⟩
  · rw [same.cursor]
    exact accounted.cursor
  · rw [sized]
    exact accounted.size inum live
  · have before := (owns nth).mp owned
    rw [places nth before]
    exact accounted.data inum nth before.1 before.2
  · have before := (owns nth).mp owned
    have before' := (owns index).mp owned'
    rw [places nth before, places index before'] at equal
    exact (accounted.distinct inum inum nth index before.1 before'.1 before.2 before'.2 equal).2
  · have before := (owns nth).mp owned
    exact ⟨nth, before, (places nth before).symm⟩
  · rw [same.marks]
    constructor
    · intro used
      by_cases own : ∃ nth, Owns im inum nth ∧ place im.bm inum nth = id
      · obtain ⟨nth, before, here⟩ := own
        exact .inl ⟨nth, (owns nth).mpr before, (places nth before).trans here⟩
      · exact .inr ⟨used, fun nth before here => own ⟨nth, before, here⟩⟩
    · rintro (⟨nth, owned, here⟩ | ⟨used, _⟩)
      · have before := (owns nth).mp owned
        rw [places nth before] at here
        exact (accounted.used id).mpr ⟨inum, nth, before.1, before.2, here⟩
      · exact used

theorem readFile_returns (accounted : WellAccounted im) (live : Live im inum) (now : UInt32) :
    ∃ outcome, im.readFile inum now = .ok outcome ∧
      (outcome.1 = im ∨
        outcome.1 = im.putInode inum { record im.bm.blocks inum with atime := now }) := by
  have placed := accounted.placed live
  simp only [readFile, derefInode_eq live.1, bind, Except.bind]
  split
  next => exact ⟨_, rfl, .inl rfl⟩
  next =>
    have bound : ¬ maxfile * blockSize < (record im.bm.blocks inum).size.toNat := by
      have limit := accounted.size inum live
      simp only [maxfile, ndirect, nindirect, blockSize] at limit ⊢
      omega
    rw [if_neg bound]
    obtain ⟨rv, ran, _⟩ := @Loop.counted_ok _ _ (fun nth (rv : List UInt8) => (do
        let content ← im.bm.readNthBlock (record im.bm.blocks inum) nth
        .ok (rv ++ content) : Except Fault (List UInt8))) (fun _ _ => True) 0
      (blocksOf im.bm inum) (fun k rv _ below _ => by
        refine ⟨rv ++ List.ofFn (im.bm.blocks (place im.bm inum k)), ?_, trivial⟩
        rw [Nat.zero_add] at below
        rw [readNthBlock, getNthBlock_eq (lt_of_lt_of_le below placed.bound)
          fun far => (placed.table (lt_of_le_of_lt far below)).legal]
        simp only [bind, Except.bind, readBlock, if_pos (placed.data k below).legal]
        rfl) [] trivial
    simp only [bind, Except.bind, blocksOf] at ran
    simp only [ran]
    exact ⟨_, rfl, .inr rfl⟩

theorem readFile_accounted (accounted : WellAccounted im) (live : Live im inum) (now : UInt32) :
    ∃ outcome, im.readFile inum now = .ok outcome ∧ WellAccounted outcome.1 ∧
      SameFiles im outcome.1 := by
  obtain ⟨outcome, ran, touched⟩ := readFile_returns accounted live now
  refine ⟨outcome, ran, ?_⟩
  rcases touched with kept | put
  · rw [kept]
    exact ⟨accounted, rfl, rfl, rfl, fun _ _ => rfl, fun _ _ => rfl, fun _ _ => ⟨rfl, rfl, rfl⟩⟩
  · rw [put]
    have same : SameFiles im (im.putInode inum { record im.bm.blocks inum with atime := now }) :=
      .putInode live.1 _ rfl rfl rfl
    refine ⟨accounted.of_sameFiles live same fun other also apart => ?_, same⟩
    rw [record_putInode live.1 _ also, if_neg apart]

end Requests

/-! ## Writing with a cursor behind the disk -/

namespace BlockManager

/-- The cursor is put back to the end of the disk. -/
def rewind (bm : BlockManager) : BlockManager :=
  { bm with nextBlock := min bm.nextBlock blockNum }

theorem rewind_blocks (bm : BlockManager) : bm.rewind.blocks = bm.blocks := rfl

theorem rewind_of_le {bm : BlockManager} (inside : bm.nextBlock ≤ blockNum) : bm.rewind = bm := by
  rw [rewind, Nat.min_eq_left inside]

theorem freeBlocks_rewind (bm : BlockManager) (ino : Inode) (first count : ℕ) :
    bm.rewind.freeBlocks ino first count = (bm.freeBlocks ino first count).map rewind := by
  refine Loop.counted_map (fun nth state => ?_) first count bm
  have same : state.rewind.getNthBlock ino nth = state.getNthBlock ino nth := rfl
  unfold freeNthBlock
  rw [same]
  cases state.getNthBlock ino nth with
  | error => rfl
  | ok id => rfl

theorem writeNthBlock_rewind (bm : BlockManager) (ino : Inode) (nth : ℕ) (content : List UInt8) :
    bm.rewind.writeNthBlock ino nth content = (bm.writeNthBlock ino nth content).map rewind := by
  have same : bm.rewind.getNthBlock ino nth = bm.getNthBlock ino nth := rfl
  unfold writeNthBlock
  rw [same]
  cases bm.getNthBlock ino nth with
  | error => rfl
  | ok id =>
    simp only [bind, Except.bind, Except.map, writeBlock]
    split <;> rfl

theorem writeBlocks_rewind (bm : BlockManager) (ino : Inode) (buf : List UInt8) (size : ℕ) :
    bm.rewind.writeBlocks ino buf size = (bm.writeBlocks ino buf size).map rewind := by
  unfold writeBlocks
  simp only
  split
  next => rfl
  next =>
    rw [Loop.counted_map fun nth state => writeNthBlock_rewind state ino nth _]
    simp only [bind, Except.bind]
    cases Loop.counted _ 0 (blockCount size - 1) bm with
    | error => rfl
    | ok middle => exact writeNthBlock_rewind middle ino _ _

end BlockManager

namespace InodeManager

def rewind (im : InodeManager) : InodeManager := { im with bm := im.bm.rewind }

theorem putInode_rewind (im : InodeManager) {inum : ℕ} (real : IsInode inum) (ino : Inode) :
    im.rewind.putInode inum ino = (im.putInode inum ino).rewind := by
  rw [putInode_eq real, putInode_eq real]
  rfl

theorem writeFile_rewind (im : InodeManager) {inum : ℕ} (real : IsInode inum) (buf : List UInt8)
    (size now : UInt32) (shrinks : blockCount size.toNat ≤ blocksOf im.bm inum) :
    im.rewind.writeFile inum buf size now = (im.writeFile inum buf size now).map rewind := by
  have resized : im.bm.rewind.resizeBlocks (record im.bm.blocks inum) (blocksOf im.bm inum)
      (blockCount size.toNat) = (im.bm.resizeBlocks (record im.bm.blocks inum)
        (blocksOf im.bm inum) (blockCount size.toNat)).map
          fun state => (state.1.rewind, state.2) := by
    unfold resizeBlocks
    split
    next =>
      rw [freeBlocks_rewind]
      cases im.bm.freeBlocks (record im.bm.blocks inum) _ _ with
      | error => rfl
      | ok => rfl
    next => rw [Nat.sub_eq_zero_of_le shrinks]; rfl
  have manager : im.rewind.bm = im.bm.rewind := rfl
  rw [blocksOf] at resized
  unfold writeFile
  simp only [derefInode_eq real, bind, Except.bind, manager, rewind_blocks, resized]
  cases im.bm.resizeBlocks (record im.bm.blocks inum) _ _ with
  | error => rfl
  | ok state =>
    simp only [Except.map]
    rw [writeBlocks_rewind]
    cases state.1.writeBlocks _ buf size.toNat with
    | error => rfl
    | ok disk => exact congrArg Except.ok (putInode_rewind { im with bm := disk } real _)

/-- A file that grows allocates a block first, and that puts the cursor back. -/
theorem writeFile_grows (im : InodeManager) {inum : ℕ} (real : IsInode inum) (buf : List UInt8)
    (size now : UInt32) (grows : blocksOf im.bm inum < blockCount size.toNat) {hover : ℕ}
    (beyond : blockNum ≤ im.bm.nextBlock) (low : dataStart ≤ hover) (high : hover < blockNum)
    (unused : im.bm.usingBlocks (.ofNat hover) = 0) :
    im.writeFile inum buf size now = im.rewind.writeFile inum buf size now := by
  have manager : im.rewind.bm = im.bm.rewind := rfl
  have first : im.bm.allocBlock = im.bm.rewind.allocBlock := by
    rw [allocBlock_beyond beyond low high unused, BlockManager.rewind, Nat.min_eq_right beyond]
  have resized : im.bm.resizeBlocks (record im.bm.blocks inum) (blocksOf im.bm inum)
      (blockCount size.toNat) = im.bm.rewind.resizeBlocks (record im.bm.blocks inum)
        (blocksOf im.bm inum) (blockCount size.toNat) := by
    obtain ⟨more, count⟩ := Nat.exists_eq_add_of_lt grows
    have left : blocksOf im.bm inum + more + 1 - blocksOf im.bm inum = more + 1 := by omega
    simp only [resizeBlocks, count, left, Nat.not_lt.mpr (count ▸ grows.le), if_false, allocBlocks,
      Loop.counted, allocNthBlock, first]
  rw [blocksOf] at resized
  unfold writeFile
  simp only [derefInode_eq real, bind, Except.bind, manager, rewind_blocks, resized]
  rfl

end InodeManager

/-! ## Writing a file -/

section Write

variable {im next : InodeManager} {inum : ℕ} {buf : List UInt8}

theorem toNat_direct (bound : buf.length ≤ ndirect * blockSize) :
    (UInt32.ofNat buf.length).toNat = buf.length := by
  apply toNat_length
  simp only [maxfile, ndirect, nindirect, blockSize] at bound ⊢
  omega

theorem Rewritten.blocksOf_eq (rewritten : Rewritten im inum buf next)
    (bound : buf.length ≤ ndirect * blockSize) : blocksOf next.bm inum = blockCount buf.length := by
  rw [blocksOf, rewritten.size, toNat_direct bound]

theorem Rewritten.accounts (rewritten : Rewritten im inum buf next) (live : Live im inum)
    (bound : buf.length ≤ ndirect * blockSize) : Accounts im inum next := by
  have count := rewritten.blocksOf_eq bound
  have also : Live next inum := ⟨live.1, by rw [rewritten.type]; exact live.2⟩
  refine ⟨?_, rewritten.others, fun _ => ?_, fun nth owns => ?_, fun nth index owns owns' same => ?_,
    fun nth owns => ?_, fun id => ?_⟩
  · rw [iblock_eq]
    exact rewritten.cursor.1
  · rw [rewritten.size, toNat_direct bound]
    exact bound
  · exact rewritten.placed.data nth (count ▸ owns.2)
  · exact rewritten.placed.distinct nth index (count ▸ owns.2) (count ▸ owns'.2) same
  · rcases rewritten.origin nth (count ▸ owns.2) with ⟨early, same⟩ | ⟨_, fresh⟩
    · exact .inl ⟨nth, ⟨live, early⟩, same.symm⟩
    · exact .inr fresh
  · constructor
    · intro used
      rcases rewritten.used used with ⟨nth, below, here⟩ | ⟨before, away⟩
      · exact .inl ⟨nth, ⟨also, count ▸ below⟩, here⟩
      · exact .inr ⟨before, fun nth owns => away nth owns.2⟩
    · rintro (⟨nth, owns, rfl⟩ | ⟨used, away⟩)
      · exact rewritten.placed.used nth (count ▸ owns.2)
      · by_cases own : ∃ nth, nth < blockCount buf.length ∧ place next.bm inum nth = id
        · obtain ⟨nth, below, rfl⟩ := own
          exact rewritten.placed.used nth below
        · rwa [rewritten.marks id (fun nth below here => own ⟨nth, below, here⟩)
            fun nth below => away nth ⟨live, below⟩]

theorem Rewritten.still_free (rewritten : Rewritten im inum buf next)
    (placed : Placed im.bm (record im.bm.blocks inum) (blocksOf im.bm inum))
    (shrinks : blockCount buf.length ≤ blocksOf im.bm inum) {id : BlockId}
    (free : im.bm.usingBlocks id = 0) : next.bm.usingBlocks id = 0 := by
  have away : ∀ nth, nth < blocksOf im.bm inum → place im.bm inum nth ≠ id := by
    rintro nth below rfl
    exact placed.used nth below free
  rw [rewritten.marks id ?_ away, free]
  intro nth below here
  rcases rewritten.origin nth below with ⟨early, same⟩ | ⟨late, _⟩
  · exact away nth early (same.symm.trans here)
  · omega

theorem Rewritten.inode_fits (rewritten : Rewritten im inum buf next) (live : Live im inum)
    (fits : Fits im) : 1 ≤ next.nextInum ∧ (next.nextInum ≤ inodeNum + 1 ∨
      ∃ other, 2 ≤ other ∧ other ≤ inodeNum ∧ (record next.bm.blocks other).type = 0) := by
  rw [rewritten.nextInum]
  refine fits.inode.imp_right (Or.imp_right ?_)
  rintro ⟨other, low, high, free⟩
  have apart : other ≠ inum := by
    rintro rfl
    exact live.2 free
  exact ⟨other, low, high, by rw [rewritten.others other ⟨by omega, high⟩ apart, free]⟩

/-- From a cursor on the disk the write goes through, or the blocks run out. -/
theorem writeFile_cases (accounted : WellAccounted im) (inside : im.bm.nextBlock ≤ blockNum)
    (live : Live im inum) (bound : buf.length ≤ ndirect * blockSize) (now : UInt32) :
    (∃ next, im.writeFile inum buf (.ofNat buf.length) now = .ok next ∧
      Rewritten im inum buf next) ∨
    (im.writeFile inum buf (.ofNat buf.length) now = .error .exit ∧
      blocksOf im.bm inum + im.bm.freeCount < blockCount buf.length) := by
  have behind := accounted.cursor
  rw [iblock_eq] at behind
  have cursor : Cursor im.bm := ⟨behind, inside⟩
  have small : buf.length ≤ maxfile * blockSize := by
    simp only [maxfile, ndirect, nindirect, blockSize] at bound ⊢
    omega
  have table : ndirect < blockCount buf.length → IsFront (record im.bm.blocks inum).table :=
    fun far => absurd far (Nat.not_lt.mpr (blockCount_direct bound))
  rcases Nat.lt_or_ge (blocksOf im.bm inum + im.bm.freeCount) (blockCount buf.length) with full | room
  · exact .inr ⟨writeFile_exit now live.1 cursor small table full, full⟩
  · exact .inl (writeFile_ok now live.1 (accounted.placed live) cursor small table room)

theorem WellAccounted.rewind (accounted : WellAccounted im) : WellAccounted im.rewind where
  cursor := lt_min accounted.cursor (by rw [iblock_eq]; simp)
  size := accounted.size
  data := accounted.data
  distinct := accounted.distinct
  used := accounted.used

theorem WellAccounted.of_rewind (accounted : WellAccounted im.rewind) : WellAccounted im where
  cursor := lt_of_lt_of_le accounted.cursor (Nat.min_le_left _ _)
  size := accounted.size
  data := accounted.data
  distinct := accounted.distinct
  used := accounted.used

theorem writeFile_accounted (accounted : WellAccounted im) (fits : Fits im) (live : Live im inum)
    (bound : buf.length ≤ ndirect * blockSize) (now : UInt32) :
    (∃ next, im.writeFile inum buf (.ofNat buf.length) now = .ok next ∧
      WellAccounted next ∧ Fits next) ∨
    (im.writeFile inum buf (.ofNat buf.length) now = .error .exit ∧
      blocksOf im.bm inum + im.bm.freeCount < blockCount buf.length) := by
  have whole := toNat_direct bound
  -- The search from the end of the disk, and what follows for the one from behind it.
  have rewound : im.rewind.bm.nextBlock ≤ blockNum := Nat.min_le_right _ _
  have outcome := writeFile_cases accounted.rewind rewound live bound now
  rcases Nat.lt_or_ge blockNum im.bm.nextBlock with beyond | inside
  case inr =>
    have same : im.rewind = im := by rw [InodeManager.rewind, rewind_of_le inside]
    rw [same] at outcome
    refine outcome.imp_left ?_
    rintro ⟨next, ran, rewritten⟩
    exact ⟨next, ran, accounted.change (rewritten.accounts live bound), .inl rewritten.cursor.2,
      rewritten.inode_fits live fits⟩
  obtain ⟨hover, low, high, unused⟩ := fits.block.resolve_left (Nat.not_le.mpr beyond)
  rcases Nat.lt_or_ge (blocksOf im.bm inum) (blockCount buf.length) with grows | shrinks
  · rw [← whole] at grows
    rw [writeFile_grows im live.1 buf _ now grows beyond.le low high unused]
    refine outcome.imp_left ?_
    rintro ⟨next, ran, rewritten⟩
    exact ⟨next, ran, accounted.rewind.change (rewritten.accounts live bound),
      .inl rewritten.cursor.2, rewritten.inode_fits live ⟨.inl rewound, fits.inode⟩⟩
  · have ran := writeFile_rewind im live.1 buf (.ofNat buf.length) now (by rwa [whole])
    rcases outcome with ⟨after, ended, rewritten⟩ | ⟨_, full⟩
    · rw [ran] at ended
      cases written : im.writeFile inum buf (.ofNat buf.length) now with
      | error fault =>
        rw [written] at ended
        cases ended
      | ok next =>
        rw [written] at ended
        cases ended
        refine .inl ⟨next, rfl,
          (accounted.rewind.change (rewritten.accounts live bound)).of_rewind, ?_, ?_⟩
        · exact .inr ⟨hover, low, high,
            rewritten.still_free (accounted.rewind.placed live) shrinks unused⟩
        · exact rewritten.inode_fits live ⟨.inl rewound, fits.inode⟩
    · exact absurd (lt_of_le_of_lt (Nat.le_add_right _ _) full) (Nat.not_lt.mpr shrinks)

end Write

/-! ## Every request -/

/-- A request ends in a good state, or the process stops where there is no room. -/
def Ends (good : InodeManager → Prop) (outcome : Except Fault InodeManager) (full : Prop) : Prop :=
  (∃ next, outcome = .ok next ∧ good next) ∨ (outcome = .error .exit ∧ full)

def KeepsAccounts (good : InodeManager → Prop) (im : InodeManager) : Prop :=
  (∀ (type : ExtentType) now, Ends good ((im.allocInode type.code now).map Prod.fst)
    (∀ inum, 2 ≤ inum → inum ≤ inodeNum → Live im inum)) ∧
  ∀ inum, Live im inum →
    (∀ buf now, buf.length ≤ ndirect * blockSize →
      Ends good (im.writeFile inum buf (.ofNat buf.length) now)
        (blocksOf im.bm inum + im.bm.freeCount < blockCount buf.length)) ∧
    (∀ now, Ends good ((im.readFile inum now).map Prod.fst) False) ∧
    Ends good (im.removeFile inum) False

section Every

variable {im next : InodeManager}

theorem allocInode_accounted (accounted : WellAccounted im) (fits : Fits im) (type : ExtentType)
    (now : UInt32) :
    Ends (fun next => WellAccounted next ∧ Fits next) ((im.allocInode type.code now).map Prod.fst)
      (∀ inum, 2 ≤ inum → inum ≤ inodeNum → Live im inum) := by
  rcases allocInode_cases type.code now fits.inode.1 fits.inode.2 with
    ⟨id, after, real, _, unused, low, high, ran⟩ | ⟨exits, full⟩
  · refine .inl ⟨_, by rw [ran]; rfl,
      accounted.change (.alloc accounted real unused after _ rfl), ?_, ?_⟩
    · rw [nextBlock_putInode real, usingBlocks_putInode real]
      exact fits.block
    · rw [nextInum_putInode real]
      exact ⟨Nat.le_of_succ_le low, .inl (high.trans (Nat.le_succ inodeNum))⟩
  · exact .inr ⟨by rw [exits]; rfl, fun inum above below => ⟨⟨by omega, below⟩, full inum above below⟩⟩

theorem readFile_fits (fits : Fits im) (same : SameFiles im next) : Fits next := by
  refine ⟨?_, ?_⟩
  · rw [same.cursor, same.marks]
    exact fits.block
  · rw [same.nextInum]
    refine fits.inode.imp_right (Or.imp_right ?_)
    rintro ⟨inum, low, high, free⟩
    exact ⟨inum, low, high, by rw [(same.records inum ⟨by omega, high⟩).1, free]⟩

theorem removeFile_fits {inum : ℕ} (fits : Fits im) (live : Live im inum)
    (accounts : Accounts im inum next) (inums : next.nextInum = im.nextInum)
    (cursor : next.bm.nextBlock = im.bm.nextBlock)
    (freed : ∀ id, im.bm.usingBlocks id = 0 → next.bm.usingBlocks id = 0) : Fits next := by
  refine ⟨?_, ?_⟩
  · rw [cursor]
    refine fits.block.imp_right ?_
    rintro ⟨hover, low, high, unused⟩
    exact ⟨hover, low, high, freed _ unused⟩
  · rw [inums]
    refine fits.inode.imp_right (Or.imp_right ?_)
    rintro ⟨other, low, high, free⟩
    have apart : other ≠ inum := by
      rintro rfl
      exact live.2 free
    exact ⟨other, low, high, by rw [accounts.others other ⟨by omega, high⟩ apart, free]⟩

/-- No request leaks a block or gives one to two inodes. -/
theorem accounting_kept (im : InodeManager) (accounted : WellAccounted im) (fits : Fits im) :
    KeepsAccounts (fun next => WellAccounted next ∧ Fits next) im := by
  refine ⟨fun type now => allocInode_accounted accounted fits type now, fun inum live =>
    ⟨fun buf now bound => writeFile_accounted accounted fits live bound now, fun now => ?_, ?_⟩⟩
  · obtain ⟨outcome, ran, kept, same⟩ := readFile_accounted accounted live now
    exact .inl ⟨outcome.1, by rw [ran]; rfl, kept, readFile_fits fits same⟩
  · obtain ⟨next, ran, accounts, inums, cursor, freed, _⟩ := removeFile_accounts accounted live
    exact .inl ⟨next, ran, accounted.change accounts,
      removeFile_fits fits live accounts inums cursor freed⟩

theorem record_zero_size (inum : ℕ) : (record (fun _ _ => 0) inum).size = 0 := by
  simp only [record, Inode.ofBlock, LittleEndian.loadWord, LittleEndian.load_zero]
  rfl

theorem WellAccounted.init {nblocks : ℕ} (large : blockNum ≤ nblocks)
    (junk : Fin (ndirect + 1) → BlockId) (now : UInt32) :
    WellAccounted (.init nblocks junk now) ∧ Fits (.init nblocks junk now) := by
  have bm : (InodeManager.init nblocks junk now).bm.nextBlock = iblock inodeNum nblocks + 1 ∧
      (InodeManager.init nblocks junk now).bm.usingBlocks = fun _ => 0 :=
    ⟨nextBlock_putInode isInode_one _, usingBlocks_putInode isInode_one _⟩
  have empty : ∀ inum, IsInode inum →
      (record (InodeManager.init nblocks junk now).bm.blocks inum).size = 0 := by
    intro inum real
    have put := @record_putInode ⟨.init nblocks, 0⟩ 1 isInode_one ⟨1, 0, now, now, now, junk⟩ inum real
    rw [InodeManager.init, put]
    split
    next => rfl
    next => exact record_zero_size inum
  have none : ∀ inum, IsInode inum → blocksOf (InodeManager.init nblocks junk now).bm inum = 0 :=
    fun inum real => by rw [blocksOf, empty inum real]; rfl
  refine ⟨⟨?_, fun inum live => ?_, fun inum nth live below => ?_,
    fun one _ nth _ live _ below => ?_, fun id => ?_⟩, .inr ⟨dataStart, le_rfl, by simp, ?_⟩, ?_⟩
  · rw [bm.1]
    simp only [iblock, blockNum, bpb, blockSize, inodeNum, ipb] at large ⊢
    omega
  · rw [empty inum live.1]
    simp
  · exact absurd below (by rw [none inum live.1]; exact Nat.not_lt_zero nth)
  · exact absurd below (by rw [none one live.1]; exact Nat.not_lt_zero nth)
  · rw [bm.2]
    refine iff_of_false (fun used => used rfl) ?_
    rintro ⟨inum, nth, live, below, _⟩
    exact absurd below (by rw [none inum live.1]; exact Nat.not_lt_zero nth)
  · rw [bm.2]
  · exact ⟨by simp [InodeManager.init], .inl (by simp [InodeManager.init])⟩

end Every

/-! ## Cursors out of range -/

section Crowded

/-- How many blocks inode `inum` gets when the inodes share out all data blocks. -/
def share (inum : ℕ) : ℕ := min ndirect (blockNum - dataStart - ndirect * (inum - 1))

def crowdedInode (inum : ℕ) : Inode where
  type := 2
  size := .ofNat (blockSize * share inum)
  atime := 0
  mtime := 0
  ctime := 0
  blocks index := .ofNat (dataStart + ndirect * (inum - 1) + index)

/-- Every inode is live and every data block is used, and the next search for a
block starts behind the last one. -/
def crowded (nextInum : ℕ) : InodeManager where
  bm := {
    nextBlock := blockNum + 1
    blocks := fun id => (crowdedInode (id.toNat - 11)).toBlock fun _ => 0
    usingBlocks := fun id => if dataStart ≤ id.toNat ∧ id.toNat < blockNum then 1 else 0 }
  nextInum := nextInum

variable {nextInum inum : ℕ}

theorem record_crowded (real : IsInode inum) :
    record (crowded nextInum).bm.blocks inum = crowdedInode inum := by
  simp only [record, crowded, Inode.ofBlock_toBlock, toNat_inodeBlock real, Nat.add_sub_cancel]

theorem live_crowded (real : IsInode inum) : Live (crowded nextInum) inum := by
  refine ⟨real, ?_⟩
  rw [record_crowded real]
  exact (by decide : (2 : Int16) ≠ 0)

theorem size_crowded (inum : ℕ) : (crowdedInode inum).size.toNat = blockSize * share inum := by
  have bound : share inum ≤ ndirect := Nat.min_le_left _ _
  simp only [crowdedInode, blockSize, ndirect] at bound ⊢
  simp
  omega

theorem blockCount_mul (count : ℕ) : blockCount (blockSize * count) = count := by
  simp only [blockCount, blockSize]
  split <;> omega

theorem blocksOf_crowded (real : IsInode inum) : blocksOf (crowded nextInum).bm inum = share inum := by
  rw [blocksOf, record_crowded real, size_crowded, blockCount_mul]

theorem place_crowded (real : IsInode inum) {nth : ℕ} (below : nth < share inum) :
    place (crowded nextInum).bm inum nth = .ofNat (dataStart + ndirect * (inum - 1) + nth) ∧
      dataStart + ndirect * (inum - 1) + nth < blockNum := by
  have direct : nth < ndirect := lt_of_lt_of_le below (Nat.min_le_left _ _)
  have room : nth < blockNum - dataStart - ndirect * (inum - 1) :=
    lt_of_lt_of_le below (Nat.min_le_right _ _)
  refine ⟨?_, by omega⟩
  rw [place, record_crowded real, mapped_direct direct]
  rfl

theorem crowded_accounted (nextInum : ℕ) : WellAccounted (crowded nextInum) := by
  refine ⟨?_, fun inum live => ?_, fun inum nth live below => ?_,
    fun one other nth index live live' below below' same => ?_, fun id => ?_⟩
  · rw [iblock_eq]
    simp [crowded]
  · rw [record_crowded live.1, size_crowded, Nat.mul_comm]
    exact Nat.mul_le_mul_right blockSize (Nat.min_le_left _ _)
  · rw [blocksOf_crowded live.1] at below
    obtain ⟨here, high⟩ := @place_crowded nextInum inum live.1 nth below
    rw [here]
    exact isData_ofNat (by omega) high
  · rw [blocksOf_crowded live.1] at below
    rw [blocksOf_crowded live'.1] at below'
    obtain ⟨here, high⟩ := @place_crowded nextInum one live.1 nth below
    obtain ⟨here', high'⟩ := @place_crowded nextInum other live'.1 index below'
    rw [here, here'] at same
    have equal := ofNat_injective high high' same
    have first : nth < ndirect := lt_of_lt_of_le below (Nat.min_le_left _ _)
    have second : index < ndirect := lt_of_lt_of_le below' (Nat.min_le_left _ _)
    have low := live.1.1
    have low' := live'.1.1
    simp only [ndirect, dataStart] at equal first second
    omega
  · constructor
    · intro used
      have data : dataStart ≤ id.toNat ∧ id.toNat < blockNum := by
        by_contra outside
        exact used (if_neg outside)
      -- The data blocks are numbered through the inodes in order.
      have real : IsInode ((id.toNat - dataStart) / ndirect + 1) := by
        simp only [IsInode, dataStart, blockNum, blockSize, ndirect, inodeNum] at data ⊢
        omega
      have below : (id.toNat - dataStart) % ndirect <
          share ((id.toNat - dataStart) / ndirect + 1) := by
        simp only [share, dataStart, blockNum, blockSize, ndirect] at data ⊢
        omega
      refine ⟨_, _, live_crowded real, by rwa [blocksOf_crowded real], ?_⟩
      rw [(place_crowded real below).1, Nat.add_sub_cancel, Nat.add_assoc, Nat.div_add_mod,
        Nat.add_sub_cancel' data.1, UInt32.ofNat_toNat]
    · rintro ⟨inum, nth, live, below, rfl⟩
      rw [blocksOf_crowded live.1] at below
      obtain ⟨here, high⟩ := @place_crowded nextInum inum live.1 nth below
      rw [here]
      have data := isData_ofNat (by omega : dataStart ≤ dataStart + ndirect * (inum - 1) + nth) high
      exact fun unused => absurd ((if_pos data).symm.trans unused) (by decide)

/-- The first state, and a disk that was full: a file of it is removed, and the search
for a block starts behind the end. -/
theorem accounting_kept_freed :
    KeepsAccounts (fun next => WellAccounted next ∧ Fits next) (.init blockNum (fun _ => 0) 0) ∧
    ∃ im, (crowded 2).removeFile 3 = .ok im ∧ blockNum < im.bm.nextBlock ∧
      (∀ inum, IsInode inum → inum ≠ 3 → Live im inum) ∧
      KeepsAccounts (fun next => WellAccounted next ∧ Fits next) im := by
  obtain ⟨accounted, fits⟩ := WellAccounted.init (le_refl blockNum) (fun _ => 0) 0
  have real : IsInode 3 := by simp [IsInode]
  obtain ⟨im, ran, accounts, inums, cursor, _, freed⟩ :=
    removeFile_accounts (crowded_accounted 2) (live_crowded real)
  have first : 0 < share 3 := by simp [share]
  have unused := freed 0 (by rwa [blocksOf_crowded real])
  rw [(place_crowded real first).1] at unused
  refine ⟨accounting_kept _ accounted fits, im, ran, ?_, fun inum here different => ?_,
    accounting_kept im ((crowded_accounted 2).change accounts)
      ⟨.inr ⟨_, by omega, (@place_crowded 2 3 real 0 first).2, unused⟩, ?_⟩⟩
  · rw [cursor]
    exact Nat.lt_succ_self blockNum
  · exact (accounts.live_other different).mpr (live_crowded here)
  · rw [inums]
    exact ⟨by simp [crowded], .inl (by simp [crowded])⟩

theorem crowded_used {hover : ℕ} (low : dataStart ≤ hover) (high : hover < blockNum) :
    (crowded nextInum).bm.usingBlocks (.ofNat hover) = 1 := if_pos (isData_ofNat low high)

theorem Ends.ne_undefined {good : InodeManager → Prop} {full : Prop} :
    ¬ Ends good (.error .undefined) full := by
  rintro (⟨next, ran, _⟩ | ⟨exits, _⟩)
  · cases ran
  · cases exits

/-- Inode 0 and the inodes behind the table have no record. -/
theorem findInode_undefined {im : InodeManager} {hover : ℕ} (outside : hover = 0 ∨ inodeNum < hover)
    (count : ℕ) : im.findInode hover (count + 1) = .error .undefined := by
  unfold findInode derefInode getInode
  rw [if_pos outside]
  rfl

theorem alloc_crowded_zero : ¬ KeepsAccounts WellAccounted (crowded 0) := by
  intro keeps
  have ahead : (crowded 0).findInode (crowded 0).nextInum (inodeNum + 1 - (crowded 0).nextInum) =
      .error .undefined := findInode_undefined (.inl rfl) inodeNum
  have outcome : ((crowded 0).allocInode ExtentType.T_FILE.code 0).map Prod.fst =
      .error .undefined := by
    unfold allocInode
    rw [ahead]
    rfl
  exact Ends.ne_undefined (outcome ▸ keeps.1 .T_FILE 0)

theorem alloc_crowded_beyond : ¬ KeepsAccounts WellAccounted (crowded 1026) := by
  intro keeps
  have front : (crowded 1026).findInode 2 1023 = .ok none := by
    rcases @findInode_cases (crowded 1026) 2 1023 (by simp) (by simp) with
      ⟨found, _, low, high, free⟩ | ⟨ran, _⟩
    · exact absurd free (live_crowded ⟨by omega, by simp; omega⟩).2
    · exact ran
  have behind : (crowded 1026).findInode 2 (1023 + 1) = .error .undefined := by
    rw [findInode_add, front]
    simp only [bind, Except.bind]
    exact @findInode_undefined (crowded 1026) 1025 (.inr (by simp)) 0
  have outcome : ((crowded 1026).allocInode ExtentType.T_FILE.code 0).map Prod.fst =
      .error .undefined := by
    have count : inodeNum + 1 - (crowded 1026).nextInum = 0 := rfl
    have rest : (crowded 1026).nextInum - 2 = 1023 + 1 := rfl
    unfold allocInode
    rw [count, rest, behind]
    rfl
  exact Ends.ne_undefined (outcome ▸ keeps.1 .T_FILE 0)

/-- Where nothing is left on the disk, the second search may find the block behind it. -/
theorem allocBlock_over {bm : BlockManager} (cursor : bm.nextBlock = blockNum + 1)
    (full : ∀ hover, dataStart ≤ hover → hover < blockNum → bm.usingBlocks (.ofNat hover) ≠ 0)
    (unused : bm.usingBlocks (.ofNat blockNum) = 0) :
    ∃ next, bm.allocBlock = .ok (next, .ofNat blockNum) ∧ next.blocks = bm.blocks ∧
      next.usingBlocks = Function.update bm.usingBlocks (.ofNat blockNum) 1 := by
  have region : iblock inodeNum blockNum + 1 = dataStart := by rw [iblock_eq]
  have none : (List.range' dataStart (blockNum - dataStart)).find?
      (fun hover => bm.usingBlocks (.ofNat hover) = 0) = none := by
    refine List.find?_eq_none.mpr fun hover member => ?_
    obtain ⟨low, high⟩ := List.mem_range'_1.mp member
    simpa using full hover low (by omega)
  have whole := @range'_split dataStart blockNum (blockNum + 1) (by simp) (Nat.le_add_right _ 1)
  have ahead : bm.findFitBlock (blockNum + 1) blockNum dataStart = Option.none := by
    rw [findFitBlock, Nat.sub_eq_zero_of_le (Nat.le_add_right blockNum 1)]
    rfl
  have behind : ∃ next, bm.findFitBlock dataStart (blockNum + 1) dataStart =
      some (next, .ofNat blockNum) ∧ next.blocks = bm.blocks ∧
      next.usingBlocks = Function.update bm.usingBlocks (.ofNat blockNum) 1 := by
    unfold findFitBlock
    rw [whole, List.find?_append, none, Option.none_or, Nat.add_sub_cancel_left, List.range'_one,
      List.find?_singleton, if_pos (by simpa using unused)]
    exact ⟨_, rfl, rfl, rfl⟩
  obtain ⟨next, found, disk, marks⟩ := behind
  refine ⟨next, ?_, disk, marks⟩
  unfold allocBlock
  simp only [region, cursor, ahead, found]

theorem resizeBlocks_one {bm after : BlockManager} {ino final : Inode}
    (allocated : bm.allocNthBlock ino 0 = .ok (after, final)) :
    bm.resizeBlocks ino 0 1 = .ok (after, final) := by
  rw [resizeBlocks, if_neg (Nat.not_lt_zero 1)]
  simp only [allocBlocks, Loop.counted, allocated, bind, Except.bind]

theorem write_crowded : ¬ KeepsAccounts WellAccounted (crowded 2) := by
  intro keeps
  have real : IsInode 319 := ⟨by simp, by simp⟩
  obtain ⟨bm, took, disk, marked⟩ := @allocBlock_over (crowded 2).bm rfl
    (fun hover low high => by
      rw [crowded_used low high]
      decide) rfl
  obtain ⟨after, ino, allocated, _, _, _, _, marks, _⟩ := @allocNthBlock_ok (crowded 2).bm
    (crowdedInode 319) 0 (by simp) (fun far => absurd far (by simp)) bm _ took disk
  have resized : (crowded 2).bm.resizeBlocks (record (crowded 2).bm.blocks 319)
      (blocksOf (crowded 2).bm 319) (blockCount (UInt32.ofNat 1).toNat) = .ok (after, ino) := by
    have none : share 319 = 0 := rfl
    have one : blockCount (UInt32.ofNat 1).toNat = 1 := rfl
    rw [record_crowded real, blocksOf_crowded real, none, one]
    exact resizeBlocks_one allocated
  obtain ⟨disk, wrote, same⟩ : ∃ disk, after.writeBlocks { ino with size := .ofNat 1 } [0]
      (UInt32.ofNat 1).toNat = .ok disk ∧ disk.usingBlocks = after.usingBlocks := by
    refine ⟨_, rfl, ?_⟩
    unfold writeBlock
    split <;> rfl
  have written := @writeFile_eq _ _ _ _ 0 _ _ _ real resized wrote
  rcases (keeps.2 319 (live_crowded real)).1 [0] 0 (by simp) with ⟨final, ended, good⟩ | ⟨exits, _⟩
  · rw [List.length_singleton, written] at ended
    cases ended
    obtain ⟨inum, nth, live, below, here⟩ := (good.used (.ofNat blockNum)).mp (by
      rw [usingBlocks_putInode real, same, marks, marked, Function.update_self]
      decide)
    have data := good.data inum nth live below
    rw [here] at data
    exact absurd data.2 (by decide)
  · rw [List.length_singleton, written] at exits
    cases exits

/-- Well-accounted states where a cursor runs out of range. -/
theorem accounting_not_kept :
    (WellAccounted (crowded 0) ∧ ¬ KeepsAccounts WellAccounted (crowded 0)) ∧
    (WellAccounted (crowded 1026) ∧ ¬ KeepsAccounts WellAccounted (crowded 1026)) ∧
    (WellAccounted (crowded 2) ∧ ¬ KeepsAccounts WellAccounted (crowded 2)) :=
  ⟨⟨crowded_accounted 0, alloc_crowded_zero⟩, ⟨crowded_accounted 1026, alloc_crowded_beyond⟩,
    ⟨crowded_accounted 2, write_crowded⟩⟩

end Crowded

end NaiveFileSystem.Extent
