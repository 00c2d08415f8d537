import Mathlib.Algebra.BigOperators.Group.Finset.Basic
import Mathlib.Algebra.Order.BigOperators.Group.Finset
import NaiveFileSystem.Extent.File
import NaiveFileSystem.Extent.Server
import NaiveFileSystem.Lib.Transition

/-!
# The extent server as a store

The abstract store maps ids to typed byte strings. The server represents a store
when every file is placed, no two files share a block, nothing else is in use,
and at most one file reaches beyond the direct entries: the table of every
inode but the root is block 0, since nothing ever allocates a table.
-/

namespace NaiveFileSystem.Extent

open BlockManager Transition

structure File where
  type : ExtentType
  data : List UInt8

abbrev Store := ℕ → Option File

/-- The file needs the indirect table. -/
def File.Large (file : File) : Prop := ndirect < blockCount file.data.length

def Store.blocks (store : Store) (id : ℕ) : ℕ :=
  match store id with
  | none => 0
  | some file => blockCount file.data.length

/-- The data blocks of all files. -/
def Store.total (store : Store) : ℕ := ∑ id ∈ Finset.Icc 1 inodeNum, store.blocks id

structure Represents (im : InodeManager) (store : Store) : Prop where
  cursor : Cursor im.bm
  nextInum : 2 ≤ im.nextInum ∧ im.nextInum ≤ inodeNum
  live : ∀ id file, store id = some file → IsInode id
  dead : ∀ id, IsInode id → store id = none → (record im.bm.blocks id).type = 0
  type : ∀ id file, store id = some file →
    (record im.bm.blocks id).type = file.type.code.toUInt16.toInt16
  size : ∀ id file, store id = some file →
    (record im.bm.blocks id).size = .ofNat file.data.length
  table : ∀ id, IsInode id → id ≠ 1 → (record im.bm.blocks id).table = 0
  large : ∀ id file, store id = some file → file.Large →
    id ≠ 1 ∧ ∀ other rival, store other = some rival → rival.Large → other = id
  placed : ∀ id file, store id = some file →
    Placed im.bm (record im.bm.blocks id) (blockCount file.data.length)
  content : ∀ id file, store id = some file →
    Content im.bm.blocks (record im.bm.blocks id) file.data
  apart : ∀ one file other rival nth index, store one = some file → store other = some rival →
    nth < blockCount file.data.length → index < blockCount rival.data.length →
    place im.bm one nth = place im.bm other index → one = other
  used : ∀ block, IsData block → im.bm.usingBlocks block ≠ 0 →
    ∃ id file nth, store id = some file ∧ nth < blockCount file.data.length ∧
      place im.bm id nth = block

section Facts

variable {im : InodeManager} {store : Store}

theorem Represents.bound (represents : Represents im store) {id : ℕ} {file : File}
    (found : store id = some file) : file.data.length ≤ maxfile * blockSize := by
  have limit := (represents.placed id file found).bound
  simp only [blockCount, maxfile, ndirect, nindirect, blockSize] at limit ⊢
  split at limit <;> omega

theorem Represents.size_toNat (represents : Represents im store) {id : ℕ} {file : File}
    (found : store id = some file) :
    (record im.bm.blocks id).size.toNat = file.data.length := by
  rw [represents.size id file found]
  exact toNat_length (represents.bound found)

theorem Represents.blocksOf_eq (represents : Represents im store) {id : ℕ} {file : File}
    (found : store id = some file) : blocksOf im.bm id = blockCount file.data.length := by
  rw [blocksOf, represents.size_toNat found]

theorem isFront_zero : IsFront 0 := by
  show (0 : UInt32).toNat < 12
  decide

theorem code_ne_zero (type : ExtentType) : type.code.toUInt16.toInt16 ≠ 0 := by
  cases type <;> decide

theorem Store.blocks_some {id : ℕ} {file : File} (found : store id = some file) :
    store.blocks id = blockCount file.data.length := by rw [Store.blocks, found]

theorem Store.file_of_lt_blocks {id nth : ℕ} (below : nth < store.blocks id) :
    ∃ file, store id = some file ∧ nth < blockCount file.data.length := by
  cases found : store id with
  | none => simp [Store.blocks, found] at below
  | some file => exact ⟨file, rfl, by rwa [Store.blocks_some found] at below⟩

theorem Represents.used_eq (represents : Represents im store) :
    ((Finset.Ico dataStart blockNum).filter
      fun hover => ¬ im.bm.usingBlocks (.ofNat hover) = 0) =
    (Finset.Icc 1 inodeNum).biUnion fun id =>
      (Finset.range (store.blocks id)).image fun nth => (place im.bm id nth).toNat := by
  ext hover
  simp only [Finset.mem_filter, Finset.mem_Ico, Finset.mem_biUnion, Finset.mem_Icc,
    Finset.mem_image, Finset.mem_range]
  constructor
  · rintro ⟨⟨low, high⟩, used⟩
    obtain ⟨id, file, nth, found, below, here⟩ :=
      represents.used _ (isData_ofNat low high) used
    refine ⟨id, represents.live id file found, nth, ?_, ?_⟩
    · rwa [Store.blocks_some found]
    · rw [here, toNat_ofNat_block high]
  · rintro ⟨id, _, nth, below, rfl⟩
    obtain ⟨file, found, inside⟩ := Store.file_of_lt_blocks below
    have placed := represents.placed id file found
    refine ⟨placed.data nth inside, ?_⟩
    rw [UInt32.ofNat_toNat]
    exact placed.used nth inside

theorem Represents.room (represents : Represents im store) :
    im.bm.freeCount + store.total = blockNum - dataStart := by
  have split := Finset.card_filter_add_card_filter_not (s := Finset.Ico dataStart blockNum)
    (fun hover => im.bm.usingBlocks (.ofNat hover) = 0)
  rw [represents.used_eq, Finset.card_biUnion, Nat.card_Ico] at split
  · have counts : ∀ id ∈ Finset.Icc 1 inodeNum, ((Finset.range (store.blocks id)).image
        fun nth => (place im.bm id nth).toNat).card = store.blocks id := by
      intro id _
      rw [Finset.card_image_of_injOn, Finset.card_range]
      intro nth inside index inside' same
      obtain ⟨file, found, below⟩ := Store.file_of_lt_blocks (Finset.mem_range.mp inside)
      rw [Finset.mem_coe, Finset.mem_range, Store.blocks_some found] at inside'
      exact (represents.placed id file found).distinct nth index below inside'
        (UInt32.toNat_inj.mp same)
    rwa [Finset.sum_congr rfl counts] at split
  · intro one _ other _ different
    refine Finset.disjoint_left.mpr fun block first second => different ?_
    obtain ⟨nth, inside, rfl⟩ := Finset.mem_image.mp first
    obtain ⟨index, inside', same⟩ := Finset.mem_image.mp second
    obtain ⟨file, found, below⟩ := Store.file_of_lt_blocks (Finset.mem_range.mp inside)
    obtain ⟨rival, found', below'⟩ := Store.file_of_lt_blocks (Finset.mem_range.mp inside')
    exact represents.apart one file other rival nth index found found' below below'
      (UInt32.toNat_inj.mp same.symm)

/-! ## Requests that keep the contents -/

/-- Nothing but the times in the records differs. -/
structure SameFiles (im next : InodeManager) : Prop where
  cursor : next.bm.nextBlock = im.bm.nextBlock
  marks : next.bm.usingBlocks = im.bm.usingBlocks
  nextInum : next.nextInum = im.nextInum
  data : ∀ id, IsData id → next.bm.blocks id = im.bm.blocks id
  front : ∀ id, IsFront id → next.bm.blocks id = im.bm.blocks id
  records : ∀ id, IsInode id →
    (record next.bm.blocks id).type = (record im.bm.blocks id).type ∧
    (record next.bm.blocks id).size = (record im.bm.blocks id).size ∧
    (record next.bm.blocks id).blocks = (record im.bm.blocks id).blocks

theorem SameFiles.putInode {id : ℕ} (real : IsInode id) (ino : Inode)
    (type : ino.type = (record im.bm.blocks id).type)
    (size : ino.size = (record im.bm.blocks id).size)
    (entries : ino.blocks = (record im.bm.blocks id).blocks) :
    SameFiles im (im.putInode id ino) where
  cursor := InodeManager.nextBlock_putInode real ino
  marks := InodeManager.usingBlocks_putInode real ino
  nextInum := InodeManager.nextInum_putInode real ino
  data _ data := InodeManager.blocks_putInode real ino (data.ne_inodeBlock real)
  front _ front := InodeManager.blocks_putInode real ino (front.ne_inodeBlock real)
  records other also := by
    rw [InodeManager.record_putInode real ino also]
    split
    next same => exact same ▸ ⟨type, size, entries⟩
    next => exact ⟨rfl, rfl, rfl⟩

theorem Represents.of_sameFiles {next : InodeManager} (represents : Represents im store)
    (same : SameFiles im next) : Represents next store := by
  have front : ∀ id file, store id = some file → ndirect < blockCount file.data.length →
      next.bm.blocks (record im.bm.blocks id).table = im.bm.blocks (record im.bm.blocks id).table :=
    fun id file found far => same.front _ ((represents.placed id file found).table far)
  have entries : ∀ id file, store id = some file →
      (record im.bm.blocks id).blocks = (record next.bm.blocks id).blocks :=
    fun id file found => (same.records id (represents.live id file found)).2.2.symm
  have places : ∀ id file nth, store id = some file → nth < blockCount file.data.length →
      place next.bm id nth = place im.bm id nth := fun id file nth found below =>
    mapped_kept (entries id file found) (front id file found) nth below
  refine {
    cursor := by rw [Cursor, same.cursor]; exact represents.cursor
    nextInum := by rw [same.nextInum]; exact represents.nextInum
    live := represents.live
    dead := fun id real none => by rw [(same.records id real).1]; exact represents.dead id real none
    type := fun id file found => by
      rw [(same.records id (represents.live id file found)).1]
      exact represents.type id file found
    size := fun id file found => by
      rw [(same.records id (represents.live id file found)).2.1]
      exact represents.size id file found
    table := fun id real other => by
      rw [Inode.table, (same.records id real).2.2]
      exact represents.table id real other
    large := represents.large
    placed := fun id file found => ?_
    content := fun id file found => ?_
    apart := ?_
    used := ?_ }
  · exact (represents.placed id file found).transfer (entries id file found)
      (front id file found) fun nth _ => by rw [same.marks]
  · exact (represents.content id file found).transfer
      (fun nth below => places id file nth found below)
      fun nth below => same.data _ ((represents.placed id file found).data nth below)
  · intro one file other rival nth index found found' below below' equal
    rw [places one file nth found below, places other rival index found' below'] at equal
    exact represents.apart one file other rival nth index found found' below below' equal
  · intro block data used
    rw [same.marks] at used
    obtain ⟨id, file, nth, found, below, here⟩ := represents.used block data used
    exact ⟨id, file, nth, found, below, (places id file nth found below).trans here⟩

/-! ## Requests that change one file -/

structure Stored (im : InodeManager) (id : ℕ) (file : File) : Prop where
  type : (record im.bm.blocks id).type = file.type.code.toUInt16.toInt16
  size : (record im.bm.blocks id).size = .ofNat file.data.length
  placed : Placed im.bm (record im.bm.blocks id) (blockCount file.data.length)
  content : Content im.bm.blocks (record im.bm.blocks id) file.data

/-- What a request on another inode leaves of the file of inode `id`. -/
structure Untouched (im next : InodeManager) (id : ℕ) (file : File) : Prop where
  record_eq : record next.bm.blocks id = record im.bm.blocks id
  table : file.Large → next.bm.blocks (record im.bm.blocks id).table =
    im.bm.blocks (record im.bm.blocks id).table
  marks : ∀ nth, nth < blockCount file.data.length →
    next.bm.usingBlocks (place im.bm id nth) = im.bm.usingBlocks (place im.bm id nth)
  bytes : ∀ nth, nth < blockCount file.data.length →
    next.bm.blocks (place im.bm id nth) = im.bm.blocks (place im.bm id nth)

section Changed

variable {next : InodeManager} {id other nth : ℕ} {file rival : File} {slot : Option File}

theorem Stored.empty {type : ExtentType}
    (typed : (record im.bm.blocks id).type = type.code.toUInt16.toInt16)
    (size : (record im.bm.blocks id).size = 0) : Stored im id ⟨type, []⟩ where
  type := typed
  size := size
  placed := ⟨by simp [blockCount], by simp [blockCount], by simp [blockCount],
    by simp [blockCount], by simp [blockCount]⟩
  content nth below := by simp [blockCount] at below

theorem Represents.stored (represents : Represents im store) (found : store id = some file) :
    Stored im id file :=
  ⟨represents.type id file found, represents.size id file found,
    represents.placed id file found, represents.content id file found⟩

theorem Untouched.place_eq (untouched : Untouched im next id file)
    (below : nth < blockCount file.data.length) : place next.bm id nth = place im.bm id nth := by
  rw [place, untouched.record_eq]
  exact mapped_kept rfl untouched.table nth below

theorem Stored.untouched (stored : Stored im id file) (untouched : Untouched im next id file) :
    Stored next id file := by
  constructor <;> rw [untouched.record_eq]
  · exact stored.type
  · exact stored.size
  · exact stored.placed.transfer rfl untouched.table untouched.marks
  · exact stored.content.transfer (mapped_kept rfl untouched.table) untouched.bytes

structure Changed (im : InodeManager) (store : Store) (id : ℕ) (slot : Option File)
    (next : InodeManager) : Prop where
  cursor : Cursor next.bm
  nextInum : 2 ≤ next.nextInum ∧ next.nextInum ≤ inodeNum
  dead : slot = none → (record next.bm.blocks id).type = 0
  stored : ∀ file, slot = some file → Stored next id file
  table : (record next.bm.blocks id).table = (record im.bm.blocks id).table
  large : ∀ file, slot = some file → file.Large →
    id ≠ 1 ∧ ∀ other rival, store other = some rival → rival.Large → other = id
  records : ∀ other, IsInode other → other ≠ id →
    record next.bm.blocks other = record im.bm.blocks other
  others : ∀ other rival, other ≠ id → store other = some rival → Untouched im next other rival
  apart : ∀ file, slot = some file → ∀ nth, nth < blockCount file.data.length →
    ∀ other rival index, other ≠ id → store other = some rival →
      index < blockCount rival.data.length → place next.bm id nth ≠ place im.bm other index
  used : ∀ block, next.bm.usingBlocks block ≠ 0 →
    (∃ file nth, slot = some file ∧ nth < blockCount file.data.length ∧
      place next.bm id nth = block) ∨
    (im.bm.usingBlocks block ≠ 0 ∧ ∀ nth, nth < store.blocks id → place im.bm id nth ≠ block)

theorem Store.update_some (found : Function.update store id slot other = some rival) :
    (other = id ∧ slot = some rival) ∨ (other ≠ id ∧ store other = some rival) := by
  by_cases same : other = id
  · rw [same, Function.update_self] at found
    exact .inl ⟨same, found⟩
  · rw [Function.update_of_ne same] at found
    exact .inr ⟨same, found⟩

theorem Changed.stored_update (changed : Changed im store id slot next)
    (represents : Represents im store) (found : Function.update store id slot other = some rival) :
    Stored next other rival := by
  rcases Store.update_some found with ⟨rfl, given⟩ | ⟨different, old⟩
  · exact changed.stored rival given
  · exact (represents.stored old).untouched (changed.others other rival different old)

theorem Changed.large_update (changed : Changed im store id slot next)
    (represents : Represents im store) (found : Function.update store id slot other = some rival)
    (large : rival.Large) : other ≠ 1 ∧ ∀ third competitor,
      Function.update store id slot third = some competitor → competitor.Large → third = other := by
  rcases Store.update_some found with ⟨rfl, given⟩ | ⟨different, old⟩
  · obtain ⟨notRoot, only⟩ := changed.large rival given large
    refine ⟨notRoot, fun third competitor found' large' => ?_⟩
    rcases Store.update_some found' with ⟨same, _⟩ | ⟨_, old'⟩
    · exact same
    · exact only third competitor old' large'
  · obtain ⟨notRoot, only⟩ := represents.large other rival old large
    refine ⟨notRoot, fun third competitor found' large' => ?_⟩
    rcases Store.update_some found' with ⟨rfl, given⟩ | ⟨_, old'⟩
    · exact absurd ((changed.large competitor given large').2 other rival old large) different
    · exact only third competitor old' large'

theorem Changed.apart_update (changed : Changed im store id slot next)
    (represents : Represents im store) {one second index : ℕ} {first last : File}
    (found : Function.update store id slot one = some first)
    (found' : Function.update store id slot second = some last)
    (below : nth < blockCount first.data.length) (below' : index < blockCount last.data.length)
    (equal : place next.bm one nth = place next.bm second index) : one = second := by
  rcases Store.update_some found with ⟨rfl, given⟩ | ⟨different, old⟩ <;>
    rcases Store.update_some found' with ⟨rfl, given'⟩ | ⟨different', old'⟩
  · rfl
  · rw [(changed.others second last different' old').place_eq below'] at equal
    exact absurd equal (changed.apart first given nth below second last index different' old' below')
  · rw [(changed.others one first different old).place_eq below] at equal
    exact absurd equal.symm (changed.apart last given' index below' one first nth different old below)
  · rw [(changed.others one first different old).place_eq below,
      (changed.others second last different' old').place_eq below'] at equal
    exact represents.apart one first second last nth index old old' below below' equal

theorem Changed.used_update (changed : Changed im store id slot next)
    (represents : Represents im store) {block : BlockId} (data : IsData block)
    (used : next.bm.usingBlocks block ≠ 0) : ∃ other rival nth,
      Function.update store id slot other = some rival ∧ nth < blockCount rival.data.length ∧
      place next.bm other nth = block := by
  rcases changed.used block used with ⟨file, nth, given, below, here⟩ | ⟨before, away⟩
  · exact ⟨id, file, nth, by rw [Function.update_self, given], below, here⟩
  · obtain ⟨other, rival, nth, old, below, here⟩ := represents.used block data before
    have different : other ≠ id := by
      rintro rfl
      exact away nth (by rwa [Store.blocks_some old]) here
    refine ⟨other, rival, nth, ?_, below, ?_⟩
    · rw [Function.update_of_ne different, old]
    · rw [(changed.others other rival different old).place_eq below, here]

theorem Represents.change (represents : Represents im store) (real : IsInode id)
    (changed : Changed im store id slot next) :
    Represents next (Function.update store id slot) where
  cursor := changed.cursor
  nextInum := changed.nextInum
  live other rival found := by
    rcases Store.update_some found with ⟨rfl, _⟩ | ⟨_, old⟩
    · exact real
    · exact represents.live other rival old
  dead other also none := by
    by_cases same : other = id
    · rw [same, Function.update_self] at none
      rw [same, changed.dead none]
    · rw [Function.update_of_ne same] at none
      rw [changed.records other also same]
      exact represents.dead other also none
  type other rival found := (changed.stored_update represents found).type
  size other rival found := (changed.stored_update represents found).size
  table other also notRoot := by
    by_cases same : other = id
    · rw [same, changed.table]
      exact represents.table id real (same ▸ notRoot)
    · rw [changed.records other also same]
      exact represents.table other also notRoot
  large other rival found large := changed.large_update represents found large
  placed other rival found := (changed.stored_update represents found).placed
  content other rival found := (changed.stored_update represents found).content
  apart _ _ _ _ _ _ found found' below below' equal :=
    changed.apart_update represents found found' below below' equal
  used _ data used := changed.used_update represents data used

end Changed

/-! ## Giving a file a new content -/

section Rewrite

variable {next : InodeManager} {id other nth : ℕ} {file rival : File} {buf : List UInt8}

/-- No other file reaches beyond the direct entries. -/
def TableFree (store : Store) (id : ℕ) (buf : List UInt8) : Prop :=
  ndirect < blockCount buf.length →
    id ≠ 1 ∧ ∀ other rival, store other = some rival → rival.Large → other = id

theorem Represents.other_ne (represents : Represents im store) (found : store id = some file)
    (rewritten : Rewritten im id buf next) (also : store other = some rival) (different : other ≠ id)
    (below : nth < blockCount rival.data.length) :
    ∀ index, index < blockCount buf.length → place next.bm id index ≠ place im.bm other nth := by
  intro index inside equal
  rcases rewritten.origin index inside with ⟨early, same⟩ | ⟨_, fresh⟩
  · rw [represents.blocksOf_eq found] at early
    rw [same] at equal
    exact different (represents.apart id file other rival index nth found also early below equal).symm
  · rw [equal] at fresh
    exact (represents.placed other rival also).used nth below fresh

theorem Represents.other_marks (represents : Represents im store) (found : store id = some file)
    (rewritten : Rewritten im id buf next) (also : store other = some rival) (different : other ≠ id)
    (below : nth < blockCount rival.data.length) :
    next.bm.usingBlocks (place im.bm other nth) = im.bm.usingBlocks (place im.bm other nth) := by
  apply rewritten.marks _ (represents.other_ne found rewritten also different below)
  intro index early equal
  rw [represents.blocksOf_eq found] at early
  exact different (represents.apart id file other rival index nth found also early below equal).symm

theorem Represents.other_untouched (represents : Represents im store) (found : store id = some file)
    (rewritten : Rewritten im id buf next) (free : TableFree store id buf)
    (also : store other = some rival) (different : other ≠ id) : Untouched im next other rival where
  record_eq := rewritten.others other (represents.live other rival also) different
  table far := by
    refine rewritten.front _ ((represents.placed other rival also).table far) (.inr ?_)
    exact Nat.le_of_not_lt fun large => different ((free large).2 other rival also far)
  marks _ below := represents.other_marks found rewritten also different below
  bytes nth below := rewritten.data _ ((represents.placed other rival also).data nth below)
    (represents.other_ne found rewritten also different below)

theorem Rewritten.used (rewritten : Rewritten im id buf next) {block : BlockId}
    (used : next.bm.usingBlocks block ≠ 0) :
    (∃ nth, nth < blockCount buf.length ∧ place next.bm id nth = block) ∨
      (im.bm.usingBlocks block ≠ 0 ∧ ∀ nth, nth < blocksOf im.bm id → place im.bm id nth ≠ block) := by
  by_cases own : ∃ nth, nth < blockCount buf.length ∧ place next.bm id nth = block
  · exact .inl own
  · push Not at own
    have kept : ∀ nth, nth < blocksOf im.bm id → place im.bm id nth ≠ block := by
      intro nth early here
      rcases Nat.lt_or_ge nth (blockCount buf.length) with stays | freed
      · rcases rewritten.origin nth stays with ⟨_, same⟩ | ⟨late, _⟩
        · exact own nth stays (same.trans here)
        · omega
      · rw [← here, rewritten.freed nth freed early] at used
        exact used rfl
    rw [rewritten.marks block own kept] at used
    exact .inr ⟨used, kept⟩

theorem Represents.rewrite (represents : Represents im store) (found : store id = some file)
    (rewritten : Rewritten im id buf next) (free : TableFree store id buf) :
    Represents next (Function.update store id (some ⟨file.type, buf⟩)) := by
  refine represents.change (represents.live id file found) {
    cursor := rewritten.cursor
    nextInum := by rw [rewritten.nextInum]; exact represents.nextInum
    dead := fun none => by cases none
    stored := fun given same => ?_
    table := rewritten.table
    large := fun given same => ?_
    records := rewritten.others
    others := fun other rival different also =>
      represents.other_untouched found rewritten free also different
    apart := fun given same nth inside other rival index different also below => ?_
    used := fun block used => ?_ }
  · rw [← Option.some.inj same]
    refine ⟨?_, rewritten.size, rewritten.placed, rewritten.content⟩
    rw [rewritten.type]
    exact represents.type id file found
  · rw [← Option.some.inj same]
    exact free
  · rw [← Option.some.inj same] at inside
    exact represents.other_ne found rewritten also different below nth inside
  · rcases rewritten.used used with ⟨nth, below, here⟩ | ⟨before, away⟩
    · exact .inl ⟨_, nth, rfl, below, here⟩
    · rw [represents.blocksOf_eq found, ← Store.blocks_some found] at away
      exact .inr ⟨before, away⟩

end Rewrite

end Facts

end NaiveFileSystem.Extent
