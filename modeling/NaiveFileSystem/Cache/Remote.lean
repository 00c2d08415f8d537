import NaiveFileSystem.Cache.Faithful
import NaiveFileSystem.Extent.Requests

/-!
# The calls of the extent server

What the handlers of the server process answer to a client. Once a handler ends the
process, no call is answered any more. Over a disk that represents a store the calls
are those of a faithful server, up to the times in the attributes.
-/

namespace NaiveFileSystem.Cache

open Extent

/-- The extent server; `none` once its process has ended. -/
abbrev Process := Option InodeManager

/-- A handler runs at the time `now`. The library fails with `down` where no process
answers, and with `garbled` where a request lacks its arguments. -/
structure Wire where
  now : UInt32
  down : ℤ
  garbled : ℤ

def Wire.rpc (wire : Wire) : Rpc Process where
  create process type :=
    match process.bind fun im => (ExtentServer.create im type wire.now).toOption with
    | some (im, ret, id) => (some im, ret, some (.ofNat id))
    | none => (none, .library wire.down, none)
  put process id buf :=
    match process.bind fun im => (ExtentServer.put im id.toNat buf wire.now).toOption with
    | some (im, ret) => (some im, ret)
    | none => (none, .library wire.down)
  get process id :=
    match process.bind fun im => (ExtentServer.get im id.toNat wire.now).toOption with
    | some (im, ret, buf) => (some im, ret, some buf)
    | none => (none, .library wire.down, none)
  getattr process id :=
    match process.map fun im => ExtentServer.getattr im id.toNat with
    | some (ret, a) => (process, ret, some a)
    | none => (none, .library wire.down, none)
  removeBare process :=
    (process, .library (if process.isSome then wire.garbled else wire.down), none)

/-- The process runs over a disk that holds the contents. -/
def Serves (process : Process) (contents : Contents) : Prop :=
  ∃ im store, process = some im ∧ Represents im store ∧ ∀ eid : ExtentId, contents eid = store eid.toNat

/-- A write-back that leaves the tables of other files alone: of all files and the root,
only this one reaches beyond its direct entries. -/
def FarAlone (im : InodeManager) (id : ℕ) (buf : Bytes) : Prop :=
  buf.length ≤ maxfile * blockSize ∧ (ndirect < blockCount buf.length → id ≠ 1 ∧
    ∀ other, IsInode other → other ≠ id → (record im.bm.blocks other).type ≠ 0 →
      blockCount (record im.bm.blocks other).size.toNat ≤ ndirect)

def timed (pick : ExtentId) (times : Attr) (garbled : ℤ) : Rpc Contents :=
  { plain pick with
    getattr := fun contents id => (contents, .OK, some (match contents id with
      | some file => { times with type := file.type.code, size := .ofNat file.data.length }
      | none => times))
    removeBare := fun contents => (contents, .library garbled, none) }

theorem faithful_timed (pick : ExtentId) (times : Attr) (garbled : ℤ) :
    Faithful (timed pick times garbled) where
  create := (faithful_plain pick).create
  put := (faithful_plain pick).put
  get := (faithful_plain pick).get
  getattr contents id := by
    refine ⟨_, rfl, fun file found => ?_⟩
    simp [found]

section Serves

variable {wire : Wire} {process : Process} {contents : Contents} {eid : ExtentId} {file : File}

theorem Serves.alive (serves : Serves process contents) : process ≠ none := by
  obtain ⟨im, _, rfl, _⟩ := serves
  simp

theorem Serves.get (serves : Serves process contents) (found : contents eid = some file) :
    ∃ next, wire.rpc.get process eid = (next, .OK, some file.data) ∧ Serves next contents := by
  obtain ⟨im, store, rfl, represents, same⟩ := serves
  rw [same] at found
  obtain ⟨next, ran, after⟩ := get_ok represents found wire.now
  exact ⟨some next, by simp [Wire.rpc, ran, Except.toOption], next, store, rfl, after, same⟩

theorem Serves.getattr (serves : Serves process contents) (eid : ExtentId) :
    ∃ a, wire.rpc.getattr process eid = (process, .OK, some a) ∧
      ∀ file, contents eid = some file →
        a.type = file.type.code ∧ a.size = .ofNat file.data.length := by
  obtain ⟨im, store, rfl, represents, same⟩ := serves
  refine ⟨(ExtentServer.getattr im eid.toNat).2, rfl, fun file found => ?_⟩
  rw [same] at found
  obtain ⟨a, ran, type, size⟩ := getattr_ok represents found
  rw [ran]
  exact ⟨type, by rw [← size, UInt32.ofNat_toNat]⟩

theorem Serves.put (serves : Serves process contents) (found : contents eid = some file)
    {data : Bytes} (spared : ∀ im, process = some im → FarAlone im eid.toNat data)
    (alive : (wire.rpc.put process eid data).1 ≠ none) :
    ∃ next, wire.rpc.put process eid data = (next, .OK) ∧
      Serves next (Function.update contents eid (some ⟨file.type, data⟩)) := by
  obtain ⟨im, store, rfl, represents, same⟩ := serves
  rw [same] at found
  obtain ⟨bound, apart⟩ := spared im rfl
  have free : TableFree store eid.toNat data := by
    intro far
    obtain ⟨notRoot, others⟩ := apart far
    refine ⟨notRoot, fun other rival also large => ?_⟩
    by_contra different
    have direct := others other (represents.live other rival also) different
      (by rw [represents.type other rival also]; exact code_ne_zero _)
    rw [represents.size_toNat also] at direct
    exact absurd large (Nat.not_lt.mpr direct)
  rcases Nat.lt_or_ge (blockNum - dataStart + store.blocks eid.toNat)
      (store.total + blockCount data.length) with full | room
  · have exits := put_exit represents found bound full free wire.now
    simp [Wire.rpc, exits, Except.toOption] at alive
  · obtain ⟨next, ran, after⟩ := put_ok represents found bound room free wire.now
    refine ⟨some next, by simp [Wire.rpc, ran, Except.toOption], next, _, rfl, after, fun other => ?_⟩
    simp only [Function.update_apply, same, UInt64.toNat_inj]

theorem Serves.create (serves : Serves process contents) (type : ExtentType)
    (alive : (wire.rpc.create process type.code).1 ≠ none) :
    ∃ next id, wire.rpc.create process type.code = (next, .OK, some id) ∧ contents id = none ∧
      Serves next (Function.update contents id (some ⟨type, []⟩)) := by
  obtain ⟨im, store, rfl, represents, same⟩ := serves
  have cursor := represents.nextInum
  have room : ∃ id, IsInode id ∧ id ≠ 1 ∧ store id = none := by
    rcases @InodeManager.allocInode_cases im type.code wire.now (by omega) (.inl (by omega)) with
      ⟨id, _, real, behind, unused, _⟩ | ⟨full, _⟩
    · refine ⟨id, real, ?_, ?_⟩
      · have low := behind cursor.1
        omega
      · by_contra taken
        obtain ⟨file, found⟩ := Option.ne_none_iff_exists'.mp taken
        rw [represents.type id file found] at unused
        exact code_ne_zero file.type unused
    · simp [Wire.rpc, ExtentServer.create, full, bind, Except.bind, Except.toOption] at alive
  obtain ⟨next, id, ran, real, fresh, after⟩ := create_ok represents type room wire.now
  have small : id < 2 ^ 64 := lt_of_le_of_lt real.2 (by simp)
  have exact_ : (UInt64.ofNat id).toNat = id := UInt64.toNat_ofNat_of_lt small
  refine ⟨some next, .ofNat id, by simp [Wire.rpc, ran, Except.toOption], by rw [same, exact_, fresh],
    next, _, rfl, after, fun other => ?_⟩
  have named : other = .ofNat id ↔ other.toNat = id := by rw [← UInt64.toNat_inj, exact_]
  simp only [Function.update_apply, same, named]

end Serves

/-! ## The cache over the process -/

structure Agrees {ρ : Type} (one : (Table × Process) × ρ) (other : (Table × Contents) × ρ) : Prop where
  table : one.1.1 = other.1.1
  reply : one.2 = other.2
  serves : Serves one.1.2 other.1.2

section Agrees

variable {wire : Wire} {process : Process} {contents : Contents} {eid : ExtentId}

theorem get_agrees (serves : Serves process contents) (live : contents eid ≠ none) (env : Ambient)
    (buf : Bytes) (cache : Table) : ∃ times, ∀ pick,
      Agrees (ExtentClientCache.get wire.rpc env eid buf cache process)
        (ExtentClientCache.get (timed pick times wire.garbled) env eid buf cache contents) := by
  obtain ⟨file, found⟩ := Option.ne_none_iff_exists'.mp live
  obtain ⟨next, got, serves'⟩ := @Serves.get wire _ _ _ _ serves found
  obtain ⟨a, asked, matching⟩ := @Serves.getattr wire _ _ serves' eid
  obtain ⟨type, size⟩ := matching file found
  have same : ({ a with type := file.type.code, size := .ofNat file.data.length } : Attr) = a := by
    rw [← type, ← size]
  refine ⟨a, fun pick => ?_⟩
  have plainly : (timed pick a wire.garbled).get contents eid = (contents, .OK, some file.data) := by
    simp [timed, plain, found]
  have asks : (timed pick a wire.garbled).getattr contents eid = (contents, .OK, some a) := by
    simp [timed, found, same]
  unfold ExtentClientCache.get
  cases cache eid with
  | none =>
    simp only [got, plainly, asked, asks]
    exact ⟨rfl, rfl, serves'⟩
  | some entry =>
    dsimp only
    cases entry.mState with
    | UPDATE | MODIFIED | REMOVED => exact ⟨rfl, rfl, serves⟩
    | NONE =>
      simp only [got, plainly]
      exact ⟨rfl, rfl, serves'⟩

theorem getattr_agrees (serves : Serves process contents) (attr : Attr) (cache : Table) :
    ∃ times, ∀ pick, Agrees (ExtentClientCache.getattr wire.rpc eid attr cache process)
      (ExtentClientCache.getattr (timed pick times wire.garbled) eid attr cache contents) := by
  obtain ⟨a, asked, matching⟩ := @Serves.getattr wire _ _ serves eid
  refine ⟨a, fun pick => ?_⟩
  have asks : (timed pick a wire.garbled).getattr contents eid = (contents, .OK, some a) := by
    cases found : contents eid with
    | none => simp [timed, found]
    | some file =>
      obtain ⟨type, size⟩ := matching file found
      have same : ({ a with type := file.type.code, size := .ofNat file.data.length } : Attr) = a := by
        rw [← type, ← size]
      simp [timed, found, same]
  unfold ExtentClientCache.getattr
  cases cache eid with
  | none =>
    simp only [asked, asks]
    exact ⟨rfl, rfl, serves⟩
  | some entry =>
    dsimp only
    cases entry.mState with
    | NONE | UPDATE | MODIFIED | REMOVED => exact ⟨rfl, rfl, serves⟩

theorem flush_agrees (serves : Serves process contents) {cache : Table}
    (live : ∀ entry, cache eid = some entry → entry.mState = .MODIFIED → contents eid ≠ none)
    (spared : ∀ im entry, process = some im → cache eid = some entry → entry.mState = .MODIFIED →
      FarAlone im eid.toNat entry.data)
    (alive : (ExtentClientCache.flush wire.rpc eid cache process).1.2 ≠ none) (pick : ExtentId)
    (times : Attr) : Agrees (ExtentClientCache.flush wire.rpc eid cache process)
      (ExtentClientCache.flush (timed pick times wire.garbled) eid cache contents) := by
  unfold ExtentClientCache.flush at alive ⊢
  cases here : cache eid with
  | none => exact ⟨rfl, rfl, serves⟩
  | some entry =>
    rw [here] at alive
    dsimp only at alive ⊢
    cases kind : entry.mState with
    | NONE | UPDATE => exact ⟨rfl, rfl, serves⟩
    | MODIFIED =>
      simp only [kind] at alive
      obtain ⟨file, found⟩ := Option.ne_none_iff_exists'.mp (live entry here kind)
      obtain ⟨next, ran, after⟩ := serves.put found
        (fun im running => spared im entry running here kind) alive
      simp only [ran, (faithful_timed pick times wire.garbled).put contents eid file entry.data found]
      exact ⟨rfl, rfl, after⟩
    | REMOVED =>
      obtain ⟨im, running⟩ := Option.ne_none_iff_exists'.mp serves.alive
      refine ⟨rfl, ?_, serves⟩
      simp [Wire.rpc, timed, running]

end Agrees

end NaiveFileSystem.Cache
