import NaiveFileSystem.Fuse.Files
import NaiveFileSystem.Lib.Paging

/-!
# Records of directories

A reply to a readdir is a page of records, whatever their layout is. One layout that the
kernel reads back is given here.
-/

namespace NaiveFileSystem.Fuse

open Cache Yfs Paging

/-- The records of the library, as the kernel reads them. -/
def direntFormat (lib : Library) (read : Bytes → Option (((CString × Inum) × ℕ) × Bytes)) :
    Format (CString × Inum) UInt8 where
  size entry := lib.direntSize entry.1.bytes.length
  encode entry next := lib.addDirent entry.1 entry.2 next
  read := read

section Pages

variable {lib : Library} {read : Bytes → Option (((CString × Inum) × ℕ) × Bytes)}
  {readable : CString × Inum → ℕ → Prop}

theorem foldl_dirbufAdd (entries : Entries) (b : Dirbuf) :
    entries.foldl (fun b entry => dirbufAdd lib b entry.1 entry.2) b =
      ⟨b.p ++ (direntFormat lib read).layout b.size entries,
        b.size + (direntFormat lib read).extent entries⟩ := by
  induction entries generalizing b with
  | nil => simp [Format.layout]
  | cons entry rest ih =>
    rw [List.foldl_cons, ih]
    simp [dirbufAdd, Format.layout, direntFormat, Nat.add_assoc]

theorem page_eq (lawful : (direntFormat lib read).Lawful readable) (entries : Entries)
    (off size : ℕ) :
    page lib entries off size = .buf ((direntFormat lib read).page entries off size) := by
  have length : ((direntFormat lib read).layout 0 entries).length =
      (direntFormat lib read).extent entries := lawful.length_layout
  rw [page, foldl_dirbufAdd, replyBufLimited, Format.page]
  simp only [List.nil_append, Nat.zero_add]
  split
  next inside =>
    congr 1
    rw [List.take_eq_take_iff, List.length_drop, length]
    omega
  next behind => rw [List.drop_eq_nil_of_le (by omega), List.take_nil]

end Pages

/-! ## Records as on the wire -/

def bytesOf : ℕ → ℕ → Bytes
  | 0, _ => []
  | width + 1, value => UInt8.ofNat value :: bytesOf width (value / 256)

def numberOf : Bytes → ℕ
  | [] => 0
  | byte :: rest => byte.toNat + 256 * numberOf rest

@[simp] theorem length_bytesOf (width value : ℕ) : (bytesOf width value).length = width := by
  induction width generalizing value with
  | zero => rfl
  | succ width ih => simp [bytesOf, ih]

theorem numberOf_bytesOf {width value : ℕ} (fits : value < 256 ^ width) :
    numberOf (bytesOf width value) = value := by
  induction width generalizing value with
  | zero => exact (Nat.lt_one_iff.mp fits).symm
  | succ width ih =>
    rw [bytesOf, numberOf, ih (by rw [Nat.pow_succ'] at fits; omega), UInt8.toNat_ofNat']
    omega

/-- A header of 24 bytes and the name, up to a multiple of 8. -/
def packedSize (length : ℕ) : ℕ := (24 + length + 7) / 8 * 8

/-- Records of an inum, the next offset, the length of the name, the name and padding. -/
def packed : Library where
  direntSize := packedSize
  addDirent name ino next := bytesOf 8 ino.toNat ++ bytesOf 8 next ++ bytesOf 8 name.bytes.length ++
    name.bytes ++ List.replicate (packedSize name.bytes.length - (24 + name.bytes.length)) 0

def readPacked (data : Bytes) : Option (((CString × Inum) × ℕ) × Bytes) :=
  let length := numberOf ((data.drop 16).take 8)
  if data.length < 24 ∨ data.length < packedSize length then none
  else some (((cStr ((data.drop 24).take length), .ofNat (numberOf (data.take 8))),
    numberOf ((data.drop 8).take 8)), data.drop (packedSize length))

theorem namelen_packed (name : CString) (ino : Inum) (next : ℕ) (rest : Bytes) :
    ((packed.addDirent name ino next ++ rest).drop 16).take 8 = bytesOf 8 name.bytes.length := by
  simp [packed, List.drop_append, List.drop_eq_nil_of_le]

theorem lawful_packed : (direntFormat packed readPacked).Lawful fun entry next =>
    entry.1.bytes.length < 256 ^ 8 ∧ next < 256 ^ 8 where
  positive entry := by
    show 0 < packedSize _
    unfold packedSize
    omega
  nothing := rfl
  length entry next := by
    show (packed.addDirent _ _ _).length = packedSize _
    simp [packed, packedSize]
    omega
  whole := by
    rintro ⟨name, ino⟩ next rest ⟨short, far⟩
    have size : (packed.addDirent name ino next).length = packedSize name.bytes.length := by
      simp [packed, packedSize]
      omega
    have ids : (packed.addDirent name ino next ++ rest).take 8 = bytesOf 8 ino.toNat := by
      simp [packed]
    have offset : ((packed.addDirent name ino next ++ rest).drop 8).take 8 = bytesOf 8 next := by
      simp [packed]
    have text : ((packed.addDirent name ino next ++ rest).drop 24).take name.bytes.length =
        name.bytes := by
      simp [packed, List.drop_append, List.drop_eq_nil_of_le]
    have behind : (packed.addDirent name ino next ++ rest).drop (packedSize name.bytes.length) =
        rest := List.drop_left' size
    show readPacked (packed.addDirent name ino next ++ rest) = _
    unfold readPacked
    simp only [namelen_packed, ids, offset, numberOf_bytesOf far, numberOf_bytesOf short,
      numberOf_bytesOf (show ino.toNat < 256 ^ 8 from ino.toNat_lt), text, behind, cStr_bytes,
      UInt64.ofNat_toNat]
    rw [if_neg]
    rw [List.length_append, size]
    unfold packedSize
    omega
  cut := by
    rintro ⟨name, ino⟩ next ⟨short, far⟩ count part
    have size : (packed.addDirent name ino next).length = packedSize name.bytes.length := by
      simp [packed, packedSize]
      omega
    have part : count < packedSize name.bytes.length := part
    show readPacked ((packed.addDirent name ino next).take count) = none
    unfold readPacked
    dsimp only
    apply if_pos
    rw [List.length_take, size, Nat.min_eq_left part.le]
    rcases Nat.lt_or_ge count 24 with early | late
    · exact .inl early
    · right
      have same : (((packed.addDirent name ino next).take count).drop 16).take 8 =
          ((packed.addDirent name ino next).drop 16).take 8 := by
        rw [List.drop_take, List.take_take, Nat.min_eq_left (by omega)]
      have length := namelen_packed name ino next []
      rw [List.append_nil] at length
      rwa [same, length, numberOf_bytesOf short]
end NaiveFileSystem.Fuse
