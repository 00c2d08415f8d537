import Mathlib.Algebra.Order.Ring.Nat
import Mathlib.Tactic.Ring

/-!
# Little-endian numbers inside a buffer

A buffer is a function from its positions to bytes. Numbers of any width are
stored and loaded at any offset, and so are arrays of 32-bit words. A load finds
the last store at its place, and stores elsewhere do not disturb it.
-/

namespace LittleEndian

abbrev Buffer (size : ℕ) := Fin size → UInt8

variable {size : ℕ}

def byteAt (buffer : Buffer size) (position : ℕ) : UInt8 :=
  if inside : position < size then buffer ⟨position, inside⟩ else 0

def load (buffer : Buffer size) (offset : ℕ) : ℕ → ℕ
  | 0 => 0
  | width + 1 => (byteAt buffer offset).toNat + 256 * load buffer (offset + 1) width

def store (buffer : Buffer size) (offset width value : ℕ) : Buffer size := fun position =>
  if offset ≤ position ∧ position < offset + width then
    UInt8.ofNat (value / 256 ^ (position - offset))
  else buffer position

def loadWord (buffer : Buffer size) (offset : ℕ) : UInt32 := UInt32.ofNat (load buffer offset 4)

def storeWord (buffer : Buffer size) (offset : ℕ) (word : UInt32) : Buffer size :=
  store buffer offset 4 word.toNat

def storeWords (buffer : Buffer size) (offset : ℕ) {count : ℕ} (words : Fin count → UInt32) :
    Buffer size := fun position =>
  if inside : offset ≤ position ∧ position < offset + 4 * count then
    UInt8.ofNat ((words ⟨(position - offset) / 4, by omega⟩).toNat /
      256 ^ ((position - offset) % 4))
  else buffer position

theorem load_congr {first second : Buffer size} {offset other width : ℕ}
    (same : ∀ step < width, byteAt first (offset + step) = byteAt second (other + step)) :
    load first offset width = load second other width := by
  induction width generalizing offset other with
  | zero => rfl
  | succ width ih =>
    have head := same 0 (Nat.zero_lt_succ _)
    have tail := @ih (offset + 1) (other + 1) fun step bound => by
      simpa only [Nat.add_assoc, Nat.add_comm 1] using same (step + 1) (Nat.succ_lt_succ bound)
    simp only [load, Nat.add_zero] at head ⊢
    rw [head, tail]

theorem load_zero (offset width : ℕ) : load (fun _ => 0 : Buffer size) offset width = 0 := by
  induction width generalizing offset with
  | zero => rfl
  | succ width ih => simp [load, byteAt, ih]

theorem byteAt_store_outside (buffer : Buffer size) {offset width value position : ℕ}
    (outside : position < offset ∨ offset + width ≤ position) :
    byteAt (store buffer offset width value) position = byteAt buffer position := by
  have elsewhere : ¬ (offset ≤ position ∧ position < offset + width) := by omega
  simp [byteAt, store, elsewhere]

theorem byteAt_store_inside (buffer : Buffer size) {offset width value step : ℕ}
    (bound : step < width) (fits : offset + width ≤ size) :
    byteAt (store buffer offset width value) (offset + step) =
      UInt8.ofNat (value / 256 ^ step) := by
  have inside : offset + step < size := by omega
  simp [byteAt, store, inside, bound]

theorem load_of_bytes {buffer : Buffer size} {offset width value : ℕ}
    (bytes : ∀ step < width, byteAt buffer (offset + step) = UInt8.ofNat (value / 256 ^ step)) :
    load buffer offset width = value % 256 ^ width := by
  induction width generalizing offset value with
  | zero => simp [load, Nat.mod_one]
  | succ width ih =>
    have head := bytes 0 (Nat.zero_lt_succ _)
    have tail := @ih (offset + 1) (value / 256) fun step bound => by
      have next := bytes (step + 1) (Nat.succ_lt_succ bound)
      rw [Nat.div_div_eq_div_mul, ← Nat.pow_succ', ← next, Nat.add_assoc, Nat.add_comm 1]
    simp only [Nat.add_zero, Nat.pow_zero, Nat.div_one] at head
    rw [load, head, tail, Nat.pow_succ', Nat.mod_mul]
    simp

theorem load_store_same (buffer : Buffer size) {offset width value : ℕ}
    (fits : offset + width ≤ size) :
    load (store buffer offset width value) offset width = value % 256 ^ width :=
  load_of_bytes fun _ bound => byteAt_store_inside buffer bound fits

theorem load_store_disjoint (buffer : Buffer size) {offset width value other span : ℕ}
    (apart : other + span ≤ offset ∨ offset + width ≤ other) :
    load (store buffer offset width value) other span = load buffer other span :=
  load_congr fun _ bound => byteAt_store_outside buffer (by omega)

theorem loadWord_storeWord_same (buffer : Buffer size) {offset : ℕ} {word : UInt32}
    (fits : offset + 4 ≤ size) : loadWord (storeWord buffer offset word) offset = word := by
  rw [loadWord, storeWord, load_store_same buffer fits]
  exact UInt32.toNat_inj.mp (by simp [Nat.mod_eq_of_lt word.toNat_lt])

theorem loadWord_storeWord_disjoint (buffer : Buffer size) {offset other : ℕ} {word : UInt32}
    (apart : other + 4 ≤ offset ∨ offset + 4 ≤ other) :
    loadWord (storeWord buffer offset word) other = loadWord buffer other := by
  rw [loadWord, storeWord, load_store_disjoint buffer apart]
  rfl

theorem loadWord_storeWords_same (buffer : Buffer size) {offset count : ℕ}
    {words : Fin count → UInt32} (fits : offset + 4 * count ≤ size) (index : Fin count) :
    loadWord (storeWords buffer offset words) (offset + 4 * index) = words index := by
  have stored : load (storeWords buffer offset words) (offset + 4 * index) 4 =
      (words index).toNat % 256 ^ 4 := by
    apply load_of_bytes
    intro step bound
    have position := index.isLt
    have inside : offset + 4 * index.val + step < size := by omega
    have within : offset ≤ offset + 4 * index.val + step ∧
        offset + 4 * index.val + step < offset + 4 * count := by omega
    have slot : (offset + 4 * index.val + step - offset) / 4 = index.val := by omega
    have place : (offset + 4 * index.val + step - offset) % 4 = step := by omega
    simp [byteAt, storeWords, inside, within, slot, place]
  rw [loadWord, stored]
  exact UInt32.toNat_inj.mp (by simp [Nat.mod_eq_of_lt (words index).toNat_lt])

theorem load_storeWords_before (buffer : Buffer size) {offset count other span : ℕ}
    {words : Fin count → UInt32} (before : other + span ≤ offset) :
    load (storeWords buffer offset words) other span = load buffer other span := by
  apply load_congr
  intro step bound
  have outside : ¬ offset ≤ other + step := by omega
  simp [byteAt, storeWords, outside]

end LittleEndian
