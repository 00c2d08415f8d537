import Mathlib.Data.List.TakeWhile
import Mathlib.Data.Nat.Digits.Lemmas
import NaiveFileSystem.Yfs.Text

/-!
# Directory listings and their text

Encoding and decoding a name gives it back, for signed bytes as well, and so does
printing and reading an inum; neither writes a space. The passes of a loop over
the text of a listing therefore read its entries, one after the other.
-/

namespace NaiveFileSystem.Yfs

open Cache

/-- The entries of a directory, in order. -/
abbrev Listing := List (Bytes × Inum)

def lineOf (entry : Bytes × Inum) : Bytes :=
  encode entry.1 ++ [32] ++ filename entry.2 ++ [32]

def textOf (listing : Listing) : Bytes := listing.flatMap lineOf

/-! ## Names -/

theorem forall_byte {holds : UInt8 → Prop} (every : ∀ n : Fin 256, holds (.ofNat n))
    (byte : UInt8) : holds byte := by
  have here := every ⟨byte.toNat, byte.toNat_lt⟩
  rwa [show UInt8.ofNat byte.toNat = byte from UInt8.ofNat_toNat] at here

/-- The two letters of a byte, with the quotient and the remainder rounded to zero. -/
theorem letters (byte : UInt8) :
    intToChar ((charToInt (intToChar (97 + (charToInt byte).tdiv 16)) - 97) * 16 +
      charToInt (intToChar (97 + (charToInt byte).tmod 16)) - 97) = byte ∧
    isSpace (intToChar (97 + (charToInt byte).tdiv 16)) = false ∧
    isSpace (intToChar (97 + (charToInt byte).tmod 16)) = false ∧
    intToChar (97 + (charToInt byte).tdiv 16) ≠ 0 ∧
    intToChar (97 + (charToInt byte).tmod 16) ≠ 0 := by
  revert byte
  exact forall_byte (by decide +kernel)

theorem encode_cons (byte : UInt8) (rest : Bytes) : encode (byte :: rest) =
    intToChar (97 + (charToInt byte).tdiv 16) :: intToChar (97 + (charToInt byte).tmod 16) ::
      encode rest := rfl

theorem uncode_encode (name : Bytes) : uncode (encode name) = name := by
  induction name with
  | nil => rfl
  | cons byte rest ih => rw [encode_cons, uncode, (letters byte).1, ih]

theorem length_encode (name : Bytes) : (encode name).length = 2 * name.length := by
  induction name with
  | nil => rfl
  | cons byte rest ih =>
    rw [encode_cons, List.length_cons, List.length_cons, List.length_cons, ih]
    omega

theorem encode_letter (name : Bytes) :
    ∀ letter ∈ encode name, isSpace letter = false ∧ letter ≠ 0 := by
  induction name with
  | nil => simp [encode]
  | cons byte rest ih =>
    intro letter inside
    obtain ⟨_, high, low, nonzero⟩ := letters byte
    rw [encode_cons, List.mem_cons, List.mem_cons] at inside
    rcases inside with rfl | rfl | later
    · exact ⟨high, nonzero.1⟩
    · exact ⟨low, nonzero.2⟩
    · exact ih letter later

theorem encode_not_space (name : Bytes) : ∀ letter ∈ encode name, isSpace letter = false :=
  fun letter inside => (encode_letter name letter inside).1

theorem encode_injective : Function.Injective encode := by
  intro name other same
  rw [← uncode_encode name, same, uncode_encode]

theorem encode_ne_nil {name : Bytes} (some : name ≠ []) : encode name ≠ [] := by
  intro empty
  have length := length_encode name
  rw [empty, List.length_nil] at length
  exact some (List.length_eq_zero_iff.mp (by omega))

/-! ## Inums -/

theorem digit_cases : ∀ digit : Fin 10, isDigit (48 + .ofNat digit) = true ∧
    isSpace (48 + .ofNat digit) = false ∧ (48 + UInt8.ofNat digit).toNat - 48 = digit ∧
    (48 + UInt8.ofNat digit) ≠ 43 ∧ (48 + UInt8.ofNat digit) ≠ 45 := by decide

theorem filename_digits (inum : Inum) : ∃ digits : List ℕ,
    digits ≠ [] ∧ (∀ digit ∈ digits, digit < 10) ∧
    Nat.ofDigits 10 digits = inum.toNat ∧
    filename inum = digits.reverse.map fun digit => 48 + .ofNat digit := by
  by_cases zero : inum = 0
  · exact ⟨[0], by simp, by simp, by simp [zero], by simp [filename, zero]⟩
  · refine ⟨Nat.digits 10 inum.toNat, ?_, fun digit inside => Nat.digits_lt_base (by decide) inside,
      Nat.ofDigits_digits 10 _, by rw [filename, if_neg zero]⟩
    rw [Nat.digits_ne_nil_iff_ne_zero]
    exact fun none => zero (UInt64.toNat_inj.mp none)

theorem foldl_digits (digits : List ℕ) (small : ∀ digit ∈ digits, digit < 10) :
    (digits.reverse.map fun digit => 48 + UInt8.ofNat digit).foldl
      (fun acc digit => acc * 10 + (digit.toNat - 48)) 0 = Nat.ofDigits 10 digits := by
  induction digits with
  | nil => rfl
  | cons digit rest ih =>
    have value := (digit_cases ⟨digit, small digit (by simp)⟩).2.2.1
    rw [List.reverse_cons, List.map_append, List.foldl_append,
      ih fun other inside => small other (List.mem_cons_of_mem _ inside), Nat.ofDigits_cons]
    simp only [List.map_cons, List.map_nil, List.foldl_cons, List.foldl_nil, value]
    ring

theorem filename_not_space (inum : Inum) : ∀ byte ∈ filename inum, isSpace byte = false := by
  obtain ⟨digits, _, small, _, text⟩ := filename_digits inum
  intro byte inside
  rw [text] at inside
  obtain ⟨digit, member, rfl⟩ := List.mem_map.mp inside
  exact (digit_cases ⟨digit, small digit (List.mem_reverse.mp member)⟩).2.1

theorem filename_ne_nil (inum : Inum) : filename inum ≠ [] := by
  obtain ⟨digits, some, _, _, text⟩ := filename_digits inum
  simp [text, some]

theorem n2i_filename (finum inum : Inum) : n2i finum (filename inum) = inum := by
  obtain ⟨digits, some, small, value, text⟩ := filename_digits inum
  have digit : ∀ byte ∈ filename inum, isDigit byte = true ∧ byte ≠ 43 ∧ byte ≠ 45 := by
    intro byte inside
    rw [text] at inside
    obtain ⟨digit, member, rfl⟩ := List.mem_map.mp inside
    have facts := digit_cases ⟨digit, small digit (List.mem_reverse.mp member)⟩
    exact ⟨facts.1, facts.2.2.2⟩
  have total := foldl_digits digits small
  rw [value, ← text] at total
  have kept : (filename inum).dropWhile isSpace = filename inum := by
    rw [List.dropWhile_eq_self_iff]
    exact fun nonempty => by simp [filename_not_space inum _ (List.getElem_mem nonempty)]
  have all : (filename inum).takeWhile isDigit = filename inum :=
    List.takeWhile_eq_self_iff.mpr fun byte inside => (digit byte inside).1
  obtain ⟨first, rest, shape⟩ := List.exists_cons_of_ne_nil (filename_ne_nil inum)
  have sign := (digit first (by simp [shape])).2
  rw [n2i, kept, shape]
  simp only [sign.1, sign.2, or_self, if_false]
  rw [← shape, all, total, if_neg (by have := inum.toNat_lt; omega), UInt64.ofNat_toNat]

/-! ## Tokens -/

theorem extract_token {space word rest : Bytes} (token : Bytes)
    (blank : ∀ byte ∈ space, isSpace byte) (solid : ∀ byte ∈ word, isSpace byte = false)
    (some_ : word ≠ []) (ends : ∀ byte ∈ rest.head?, isSpace byte) :
    extract (some (space ++ (word ++ rest))) token = (some rest, word) := by
  obtain ⟨first, others, rfl⟩ := List.exists_cons_of_ne_nil some_
  have stop : isSpace first = false := solid first (by simp)
  have solid' : ∀ byte ∈ first :: others, (!isSpace byte) = true := fun byte inside => by
    rw [solid byte inside]
    rfl
  have skipped : (space ++ (first :: others ++ rest)).dropWhile isSpace =
      first :: (others ++ rest) := by
    rw [List.dropWhile_append_of_pos blank, List.cons_append,
      List.dropWhile_cons_of_neg (by simp [stop])]
  have none_taken : rest.takeWhile (!isSpace ·) = [] ∧ rest.dropWhile (!isSpace ·) = rest := by
    cases rest with
    | nil => exact ⟨rfl, rfl⟩
    | cons byte after =>
      have space_first : ¬(!isSpace byte) = true := by simp [ends byte rfl]
      exact ⟨List.takeWhile_cons_of_neg space_first, List.dropWhile_cons_of_neg space_first⟩
  have taken : (first :: (others ++ rest)).takeWhile (!isSpace ·) = first :: others := by
    rw [← List.cons_append, List.takeWhile_append_of_pos solid', none_taken.1, List.append_nil]
  have left : (first :: (others ++ rest)).dropWhile (!isSpace ·) = rest := by
    rw [← List.cons_append, List.dropWhile_append_of_pos solid', none_taken.2]
  simp only [extract, skipped, taken, left]

theorem extract_word {space word rest : Bytes} (token : Bytes)
    (blank : ∀ byte ∈ space, isSpace byte) (solid : ∀ byte ∈ word, isSpace byte = false) (some_ : word ≠ []) :
    extract (some (space ++ (word ++ 32 :: rest))) token = (some (32 :: rest), word) :=
  extract_token token blank solid some_ (by simp [isSpace])

/-- Encoding keeps every byte of a name, and the stream reads an encoded name back as
one token wherever it stands between spaces. -/
theorem encode_lossless (name : Bytes) :
    uncode (encode name) = name ∧
    (encode name).length = 2 * name.length ∧
    (∀ letter ∈ encode name, isSpace letter = false ∧ letter ≠ 0) ∧
    (∀ other, encode other = encode name → other = name) ∧
    (name ≠ [] → ∀ space rest token : Bytes, (∀ byte ∈ space, isSpace byte) →
      (∀ byte ∈ rest.head?, isSpace byte) →
      extract (some (space ++ (encode name ++ rest))) token = (some rest, encode name)) := by
  refine ⟨uncode_encode name, length_encode name, encode_letter name,
    fun other same => encode_injective same, ?_⟩
  intro nonempty space rest token blank ends
  exact extract_token token blank (encode_not_space name) (encode_ne_nil nonempty) ends

/-- The name is the bytes 0x80 and 0xff. -/
theorem encode_lossless_high :
    encode [128, 255] = [89, 97, 97, 96] ∧ uncode [89, 97, 97, 96] = [128, 255] ∧
    extract (some [32, 89, 97, 97, 96, 32, 55]) [] = (some [32, 55], [89, 97, 97, 96]) :=
  ⟨by decide, (encode_lossless [128, 255]).1,
    (encode_lossless [128, 255]).2.2.2.2 (by simp) [32] [32, 55] [] (by simp [isSpace])
      (by simp [isSpace])⟩

theorem textOf_cons (entry : Bytes × Inum) (rest : Listing) : textOf (entry :: rest) =
    encode entry.1 ++ 32 :: (filename entry.2 ++ 32 :: textOf rest) := by
  simp [textOf, lineOf]

theorem passes_text {listing : Listing} (named : ∀ entry ∈ listing, entry.1 ≠ []) :
    ∀ (size i : ℕ) (space fileName inode : Bytes), (∀ byte ∈ space, isSpace byte) →
      size = i + (textOf listing).length →
      passes size i (some (space ++ textOf listing)) fileName inode =
        listing.map fun entry => (encode entry.1, filename entry.2) := by
  induction listing with
  | nil =>
    intro size i space fileName inode _ length
    rw [passes, if_neg (by simp [textOf] at length; omega), List.map_nil]
  | cons entry rest ih =>
    intro size i space fileName inode blank length
    have name := @extract_word space _ (filename entry.2 ++ 32 :: textOf rest) fileName blank
      (encode_not_space entry.1) (encode_ne_nil (named entry (by simp)))
    have number := @extract_word [32] _ (textOf rest) inode (List.forall_mem_singleton.mpr rfl)
      (filename_not_space entry.2) (filename_ne_nil entry.2)
    rw [textOf_cons, List.length_append, List.length_cons, List.length_append, List.length_cons]
      at length
    rw [passes, if_pos (by omega), textOf_cons, name]
    simp only
    rw [show 32 :: (filename entry.2 ++ 32 :: textOf rest) =
      [32] ++ (filename entry.2 ++ 32 :: textOf rest) from rfl, number]
    simp only [List.map_cons, List.cons.injEq, true_and]
    exact ih (fun other inside => named other (List.mem_cons_of_mem _ inside)) _ _ [32] _ _
      (List.forall_mem_singleton.mpr rfl) (by omega)

/-- The loops read the entries of a listing from its text. -/
theorem tokens_textOf {listing : Listing} (named : ∀ entry ∈ listing, entry.1 ≠ []) :
    tokens (textOf listing) = listing.map fun entry => (encode entry.1, filename entry.2) :=
  passes_text named _ 0 [] [] [] (by simp) (by simp)

/-- What `unlink` writes again of a directory: the entries but those of one name. -/
def withoutName (name data : Bytes) : Bytes :=
  ((tokens data).filter (uncode ·.1 ≠ name)).flatMap fun pass => pass.1 ++ [32] ++ pass.2 ++ [32]

theorem withoutName_textOf {listing : Listing} (named : ∀ entry ∈ listing, entry.1 ≠ [])
    (name : Bytes) : withoutName name (textOf listing) = textOf (listing.filter (·.1 ≠ name)) := by
  rw [withoutName, tokens_textOf named, List.filter_map, List.flatMap_map]
  simp only [Function.comp_def, uncode_encode]
  rfl

end NaiveFileSystem.Yfs
