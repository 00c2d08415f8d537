import Mathlib.Data.List.Basic

/-!
# Arrays that grow

Lists as arrays with a filler behind their end. Cutting an array to a size and
writing into it at an offset are said by what each position holds; both agree with
the list operations that take a prefix, fill up and replace a range.
-/

namespace Growing

universe u

variable {α : Type u} (filler : α)

/-- The first `size` elements, filled up. -/
def cut (content : List α) (size : ℕ) : List α :=
  (List.range size).map fun position => content.getD position filler

/-- `data` from `offset` on, over the old content. -/
def splice (content : List α) (offset : ℕ) (data : List α) : List α :=
  (List.range (max content.length (offset + data.length))).map fun position =>
    if offset ≤ position ∧ position < offset + data.length then
      data.getD (position - offset) filler
    else content.getD position filler

/-- The elements from `offset` on, at most `size` of them. -/
def slice (content : List α) (offset size : ℕ) : List α :=
  (content.take (offset + size)).drop offset

variable {filler} {content data : List α} {offset size position : ℕ}

@[simp] theorem length_cut : (cut filler content size).length = size := by simp [cut]

@[simp] theorem length_splice :
    (splice filler content offset data).length = max content.length (offset + data.length) := by
  simp [splice]

theorem getElem?_cut (inside : position < size) :
    (cut filler content size)[position]? = some (content.getD position filler) := by
  simp [cut, inside]

theorem getElem?_splice (inside : position < max content.length (offset + data.length)) :
    (splice filler content offset data)[position]? = some
      (if offset ≤ position ∧ position < offset + data.length then
        data.getD (position - offset) filler
      else content.getD position filler) := by
  rw [splice, List.getElem?_map, List.getElem?_range inside]
  rfl

theorem getD_of_lt {list : List α} (inside : position < list.length) :
    list[position]? = some (list.getD position filler) := by
  rw [List.getD_eq_getElem?_getD, List.getElem?_eq_getElem inside, Option.getD_some]

/-- A prefix, filled up behind its end. -/
theorem take_append_replicate :
    content.take size ++ List.replicate (size - content.length) filler =
      cut filler content size := by
  refine List.ext_getElem? fun position => ?_
  rcases Nat.lt_or_ge position size with inside | outside
  · rw [getElem?_cut inside]
    rcases Nat.lt_or_ge position content.length with early | late
    · rw [List.getElem?_append_left (by rw [List.length_take]; omega),
        List.getElem?_take_of_lt inside]
      exact getD_of_lt early
    · have front : (content.take size).length = content.length := by
        rw [List.length_take]
        omega
      rw [List.getElem?_append_right (by omega), List.getElem?_replicate, front,
        if_pos (by omega), List.getD_eq_getElem?_getD, List.getElem?_eq_none late, Option.getD_none]
  · rw [List.getElem?_eq_none (by simp; omega), List.getElem?_eq_none (by simp [outside])]

theorem take_eq_cut (short : size ≤ content.length) :
    content.take size = cut filler content size := by
  rw [← take_append_replicate, Nat.sub_eq_zero_of_le short, List.replicate_zero, List.append_nil]

theorem append_replicate_eq_cut (long : content.length ≤ size) :
    content ++ List.replicate (size - content.length) filler = cut filler content size := by
  rw [← take_append_replicate, List.take_of_length_le long]

theorem cut_length : cut filler content content.length = content := by
  rw [← take_eq_cut (Nat.le_refl _), List.take_length]

/-- Growing first and replacing the range then is writing into the array. -/
theorem replace_eq_splice :
    (cut filler content (max content.length (offset + data.length))).take offset ++ data ++
      (cut filler content (max content.length (offset + data.length))).drop (offset + data.length) =
      splice filler content offset data := by
  have front :
      ((cut filler content (max content.length (offset + data.length))).take offset).length =
        offset := by
    rw [List.length_take, length_cut]
    omega
  refine List.ext_getElem? fun position => ?_
  rw [List.append_assoc]
  rcases Nat.lt_or_ge position offset with before | behind
  · have inside : position < max content.length (offset + data.length) := by omega
    rw [List.getElem?_append_left (by omega), List.getElem?_take_of_lt before, getElem?_cut inside,
      getElem?_splice inside, if_neg (by omega)]
  · rw [List.getElem?_append_right (by omega), front]
    rcases Nat.lt_or_ge position (offset + data.length) with within | after
    · rw [List.getElem?_append_left (by omega), getElem?_splice (by omega),
        if_pos ⟨behind, within⟩]
      exact getD_of_lt (by omega)
    · have shifted : offset + data.length + (position - offset - data.length) = position := by omega
      rw [List.getElem?_append_right (by omega), List.getElem?_drop, shifted]
      rcases Nat.lt_or_ge position content.length with early | late
      · have inside : position < max content.length (offset + data.length) := by omega
        rw [getElem?_cut inside, getElem?_splice inside, if_neg (by omega)]
      · rw [List.getElem?_eq_none (by rw [length_cut]; omega),
          List.getElem?_eq_none (by rw [length_splice]; omega)]

theorem cases_eq_slice :
    (if offset ≤ content.length then
      if offset + size ≤ content.length then (content.drop offset).take size
      else (content.drop offset).take (content.length - offset)
    else []) = slice content offset size := by
  rw [slice, List.drop_take, Nat.add_sub_cancel_left]
  split
  next =>
    split
    next => rfl
    next beyond =>
      rw [List.take_of_length_le (by simp), List.take_of_length_le (by simp; omega)]
  next beyond => rw [List.drop_eq_nil_of_le (by omega), List.take_nil]

end Growing
