import Mathlib.Data.List.Basic
import Mathlib.Data.List.Infix

/-!
# Records read in pages

Records lie one behind the other in a buffer, each with the offset of the next. A reader
is given a page of bytes from an offset, takes some of the whole records in it, and comes
back with the offset that the last of them has. Page by page it reads the records in order.
-/

namespace Paging

universe u v

/-- The bytes of a record with the offset of the next, and how one is read. -/
structure Format (Record : Type u) (Byte : Type v) where
  size : Record → ℕ
  encode : Record → ℕ → List Byte
  read : List Byte → Option ((Record × ℕ) × List Byte)

variable {Record : Type u} {Byte : Type v}

/-- Those records are read back that are whole. -/
structure Format.Lawful (format : Format Record Byte) (readable : Record → ℕ → Prop) : Prop where
  positive : ∀ record, 0 < format.size record
  nothing : format.read [] = none
  length : ∀ record next, (format.encode record next).length = format.size record
  whole : ∀ record next rest, readable record next →
    format.read (format.encode record next ++ rest) = some ((record, next), rest)
  cut : ∀ record next, readable record next → ∀ count < format.size record,
    format.read ((format.encode record next).take count) = none

namespace Format

variable (format : Format Record Byte)

def extent : List Record → ℕ
  | [] => 0
  | record :: rest => format.size record + extent rest

def layout : ℕ → List Record → List Byte
  | _, [] => []
  | start, record :: rest =>
    format.encode record (start + format.size record) ++ layout (start + format.size record) rest

/-- The records with the offsets behind them. -/
def marks : ℕ → List Record → List (Record × ℕ)
  | _, [] => []
  | start, record :: rest =>
    (record, start + format.size record) :: marks (start + format.size record) rest

def readAll : ℕ → List Byte → List (Record × ℕ)
  | 0, _ => []
  | fuel + 1, bytes =>
    match format.read bytes with
    | some (entry, rest) => entry :: readAll fuel rest
    | none => []

/-- The whole records at the front of some bytes. -/
def entries (bytes : List Byte) : List (Record × ℕ) := format.readAll bytes.length bytes

/-- The page of a buffer. -/
def page (records : List Record) (offset count : ℕ) : List Byte :=
  ((format.layout 0 records).drop offset).take count

section Layout

variable {format} {records first second : List Record} {start count index : ℕ}

@[simp] theorem extent_nil : format.extent [] = 0 := rfl

@[simp] theorem extent_cons (record : Record) :
    format.extent (record :: records) = format.size record + format.extent records := rfl

@[simp] theorem extent_append :
    format.extent (first ++ second) = format.extent first + format.extent second := by
  induction first with
  | nil => simp
  | cons record rest ih => simp [ih, Nat.add_assoc]

@[simp] theorem map_marks : (format.marks start records).map Prod.fst = records := by
  induction records generalizing start with
  | nil => rfl
  | cons record rest ih => simp [marks, ih]

theorem marks_append : format.marks start (first ++ second) =
    format.marks start first ++ format.marks (start + format.extent first) second := by
  induction first generalizing start with
  | nil => simp [marks]
  | cons record rest ih => simp [marks, ih, Nat.add_assoc]

theorem layout_append : format.layout start (first ++ second) =
    format.layout start first ++ format.layout (start + format.extent first) second := by
  induction first generalizing start with
  | nil => simp [layout]
  | cons record rest ih => simp [layout, ih, Nat.add_assoc]

theorem getLast_marks (some : format.marks start records ≠ []) :
    ((format.marks start records).getLast some).2 = start + format.extent records := by
  induction records generalizing start with
  | nil => exact absurd rfl some
  | cons record rest ih =>
    cases rest with
    | nil => simp [marks]
    | cons other rest =>
      have more : format.marks (start + format.size record) (other :: rest) ≠ [] := by simp [marks]
      have last := ih more
      simp only [marks, List.getLast_cons_cons] at last ⊢
      rw [last, extent_cons record, Nat.add_assoc]

theorem take_marks : (format.marks start records).take index =
    format.marks start (records.take index) := by
  induction records generalizing start index with
  | nil => simp [marks]
  | cons record rest ih =>
    cases index with
    | zero => rfl
    | succ index => simp [marks, ih]

end Layout

section Lawful

variable {format} {readable : Record → ℕ → Prop} {records : List Record} {start count index : ℕ}

theorem Lawful.length_layout (lawful : format.Lawful readable) :
    (format.layout start records).length = format.extent records := by
  induction records generalizing start with
  | nil => rfl
  | cons record rest ih => simp [layout, lawful.length, ih]

theorem Lawful.drop_layout (lawful : format.Lawful readable) :
    (format.layout 0 records).drop (format.extent (records.take index)) =
      format.layout (format.extent (records.take index)) (records.drop index) := by
  have split := @layout_append _ _ format (records.take index) (records.drop index) 0
  rw [List.take_append_drop, Nat.zero_add] at split
  have front : (format.layout 0 (records.take index)).length = format.extent (records.take index) :=
    lawful.length_layout
  rw [split, List.drop_left' front]

theorem Lawful.readAll_take (lawful : format.Lawful readable)
    (all : ∀ entry ∈ format.marks start records, readable entry.1 entry.2) (fuel : ℕ) :
    ∃ taken, format.readAll fuel ((format.layout start records).take count) =
        (format.marks start records).take taken ∧
      ∀ record rest, records = record :: rest → format.size record ≤ count → 0 < fuel → 0 < taken := by
  induction fuel generalizing start records count with
  | zero => exact ⟨0, rfl, fun _ _ _ _ none => absurd none (Nat.lt_irrefl 0)⟩
  | succ fuel ih =>
    cases records with
    | nil =>
      refine ⟨0, ?_, fun _ _ same => by cases same⟩
      simp [layout, readAll, lawful.nothing]
    | cons record rest =>
      simp only [marks, List.forall_mem_cons] at all
      obtain ⟨first, later⟩ := all
      have length := lawful.length record (start + format.size record)
      rcases Nat.lt_or_ge count (format.size record) with short | fits
      · refine ⟨0, ?_, fun _ _ same enough => ?_⟩
        · have part : (format.layout start (record :: rest)).take count =
              (format.encode record (start + format.size record)).take count := by
            rw [layout, List.take_append_of_le_length (by omega)]
          rw [part, readAll, lawful.cut _ _ first count short]
          rfl
        · cases same
          exact absurd short (Nat.not_lt.mpr enough)
      · obtain ⟨taken, reads, _⟩ := @ih rest (start + format.size record)
          (count - format.size record) later
        refine ⟨taken + 1, ?_, fun _ _ _ _ _ => Nat.succ_pos taken⟩
        have part : (format.layout start (record :: rest)).take count =
            format.encode record (start + format.size record) ++
              (format.layout (start + format.size record) rest).take (count - format.size record) := by
          rw [layout, List.take_append, length, List.take_of_length_le (by omega)]
        rw [part, readAll, lawful.whole _ _ _ first]
        simp only [reads, marks, List.take_succ_cons]

theorem Lawful.page_eq (lawful : format.Lawful readable) :
    format.page records (format.extent (records.take index)) count =
      (format.layout (format.extent (records.take index)) (records.drop index)).take count := by
  rw [page, lawful.drop_layout]

theorem readable_drop (all : ∀ entry ∈ format.marks 0 records, readable entry.1 entry.2) :
    ∀ entry ∈ format.marks (format.extent (records.take index)) (records.drop index),
      readable entry.1 entry.2 := by
  intro entry inside
  have whole := @marks_append _ _ format (records.take index) (records.drop index) 0
  rw [List.take_append_drop, Nat.zero_add] at whole
  rw [whole] at all
  exact all entry (List.mem_append_right _ inside)

/-- What a reader takes of a page is what follows, and the last offset is behind it. -/
theorem Lawful.page_taken (lawful : format.Lawful readable)
    (all : ∀ entry ∈ format.marks 0 records, readable entry.1 entry.2) {taken : List (Record × ℕ)}
    (front : taken <+: format.entries
      (format.page records (format.extent (records.take index)) count)) (some : taken ≠ []) :
    ∃ more, taken.map Prod.fst = (records.drop index).take more ∧
      (taken.getLast some).2 = format.extent (records.take (index + more)) := by
  rw [entries, lawful.page_eq] at front
  obtain ⟨limit, reads, _⟩ := @Lawful.readAll_take _ _ format readable (records.drop index)
    (format.extent (records.take index)) count lawful (readable_drop all)
    ((format.layout (format.extent (records.take index)) (records.drop index)).take count).length
  rw [reads] at front
  have same : taken = format.marks (format.extent (records.take index))
      ((records.drop index).take taken.length) := by
    rw [← take_marks]
    exact List.prefix_iff_eq_take.mp (front.trans (List.take_prefix _ _))
  refine ⟨taken.length, ?_, ?_⟩
  · exact (congrArg (List.map Prod.fst) same).trans map_marks
  · have some' : format.marks (format.extent (records.take index))
        ((records.drop index).take taken.length) ≠ [] := same ▸ some
    have last : (taken.getLast some).2 = ((format.marks (format.extent (records.take index))
        ((records.drop index).take taken.length)).getLast some').2 := by
      congr 2
    rw [last, getLast_marks, List.take_add, extent_append]

theorem Lawful.page_progress (lawful : format.Lawful readable)
    (all : ∀ entry ∈ format.marks 0 records, readable entry.1 entry.2) {record : Record}
    (next : records[index]? = some record) (fits : format.size record ≤ count) :
    format.entries (format.page records (format.extent (records.take index)) count) ≠ [] := by
  have here : records.drop index = record :: records.drop (index + 1) := by
    obtain ⟨inside, rfl⟩ := List.getElem?_eq_some_iff.mp next
    exact List.drop_eq_getElem_cons inside
  have positive := lawful.positive record
  rw [entries, lawful.page_eq]
  obtain ⟨taken, reads, more⟩ := @Lawful.readAll_take _ _ format readable (records.drop index)
    (format.extent (records.take index)) count lawful (readable_drop all)
    ((format.layout (format.extent (records.take index)) (records.drop index)).take count).length
  have long : 0 < ((format.layout (format.extent (records.take index))
      (records.drop index)).take count).length := by
    rw [List.length_take, lawful.length_layout, here, extent_cons]
    omega
  have some := more record _ here fits long
  rw [reads, here]
  cases taken with
  | zero => exact absurd some (Nat.lt_irrefl 0)
  | succ taken => simp [marks]

theorem Lawful.page_empty (lawful : format.Lawful readable) (positive : 0 < count)
    (empty : format.page records (format.extent (records.take index)) count = []) :
    records.length ≤ index := by
  rw [lawful.page_eq, List.take_eq_nil_iff] at empty
  have none : format.layout (format.extent (records.take index)) (records.drop index) = [] :=
    empty.resolve_left (by omega)
  have length := @Lawful.length_layout _ _ format readable (records.drop index)
    (format.extent (records.take index)) lawful
  rw [none] at length
  cases rest : records.drop index with
  | nil => exact List.drop_eq_nil_iff.mp rest
  | cons record rest' =>
    have positive := lawful.positive record
    rw [rest, extent_cons] at length
    simp at length
    omega

end Lawful

end Format

end Paging
