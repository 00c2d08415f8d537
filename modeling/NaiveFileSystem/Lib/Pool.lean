import Mathlib.Algebra.BigOperators.Group.Multiset.Basic
import Mathlib.Algebra.Order.BigOperators.Group.Multiset
import Mathlib.Algebra.Order.Group.Nat

/-!
# Pools of concurrent activities

What runs concurrently is a multiset. A weight counts one kind of token over the
whole pool, so that replacing one activity changes every count by a constant,
and conservation laws between counts are linear arithmetic. A condition variable
wakes one sleeper of the pool if there is one.
-/

namespace Pool

universe u v

variable {α : Type u}

def weight (charge : α → ℕ) (pool : Multiset α) : ℕ := (pool.map charge).sum

@[simp] theorem weight_zero (charge : α → ℕ) : weight charge 0 = 0 := rfl

@[simp] theorem weight_cons (charge : α → ℕ) (activity : α) (pool : Multiset α) :
    weight charge (activity ::ₘ pool) = charge activity + weight charge pool := by
  simp [weight]

theorem weight_add (charge other : α → ℕ) (pool : Multiset α) :
    weight (fun activity => charge activity + other activity) pool =
      weight charge pool + weight other pool :=
  Multiset.sum_map_add

theorem le_weight (charge : α → ℕ) {activity : α} {pool : Multiset α}
    (member : activity ∈ pool) : charge activity ≤ weight charge pool := by
  obtain ⟨rest, rfl⟩ := Multiset.exists_cons_of_mem member
  simp

theorem exists_of_weight_pos {charge : α → ℕ} {pool : Multiset α}
    (positive : 0 < weight charge pool) : ∃ activity ∈ pool, 0 < charge activity := by
  by_contra none
  push Not at none
  have zero : weight charge pool = 0 := by
    rw [weight, Multiset.sum_eq_zero_iff]
    intro count member
    obtain ⟨activity, inside, rfl⟩ := Multiset.mem_map.mp member
    exact Nat.le_zero.mp (none activity inside)
  omega

theorem weight_eq_zero {charge : α → ℕ} {pool : Multiset α}
    (free : ∀ activity ∈ pool, charge activity = 0) : weight charge pool = 0 := by
  by_contra positive
  obtain ⟨activity, member, charged⟩ := exists_of_weight_pos (Nat.pos_of_ne_zero positive)
  exact absurd (free activity member) (Nat.ne_of_gt charged)

theorem weight_le_weight {charge bound : α → ℕ} (le : ∀ activity, charge activity ≤ bound activity)
    (pool : Multiset α) : weight charge pool ≤ weight bound pool :=
  Multiset.sum_map_le_sum_map _ _ fun activity _ => le activity

theorem add_le_weight (charge : α → ℕ) {first second : α} {pool : Multiset α}
    (both : first ::ₘ {second} ≤ pool) : charge first + charge second ≤ weight charge pool := by
  obtain ⟨rest, rfl⟩ := Multiset.le_iff_exists_add.mp both
  simp [weight]

/-- A predicate that two members satisfy holds of two occurrences. -/
theorem exists_pair_of_countP {holds : α → Prop} [DecidablePred holds] {pool : Multiset α}
    (many : 1 < pool.countP holds) :
    ∃ first second, holds first ∧ holds second ∧ first ::ₘ {second} ≤ pool := by
  rw [Multiset.countP_eq_card_filter] at many
  obtain ⟨first, inside⟩ := Multiset.card_pos_iff_exists_mem.mp (Nat.lt_of_succ_lt many)
  obtain ⟨rest, split⟩ := Multiset.exists_cons_of_mem inside
  rw [split, Multiset.card_cons] at many
  obtain ⟨second, later⟩ := Multiset.card_pos_iff_exists_mem.mp (Nat.lt_of_succ_lt_succ many)
  obtain ⟨others, rfl⟩ := Multiset.exists_cons_of_mem later
  have holdsOf : ∀ activity ∈ pool.filter holds, holds activity :=
    fun activity member => (Multiset.mem_filter.mp member).2
  refine ⟨first, second, holdsOf first (by simp [split]), holdsOf second (by simp [split]), ?_⟩
  calc first ::ₘ {second} ≤ first ::ₘ second ::ₘ others := by simp
    _ = pool.filter holds := split.symm
    _ ≤ pool := Multiset.filter_le _ _

section Wake

variable {τ : Type v}

/-- A signal: one activity goes from `asleep` to `awake`, or nobody is asleep. -/
inductive Wake (asleep awake : τ → α) : Multiset α → Multiset α → Prop
  | one (sleeper : τ) (rest : Multiset α) :
      Wake asleep awake (asleep sleeper ::ₘ rest) (awake sleeper ::ₘ rest)
  | nobody {pool : Multiset α} : (∀ sleeper, asleep sleeper ∉ pool) → Wake asleep awake pool pool

theorem Wake.weight_eq {asleep awake : τ → α} {before after : Multiset α}
    (wake : Wake asleep awake before after) {charge : α → ℕ}
    (same : ∀ sleeper, charge (asleep sleeper) = charge (awake sleeper)) :
    weight charge after = weight charge before := by
  cases wake with
  | one sleeper rest => simp [same]
  | nobody => rfl

theorem Wake.awake_or_none {asleep awake : τ → α} {before after : Multiset α}
    (wake : Wake asleep awake before after) {sleeping woken : α → ℕ}
    (onlyAsleep : ∀ activity, 0 < sleeping activity → ∃ sleeper, activity = asleep sleeper)
    (charged : ∀ sleeper, 0 < woken (awake sleeper)) :
    weight sleeping after = 0 ∨ 0 < weight woken after := by
  cases wake with
  | one sleeper rest =>
    refine .inr ?_
    have := charged sleeper
    simp only [weight_cons]
    omega
  | nobody none =>
    refine .inl (weight_eq_zero fun activity member => ?_)
    by_contra positive
    obtain ⟨sleeper, rfl⟩ := onlyAsleep activity (Nat.pos_of_ne_zero positive)
    exact none sleeper member

end Wake

end Pool
