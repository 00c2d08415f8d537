import Mathlib.Order.Nat

/-!
# Counting loops that may fail

`for (k = first; k < first + count; k++)` around a body that may end the
program. A loop invariant is a predicate on the counter and the state.
-/

namespace Loop

universe u v

variable {State : Type u} {Fault : Type v}

def counted (body : ℕ → State → Except Fault State) (first : ℕ) :
    ℕ → State → Except Fault State
  | 0, state => .ok state
  | count + 1, state => do
    let next ← body first state
    counted body (first + 1) count next

variable {body : ℕ → State → Except Fault State}

theorem counted_add (first front back : ℕ) (state : State) :
    counted body first (front + back) state = (do
      let middle ← counted body first front state
      counted body (first + front) back middle) := by
  induction front generalizing first state with
  | zero =>
    rw [Nat.zero_add]
    rfl
  | succ front ih =>
    rw [Nat.succ_add]
    simp only [counted, bind, Except.bind]
    cases body first state with
    | error => rfl
    | ok next =>
      have shifted := ih (first + 1) next
      rw [Nat.add_assoc, Nat.add_comm 1] at shifted
      exact shifted

/-- A change of the state that commutes with every pass commutes with the loop. -/
theorem counted_map {change : State → State}
    (commutes : ∀ k state, body k (change state) = (body k state).map change)
    (first count : ℕ) (state : State) :
    counted body first count (change state) = (counted body first count state).map change := by
  induction count generalizing first state with
  | zero => rfl
  | succ count ih =>
    simp only [counted, commutes, bind, Except.bind]
    cases body first state with
    | error => rfl
    | ok next => exact ih (first + 1) next

/-- If no pass fails and each keeps the invariant, the loop ends and keeps it. -/
theorem counted_ok {holds : ℕ → State → Prop} {first count : ℕ}
    (pass : ∀ k state, first ≤ k → k < first + count → holds k state →
      ∃ next, body k state = .ok next ∧ holds (k + 1) next)
    {state : State} (start : holds first state) :
    ∃ final, counted body first count state = .ok final ∧ holds (first + count) final := by
  induction count generalizing first state with
  | zero => exact ⟨state, rfl, start⟩
  | succ count ih =>
    obtain ⟨next, ran, kept⟩ := pass first state (Nat.le_refl first)
      (Nat.lt_add_of_pos_right count.succ_pos) start
    obtain ⟨final, done, held⟩ := ih (fun k state low high =>
      pass k state (Nat.le_of_succ_le low) (by omega)) kept
    refine ⟨final, ?_, ?_⟩
    · simp only [counted, ran]
      exact done
    · rwa [Nat.succ_add_eq_add_succ] at held

/-- Where the loop ends, what each pass that does not fail keeps is kept. -/
theorem counted_keeps {holds : ℕ → State → Prop} {first count : ℕ}
    (pass : ∀ k state next, first ≤ k → k < first + count → holds k state →
      body k state = .ok next → holds (k + 1) next)
    {state final : State} (start : holds first state)
    (ran : counted body first count state = .ok final) : holds (first + count) final := by
  induction count generalizing first state with
  | zero =>
    cases ran
    exact start
  | succ count ih =>
    simp only [counted, bind, Except.bind] at ran
    cases here : body first state with
    | error => simp [here] at ran
    | ok next =>
      rw [here] at ran
      have kept := pass first state next (Nat.le_refl first)
        (Nat.lt_add_of_pos_right count.succ_pos) start here
      have held := ih (fun k state next low high =>
        pass k state next (Nat.le_of_succ_le low) (by omega)) kept ran
      rwa [Nat.succ_add_eq_add_succ] at held

end Loop
