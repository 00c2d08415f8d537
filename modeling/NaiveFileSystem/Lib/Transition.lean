import Mathlib.Data.List.Forall2
import Mathlib.Data.List.Induction
import Mathlib.Logic.Function.Basic

/-!
# Labelled transition systems and their runs

A run records its labels in order. Invariants may speak about the labels seen so
far, so safety properties of histories and of states have one induction rule.
Families of independent components carry a guard that may look at the whole
family; every run of a family projects to a run of each component. A simulation
maps the runs of one system to runs of another with the same labels; a refinement
may show other labels, and none for a step of which the other system sees nothing.
-/

namespace Transition

universe u v w x y

/-- A transition system: where it may start, and which labelled steps it has. -/
structure System (State : Type u) (Label : Type v) where
  init : State → Prop
  step : State → Label → State → Prop

variable {State : Type u} {Label : Type v}

/-- `Run system trace state`: some run with the labels `trace` ends in `state`. -/
inductive Run (system : System State Label) : List Label → State → Prop
  | start {state} : system.init state → Run system [] state
  | extend {trace state label next} : Run system trace state →
      system.step state label next → Run system (trace ++ [label]) next

def Reachable (system : System State Label) (state : State) : Prop :=
  ∃ trace, Run system trace state

theorem Run.reachable {system : System State Label} {trace : List Label} {state : State}
    (run : Run system trace state) : Reachable system state := ⟨trace, run⟩

theorem Reachable.extend {system : System State Label} {state next : State} {label : Label}
    (reachable : Reachable system state) (steps : system.step state label next) :
    Reachable system next := by
  obtain ⟨trace, run⟩ := reachable
  exact ⟨_, .extend run steps⟩

/-- What holds initially and is kept by every step holds after every run. -/
theorem Run.invariant {system : System State Label} {holds : List Label → State → Prop}
    (initial : ∀ state, system.init state → holds [] state)
    (kept : ∀ trace state label next, holds trace state → system.step state label next →
      holds (trace ++ [label]) next)
    {trace : List Label} {state : State} (run : Run system trace state) : holds trace state := by
  induction run with
  | start begins => exact initial _ begins
  | extend _ steps ih => exact kept _ _ _ _ ih steps

/-- The same rule for properties of states. -/
theorem Reachable.invariant {system : System State Label} {holds : State → Prop}
    (initial : ∀ state, system.init state → holds state)
    (kept : ∀ state label next, holds state → system.step state label next → holds next)
    {state : State} (reachable : Reachable system state) : holds state := by
  obtain ⟨trace, run⟩ := reachable
  exact @Run.invariant _ _ _ (fun _ state => holds state) initial
    (fun _ state label next => kept state label next) _ _ run

theorem Reachable.mono {fewer more : System State Label} {state : State}
    (reachable : Reachable fewer state)
    (initial : ∀ state, fewer.init state → more.init state)
    (steps : ∀ state label next, fewer.step state label next → more.step state label next) :
    Reachable more state :=
  reachable.invariant (fun state begins => ⟨[], .start (initial state begins)⟩)
    fun state label next earlier moves => earlier.extend (steps state label next moves)

theorem Run.mono {fewer more : System State Label} {trace : List Label} {state : State}
    (run : Run fewer trace state) (initial : ∀ state, fewer.init state → more.init state)
    (steps : ∀ state label next, fewer.step state label next → more.step state label next) :
    Run more trace state :=
  run.invariant (fun state begins => .start (initial state begins))
    fun _ state label next earlier moves => earlier.extend (steps state label next moves)

theorem Run.last {system : System State Label} {trace : List Label} {label : Label}
    {state : State} (run : Run system (trace ++ [label]) state) :
    ∃ before, Run system trace before ∧ system.step before label state := by
  generalize whole : trace ++ [label] = labels at run
  cases run with
  | start => simp at whole
  | extend earlier steps =>
    obtain ⟨rfl, same⟩ := List.append_inj' whole rfl
    cases same
    exact ⟨_, earlier, steps⟩

theorem Run.before {system : System State Label} {first second : List Label} {state : State}
    (run : Run system (first ++ second) state) : ∃ middle, Run system first middle := by
  induction second using List.reverseRecOn generalizing state with
  | nil => exact ⟨state, by simpa using run⟩
  | append_singleton second label ih =>
    rw [← List.append_assoc] at run
    obtain ⟨middle, shorter, _⟩ := run.last
    exact ih shorter

/-- Forward simulation: a run of the concrete system is a run of the abstract one. -/
theorem Run.simulate {Abstract : Type w} {concrete : System State Label}
    {abstract : System Abstract Label} {related : State → Abstract → Prop}
    (initial : ∀ state, concrete.init state → ∃ spec, abstract.init spec ∧ related state spec)
    (kept : ∀ state label next spec, Reachable concrete state → related state spec →
      concrete.step state label next →
      ∃ after, abstract.step spec label after ∧ related next after)
    {trace : List Label} {state : State} (run : Run concrete trace state) :
    ∃ spec, Run abstract trace spec ∧ related state spec := by
  induction run with
  | start begins =>
    obtain ⟨spec, opens, here⟩ := initial _ begins
    exact ⟨spec, .start opens, here⟩
  | extend earlier steps ih =>
    obtain ⟨spec, abstractly, here⟩ := ih
    obtain ⟨after, moves, there⟩ := kept _ _ _ spec earlier.reachable here steps
    exact ⟨after, .extend abstractly moves, there⟩

/-- A step, or none where nothing is shown. -/
inductive System.Moves (system : System State Label) : State → Option Label → State → Prop
  | stays {state} : Moves system state none state
  | steps {state label next} : system.step state label next → Moves system state (some label) next

theorem System.Moves.run {system : System State Label} {trace : List Label} {state next : State}
    {label : Option Label} (moves : system.Moves state label next) (run : Run system trace state) :
    Run system (trace ++ label.toList) next := by
  cases moves with
  | stays => simpa using run
  | steps moves => exact .extend run moves

section Refinement

variable {Abstract : Type w} {Label' : Type x} {concrete : System State Label}
  {abstract : System Abstract Label'} {related : State → Abstract → Prop}

/-- Refinement: a step of which the view shows a label is a step with a label alike, and
the other steps may change nothing in the abstract system. -/
theorem Run.refine {Shown : Type y} (view : Label → Option Shown) (alike : Shown → Label' → Prop)
    (initial : ∀ state, concrete.init state → ∃ spec, abstract.init spec ∧ related state spec)
    (kept : ∀ state label next spec, Reachable concrete state → Reachable abstract spec →
      related state spec → concrete.step state label next →
      ∃ shown after, Option.Rel alike (view label) shown ∧ abstract.Moves spec shown after ∧
        related next after)
    {trace : List Label} {state : State} (run : Run concrete trace state) :
    ∃ labels spec, List.Forall₂ alike (trace.filterMap view) labels ∧ Run abstract labels spec ∧
      related state spec := by
  induction run with
  | start begins =>
    obtain ⟨spec, opens, here⟩ := initial _ begins
    exact ⟨[], spec, .nil, .start opens, here⟩
  | @extend trace state label next earlier steps ih =>
    obtain ⟨labels, spec, shown, abstractly, here⟩ := ih
    obtain ⟨label', after, same, moves, there⟩ :=
      kept _ _ _ spec earlier.reachable abstractly.reachable here steps
    refine ⟨labels ++ label'.toList, after, ?_, moves.run abstractly, there⟩
    rw [List.filterMap_append]
    refine List.rel_append shown ?_
    cases shows_ : view label with
    | none =>
      rw [shows_] at same
      cases same
      rw [List.filterMap_cons_none shows_]
      exact .nil
    | some seen =>
      rw [shows_] at same
      cases same with
      | some same =>
        rw [List.filterMap_cons_some shows_]
        exact .cons same .nil

theorem Run.refine_view (view : Label → Option Label')
    (initial : ∀ state, concrete.init state → ∃ spec, abstract.init spec ∧ related state spec)
    (kept : ∀ state label next spec, Reachable concrete state → Reachable abstract spec →
      related state spec → concrete.step state label next →
      ∃ after, abstract.Moves spec (view label) after ∧ related next after)
    {trace : List Label} {state : State} (run : Run concrete trace state) :
    ∃ spec, Run abstract (trace.filterMap view) spec ∧ related state spec := by
  obtain ⟨labels, spec, same, abstractly, here⟩ := run.refine view Eq initial
    fun state label next spec reachable reachable' here steps => by
      obtain ⟨after, moves, there⟩ := kept state label next spec reachable reachable' here steps
      refine ⟨view label, after, ?_, moves, there⟩
      cases view label with
      | none => exact .none
      | some => exact .some rfl
  rw [List.forall₂_eq_eq_eq] at same
  subst same
  exact ⟨spec, abstractly, here⟩

end Refinement

section Family

variable {Index : Type w} [DecidableEq Index]

/-- Components that run side by side. A step moves one of them; `guard` may
forbid it by looking at all the others. -/
def family (component : System State Label)
    (guard : (Index → State) → Index → Label → Prop) :
    System (Index → State) (Index × Label) where
  init states := ∀ index, component.init (states index)
  step states label next := guard states label.1 label.2 ∧
    ∃ state, component.step (states label.1) label.2 state ∧
      next = Function.update states label.1 state

def labelsOf (index : Index) (trace : List (Index × Label)) : List Label :=
  trace.filterMap fun label => if label.1 = index then some label.2 else none

theorem Run.component {component : System State Label}
    {guard : (Index → State) → Index → Label → Prop}
    {trace : List (Index × Label)} {states : Index → State}
    (run : Run (family component guard) trace states) (index : Index) :
    Run component (labelsOf index trace) (states index) := by
  induction run with
  | start begins => exact .start (begins index)
  | @extend trace states label next _ steps ih =>
    obtain ⟨_, state, moves, rfl⟩ := steps
    by_cases same : label.1 = index
    · subst same
      simpa [labelsOf] using Run.extend ih moves
    · simpa [labelsOf, same, Function.update_of_ne (Ne.symm same)] using ih

theorem Reachable.component {component : System State Label}
    {guard : (Index → State) → Index → Label → Prop} {states : Index → State}
    (reachable : Reachable (family component guard) states) (index : Index) :
    Reachable component (states index) := by
  obtain ⟨trace, run⟩ := reachable
  exact (run.component index).reachable

end Family

section Fold

variable {Input : Type w}

/-- A partial step function that never fails on good states and good inputs,
and keeps states good, never fails on a list of good inputs. -/
theorem foldlM_total {advance : State → Input → Option State} {good : State → Prop}
    {allowed : Input → Prop}
    (kept : ∀ state input, good state → allowed input →
      ∃ next, advance state input = some next ∧ good next) :
    ∀ (inputs : List Input) (state : State), good state → (∀ input ∈ inputs, allowed input) →
      ∃ final, inputs.foldlM advance state = some final ∧ good final := by
  intro inputs
  induction inputs with
  | nil => exact fun state here _ => ⟨state, rfl, here⟩
  | cons input rest ih =>
    intro state here all
    obtain ⟨next, moved, there⟩ := kept state input here (all input (by simp))
    obtain ⟨final, ends, good⟩ := ih next there fun other member => all other (by simp [member])
    exact ⟨final, by simp [moved, ends], good⟩

end Fold

end Transition
