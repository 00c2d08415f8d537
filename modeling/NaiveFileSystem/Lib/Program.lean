import Mathlib.Logic.Function.Basic

/-!
# Programs that call operations

A program returns, or calls an operation and goes on with the reply. It can be
run by a handler of its operations, or be cut into its calls by a scheduler. The
weakest precondition is over a context of what the program knows; each operation
has a specification that says what it needs and which replies it may get.
-/

/-- A program over operations `op` with replies in `Res op`. -/
inductive Program {Op : Type} (Res : Op → Type) (α : Type)
  | done (value : α)
  | call (op : Op) (next : Res op → Program Res α)

namespace Program

variable {Op : Type} {Res : Op → Type} {α β S Γ : Type}

def bind (program : Program Res α) (next : α → Program Res β) : Program Res β :=
  match program with
  | done value => next value
  | call op rest => call op fun reply => (rest reply).bind next

instance : Monad (Program Res) where
  pure := done
  bind := bind

/-- One operation. -/
def perform (op : Op) : Program Res (Res op) := call op done

@[simp] theorem pure_eq (value : α) : (pure value : Program Res α) = done value := rfl

@[simp] theorem done_bind (value : α) (next : α → Program Res β) :
    (done value : Program Res α) >>= next = next value := rfl

@[simp] theorem call_bind (op : Op) (rest : Res op → Program Res α) (next : α → Program Res β) :
    call op rest >>= next = call op fun reply => rest reply >>= next := rfl

@[simp] theorem perform_bind (op : Op) (next : Res op → Program Res β) :
    (perform op >>= next : Program Res β) = call op next := rfl

/-! ## Runs -/

section Run

variable (handler : (op : Op) → S → S × Res op)

def run : Program Res α → S → S × α
  | done value, state => (state, value)
  | call op next, state =>
    let (state, reply) := handler op state
    run (next reply) state

/-- The operations called, in order. -/
def calls : Program Res α → S → List Op
  | done _, _ => []
  | call op next, state =>
    let (state, reply) := handler op state
    op :: calls (next reply) state

@[simp] theorem run_done (value : α) (state : S) :
    (done value : Program Res α).run handler state = (state, value) := rfl

theorem run_call (op : Op) (next : Res op → Program Res α) (state : S) :
    (call op next).run handler state =
      (next (handler op state).2).run handler (handler op state).1 := rfl

theorem run_call_of {handler : (op : Op) → S → S × Res op} {op : Op} {next : Res op → Program Res α}
    {state after : S} {reply : Res op} (ran : handler op state = (after, reply)) :
    (call op next).run handler state = (next reply).run handler after := by
  rw [run_call, ran]

theorem run_bind (program : Program Res α) (next : α → Program Res β) (state : S) :
    (program >>= next).run handler state =
      (next (program.run handler state).2).run handler (program.run handler state).1 := by
  induction program generalizing state with
  | done value => rfl
  | call op rest ih => exact ih _ _

theorem run_bind_of {handler : (op : Op) → S → S × Res op} {program : Program Res α}
    {next : α → Program Res β} {state after : S} {value : α}
    (ran : program.run handler state = (after, value)) :
    (program >>= next).run handler state = (next value).run handler after := by
  rw [run_bind, ran]

def transcript : Program Res α → S → List ((op : Op) × Res op)
  | done _, _ => []
  | call op next, state =>
    let (state, reply) := handler op state
    ⟨op, reply⟩ :: transcript (next reply) state

@[simp] theorem transcript_done (value : α) (state : S) :
    (done value : Program Res α).transcript handler state = [] := rfl

theorem transcript_call_of {handler : (op : Op) → S → S × Res op} {op : Op}
    {next : Res op → Program Res α} {state after : S} {reply : Res op}
    (ran : handler op state = (after, reply)) :
    (call op next).transcript handler state = ⟨op, reply⟩ :: (next reply).transcript handler after := by
  rw [transcript, ran]

theorem calls_eq_transcript (program : Program Res α) (state : S) :
    program.calls handler state = (program.transcript handler state).map Sigma.fst := by
  induction program generalizing state with
  | done value => rfl
  | call op rest ih => exact congrArg (op :: ·) (ih _ _)

theorem transcript_bind_of {handler : (op : Op) → S → S × Res op} {program : Program Res α}
    {next : α → Program Res β} {state after : S} {value : α}
    (ran : program.run handler state = (after, value)) :
    (program >>= next).transcript handler state =
      program.transcript handler state ++ (next value).transcript handler after := by
  induction program generalizing state with
  | done result =>
    cases ran
    rfl
  | call op rest ih => exact congrArg (_ :: ·) (ih _ ran)

/-- A handler beside which a note is kept of every call and its reply. -/
def observe (note : (op : Op) → Res op → Γ → Γ) (op : Op) (state : S × Γ) : (S × Γ) × Res op :=
  let (next, reply) := handler op state.1
  ((next, note op reply state.2), reply)

theorem run_observe (note : (op : Op) → Res op → Γ → Γ) (program : Program Res α) (state : S)
    (noted : Γ) : program.run (observe handler note) (state, noted) =
      (((program.run handler state).1, (program.transcript handler state).foldl
        (fun noted entry => note entry.1 entry.2 noted) noted), (program.run handler state).2) := by
  induction program generalizing state noted with
  | done value => rfl
  | call op next ih => exact ih _ _ _

end Run

/-- A run whose calls and replies are among those of `calls`. -/
inductive Runs (calls : (op : Op) → S → S → Res op → Prop) :
    Program Res α → S → S → α → Prop
  | done (value : α) (state : S) : Runs calls (done value) state state value
  | call {op : Op} {rest : Res op → Program Res α} {state middle next : S} {reply : Res op}
      {value : α} : calls op state middle reply → Runs calls (rest reply) middle next value →
      Runs calls (call op rest) state next value

/-- All calls by a handler pass a test. -/
def passes (handler : (op : Op) → S → S × Res op) (test : Op → S → Bool) : Program Res α → S → Bool
  | done _, _ => true
  | call op next, state =>
    test op state && (next (handler op state).2).passes handler test (handler op state).1

theorem runs_of_passes {calls : (op : Op) → S → S → Res op → Prop} {test : Op → S → Bool}
    {handler : (op : Op) → S → S × Res op} (allowed : ∀ op state, test op state = true →
      calls op state (handler op state).1 (handler op state).2) {program : Program Res α} {state : S}
    (all : program.passes handler test state = true) :
    program.Runs calls state (program.run handler state).1 (program.run handler state).2 := by
  induction program generalizing state with
  | done value => exact .done value state
  | call op next ih =>
    rw [passes, Bool.and_eq_true] at all
    exact .call (allowed op state all.1) (ih _ all.2)

/-! ## Weakest preconditions -/

section Wp

/-- What an operation needs in a context so that every context and reply after it
satisfy a postcondition. -/
abbrev Spec (Res : Op → Type) (Γ : Type) := (op : Op) → Γ → (Γ → Res op → Prop) → Prop

def Spec.Monotone (spec : Spec Res Γ) : Prop :=
  ∀ op context first second, (∀ after reply, first after reply → second after reply) →
    spec op context first → spec op context second

variable (spec : Spec Res Γ)

def wp : Program Res α → Γ → (Γ → α → Prop) → Prop
  | done value, context, post => post context value
  | call op next, context, post =>
    spec op context fun after reply => wp (next reply) after post

theorem wp_bind (program : Program Res α) (next : α → Program Res β) (context : Γ)
    (post : Γ → β → Prop) :
    (program >>= next).wp spec context post ↔
      program.wp spec context fun after value => (next value).wp spec after post := by
  induction program generalizing context with
  | done value => exact Iff.rfl
  | call op rest ih =>
    have same : (fun after reply => ((rest reply) >>= next).wp spec after post) =
        fun after reply => (rest reply).wp spec after fun final value =>
          (next value).wp spec final post := by
      funext after reply
      exact propext (ih reply after)
    exact iff_of_eq (congrArg (spec op context) same)

theorem wp_mono {spec : Spec Res Γ} (monotone : spec.Monotone) {first second : Γ → α → Prop}
    (weaker : ∀ context value, first context value → second context value) :
    ∀ (program : Program Res α) (context : Γ),
      program.wp spec context first → program.wp spec context second := by
  intro program
  induction program with
  | done value => exact fun context => weaker context value
  | call op rest ih =>
    exact fun context => monotone op context _ _ fun after reply => ih reply after

/-- Calls that keep to the specification run programs to their postconditions. -/
theorem wp_runs {spec : Spec Res Γ} {calls : (op : Op) → S → S → Res op → Prop}
    {holds : Γ → S → Prop} (sound : ∀ op context state next reply post, holds context state →
      calls op state next reply → spec op context post → ∃ after, holds after next ∧ post after reply)
    {program : Program Res α} {state next : S} {value : α} {post : Γ → α → Prop}
    (runs : program.Runs calls state next value) (context : Γ) (here : holds context state)
    (needs : program.wp spec context post) : ∃ after, holds after next ∧ post after value := by
  induction runs generalizing context with
  | done value state => exact ⟨context, here, needs⟩
  | call called _ ih =>
    obtain ⟨after, there, needs⟩ := sound _ context _ _ _ _ here called needs
    exact ih after there needs

/-! ## What holds for all replies -/

section Always

variable (allowed : (op : Op) → Res op → Prop)

def answers : Spec Res Unit := fun op context post => ∀ reply, allowed op reply → post context reply

/-- The value has a property whatever the calls reply of what is allowed. -/
def Always (program : Program Res α) (post : α → Prop) : Prop :=
  program.wp (answers allowed) () fun _ => post

variable {allowed}

@[simp] theorem always_done {value : α} {post : α → Prop} :
    (done value : Program Res α).Always allowed post ↔ post value := Iff.rfl

@[simp] theorem always_call {op : Op} {rest : Res op → Program Res α} {post : α → Prop} :
    (call op rest).Always allowed post ↔ ∀ reply, allowed op reply → (rest reply).Always allowed post :=
  Iff.rfl

theorem always_bind {program : Program Res α} {next : α → Program Res β} {post : β → Prop} :
    (program >>= next).Always allowed post ↔
      program.Always allowed fun value => (next value).Always allowed post :=
  wp_bind _ program next () _

theorem Always.mono {program : Program Res α} {first second : α → Prop}
    (always : program.Always allowed first) (weaker : ∀ value, first value → second value) :
    program.Always allowed second := by
  induction program with
  | done value => exact weaker value always
  | call op rest ih => exact fun reply may => ih reply (always reply may)

theorem always_true (program : Program Res α) : program.Always allowed fun _ => True := by
  induction program with
  | done value => trivial
  | call op rest ih => exact fun reply _ => ih reply

theorem Always.runs {calls : (op : Op) → S → S → Res op → Prop} {holds : S → Prop}
    (sound : ∀ op state next reply, holds state → calls op state next reply →
      allowed op reply ∧ holds next) {program : Program Res α} {state next : S} {value : α}
    {post : α → Prop} (always : program.Always allowed post)
    (runs : program.Runs calls state next value) (here : holds state) : post value ∧ holds next := by
  obtain ⟨_, there, result⟩ := @wp_runs _ _ _ _ _ (answers allowed) calls (fun _ => holds)
    (fun op _ state next reply _ here called needs =>
      ⟨(), (sound op state next reply here called).2, needs reply (sound op state next reply here called).1⟩)
    program state next value (fun _ => post) runs () here always
  exact ⟨result, there⟩

end Always

end Wp

end Program
