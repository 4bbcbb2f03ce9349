import Mathlib

/-!
# Runs of a partial step function

A concurrent component is a state type, a label type naming who moves and how,
and a partial function `step`.  `Run step ok s trace t` says that the labels of
`trace`, each admitted by `ok` in the state it is taken from, lead from `s` to
`t`.  `exec` is the executable counterpart for `ok := fun _ _ => True`, and
`execWhen` the one for a decidable `ok`.
-/

set_option autoImplicit false

namespace TpccRunner.Lib

universe u v

section Runs
variable {σ : Type u} {α : Type v}

inductive Run (step : σ → α → Option σ) (ok : σ → α → Prop) (start : σ) :
    List α → σ → Prop where
  | nil : Run step ok start [] start
  | snoc {trace : List α} {before after : σ} {label : α}
      (earlier : Run step ok start trace before) (admitted : ok before label)
      (taken : step before label = some after) :
      Run step ok start (trace ++ [label]) after

def always (_ : σ) (_ : α) : Prop := True

def exec (step : σ → α → Option σ) : σ → List α → Option σ
  | state, [] => some state
  | state, label :: rest => (step state label).bind fun next => exec step next rest

def execWhen (step : σ → α → Option σ) (ok : σ → α → Prop)
    [∀ state label, Decidable (ok state label)] : σ → List α → Option σ
  | state, [] => some state
  | state, label :: rest =>
    if ok state label then
      (step state label).bind fun next => execWhen step ok next rest
    else none

variable {step : σ → α → Option σ} {ok : σ → α → Prop} {start final : σ} {trace : List α}

/-- The invariant rule: what holds at the start and is kept by every admitted
step holds after every run. -/
theorem Run.invariant (run : Run step ok start trace final) (Inv : σ → Prop)
    (initial : Inv start)
    (preserved : ∀ before label after, Inv before → ok before label →
      step before label = some after → Inv after) :
    Inv final := by
  induction run with
  | nil => exact initial
  | snoc _ admitted taken ih => exact preserved _ _ _ ih admitted taken

theorem Run.trans {middle : σ} {tail : List α} (first : Run step ok start trace middle)
    (second : Run step ok middle tail final) : Run step ok start (trace ++ tail) final := by
  induction second with
  | nil => simpa using first
  | snoc _ admitted taken ih =>
    rw [← List.append_assoc]
    exact .snoc ih admitted taken

theorem Run.single {label : α} (admitted : ok start label) (taken : step start label = some final) :
    Run step ok start [label] final := by
  simpa using Run.snoc Run.nil admitted taken

theorem Run.cons {label : α} {next : σ} (admitted : ok start label)
    (taken : step start label = some next) (rest : Run step ok next trace final) :
    Run step ok start (label :: trace) final := by
  simpa using (Run.single admitted taken).trans rest

/-- The simulation rule: when every admitted step is matched by some steps of
another system, so is every run. -/
theorem Run.simulate {σ' : Type u} {α' : Type v} {step' : σ' → α' → Option σ'}
    {ok' : σ' → α' → Prop} {start' : σ'} (run : Run step ok start trace final)
    (Rel : σ → σ' → Prop) (initial : Rel start start')
    (matched : ∀ before label after other, Rel before other → ok before label →
      step before label = some after →
        ∃ trace' other', Run step' ok' other trace' other' ∧ Rel after other') :
    ∃ trace' other, Run step' ok' start' trace' other ∧ Rel final other := by
  induction run with
  | nil => exact ⟨[], start', .nil, initial⟩
  | snoc _ admitted taken ih =>
    obtain ⟨trace', other, run', related⟩ := ih
    obtain ⟨more, other', steps, related'⟩ := matched _ _ _ _ related admitted taken
    exact ⟨trace' ++ more, other', run'.trans steps, related'⟩

theorem Run.of_exec (success : exec step start trace = some final) :
    Run step always start trace final := by
  induction trace generalizing start with
  | nil =>
    simp only [exec, Option.some.injEq] at success
    subst final
    exact .nil
  | cons label rest ih =>
    simp only [exec] at success
    obtain ⟨next, taken, restRun⟩ := Option.bind_eq_some_iff.mp success
    exact .cons trivial taken (ih restRun)

theorem Run.of_execWhen [∀ state label, Decidable (ok state label)]
    (success : execWhen step ok start trace = some final) : Run step ok start trace final := by
  induction trace generalizing start with
  | nil =>
    simp only [execWhen, Option.some.injEq] at success
    subst final
    exact .nil
  | cons label rest ih =>
    simp only [execWhen, Option.ite_none_right_eq_some] at success
    obtain ⟨admitted, success⟩ := success
    obtain ⟨next, taken, restRun⟩ := Option.bind_eq_some_iff.mp success
    exact .cons admitted taken (ih restRun)

end Runs

/-! ## States that change at one place -/

theorem update_congr {ι α β : Type*} [DecidableEq ι] (view : α → β) {f : ι → α} {place : ι}
    {value : α} (same : view value = view (f place)) (other : ι) :
    view (Function.update f place value other) = view (f other) := by
  by_cases here : other = place
  · rw [here, Function.update_self, same]
  · rw [Function.update_of_ne here]

theorem update_view {ι α β : Type*} [DecidableEq ι] (view : α → β) {f : ι → α} {place : ι}
    {value : α} {other : ι} :
    view (Function.update f place value other) =
      if other = place then view value else view (f other) := by
  rw [Function.update_apply, apply_ite view]

end TpccRunner.Lib
