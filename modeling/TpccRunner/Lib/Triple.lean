import Mathlib

/-!
# Triples for programs that can stop early

A program over a state `σ` returns a value or stops with an exit code, and keeps the state
in both cases, as a C++ function with early returns does.  `Triple pre m post exit` says
what holds after either.  Programs are total, so a triple is total correctness.
-/

set_option autoImplicit false

namespace TpccRunner.Lib

abbrev Program (σ ε α : Type) := ExceptT ε (StateM σ) α

variable {σ ε α β : Type}

def Program.result (m : Program σ ε α) (s : σ) : Except ε α × σ := (m.run).run s

namespace Program

@[simp] theorem result_pure (value : α) (s : σ) :
    (pure value : Program σ ε α).result s = (.ok value, s) := rfl

@[simp] theorem result_throw (code : ε) (s : σ) :
    (throw code : Program σ ε α).result s = (.error code, s) := rfl

@[simp] theorem result_get (s : σ) : (get : Program σ ε σ).result s = (.ok s, s) := rfl

@[simp] theorem result_modify (change : σ → σ) (s : σ) :
    (modify change : Program σ ε Unit).result s = (.ok (), change s) := rfl

@[simp] theorem result_bind (m : Program σ ε α) (next : α → Program σ ε β) (s : σ) :
    (m >>= next).result s = match m.result s with
      | (.ok value, after) => (next value).result after
      | (.error code, after) => (.error code, after) := by
  unfold result
  rw [ExceptT.run_bind, StateT.run_bind]
  cases result : StateT.run m.run s with
  | mk outcome after =>
    cases outcome with
    | ok value => rfl
    | error code => rfl

end Program

def Triple (pre : σ → Prop) (m : Program σ ε α) (post : α → σ → Prop) (exit : ε → σ → Prop) :
    Prop :=
  ∀ s, pre s → match m.result s with
    | (.ok value, after) => post value after
    | (.error code, after) => exit code after

namespace Triple

variable {pre : σ → Prop} {post : α → σ → Prop} {exit : ε → σ → Prop} {m : Program σ ε α}

theorem conseq {pre' : σ → Prop} {post' : α → σ → Prop} {exit' : ε → σ → Prop}
    (triple : Triple pre m post exit) (before : ∀ s, pre' s → pre s)
    (after : ∀ value s, post value s → post' value s)
    (stopped : ∀ code s, exit code s → exit' code s) : Triple pre' m post' exit' := by
  intro s holds
  have result := triple s (before s holds)
  split at result
  · exact after _ _ result
  · exact stopped _ _ result

theorem pre_of {pre' : σ → Prop} (triple : Triple pre m post exit)
    (before : ∀ s, pre' s → pre s) : Triple pre' m post exit :=
  triple.conseq before (fun _ _ holds => holds) fun _ _ holds => holds

theorem and {pre' : σ → Prop} {post' : α → σ → Prop} {exit' : ε → σ → Prop}
    (first : Triple pre m post exit) (second : Triple pre' m post' exit') :
    Triple (fun s => pre s ∧ pre' s) m (fun value s => post value s ∧ post' value s)
      (fun code s => exit code s ∧ exit' code s) := by
  rintro s ⟨holds, holds'⟩
  have one := first s holds
  have two := second s holds'
  rcases result : m.result s with ⟨outcome, after⟩
  rw [result] at one two
  cases outcome with
  | ok value => exact ⟨one, two⟩
  | error code => exact ⟨one, two⟩

theorem pure {value : α} (holds : ∀ s, pre s → post value s) :
    Triple pre (Pure.pure value : Program σ ε α) post exit := holds

theorem throw {code : ε} (holds : ∀ s, pre s → exit code s) :
    Triple pre (MonadExcept.throw code : Program σ ε α) post exit := holds

theorem bind {next : α → Program σ ε β} {middle : α → σ → Prop} {final : β → σ → Prop}
    (first : Triple pre m middle exit)
    (second : ∀ value, Triple (middle value) (next value) final exit) :
    Triple pre (m >>= next) final exit := by
  intro s holds
  have result := first s holds
  rw [Program.result_bind]
  split at result
  · rename_i value after _
    exact second value after result
  · exact result

theorem of_fact {fact : Prop} (triple : fact → Triple pre m post exit) :
    Triple (fun s => fact ∧ pre s) m post exit := fun s holds => triple holds.1 s holds.2

theorem of_exists {γ : Type} {pre : γ → σ → Prop}
    (triple : ∀ choice, Triple (pre choice) m post exit) :
    Triple (fun s => ∃ choice, pre choice s) m post exit :=
  fun s ⟨choice, holds⟩ => triple choice s holds

theorem bind_get {next : σ → Program σ ε β} {final : β → σ → Prop}
    (triple : ∀ s, pre s → Triple (fun now => now = s) (next s) final exit) :
    Triple pre (get >>= next) final exit := by
  intro s holds
  rw [Program.result_bind, Program.result_get]
  exact triple s holds s rfl

theorem forM {items : List β} {body : β → Program σ ε PUnit}
    (inv : List β → List β → σ → Prop)
    (turn : ∀ done item rest, items = done ++ item :: rest →
      Triple (inv done (item :: rest)) (body item) (fun _ => inv (done ++ [item]) rest) exit) :
    Triple (inv [] items) (items.forM body) (fun _ => inv items []) exit := by
  suffices loop : ∀ rest done, items = done ++ rest →
      Triple (inv done rest) (rest.forM body) (fun _ => inv items []) exit from loop items [] rfl
  intro rest
  induction rest with
  | nil =>
    intro done split
    rw [List.append_nil] at split
    subst split
    exact pure fun _ holds => holds
  | cons item rest ih =>
    intro done split
    exact (turn done item rest split).bind fun _ => ih (done ++ [item]) (by simp [split])

theorem forM_keeps {items : List β} {body : β → Program σ ε PUnit}
    (turn : ∀ item ∈ items, Triple pre (body item) (fun _ => pre) exit) :
    Triple pre (items.forM body) (fun _ => pre) exit :=
  forM (fun _ _ => pre) fun _ item _ split => turn item (by simp [split])

theorem foldlM {γ : Type} {items : List β} {body : γ → β → Program σ ε γ} {initial : γ}
    (inv : List β → γ → σ → Prop)
    (turn : ∀ done item rest acc, items = done ++ item :: rest →
      Triple (inv done acc) (body acc item) (fun acc => inv (done ++ [item]) acc) exit) :
    Triple (inv [] initial) (items.foldlM body initial) (inv items) exit := by
  suffices loop : ∀ rest done acc, items = done ++ rest →
      Triple (inv done acc) (rest.foldlM body acc) (inv items) exit from loop items [] initial rfl
  intro rest
  induction rest with
  | nil =>
    intro done acc split
    rw [List.append_nil] at split
    subst split
    exact pure fun _ holds => holds
  | cons item rest ih =>
    intro done acc split
    exact (turn done item rest acc split).bind fun next =>
      ih (done ++ [item]) next (by simp [split])

end Triple

end TpccRunner.Lib
