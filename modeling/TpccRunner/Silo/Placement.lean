import TpccRunner.Silo.Moves

/-!
# Values, their places and their locks

`Placed` is what holds of the index, the values and the sets of all transactions, whatever
the tids are: a value is readable while it is live, an unmarked one can be found, and the
locked values of a transaction are its own.
-/

set_option autoImplicit false

namespace TpccRunner.Silo

open Lib Masstree

variable {I K R : Type}

/-! ## Operations and sets -/

section Sets
variable {op : Operation} {key : K} {val : Nat} {value : Value R} {fresh : R}
  {element : ReadWriteElement R} {outcome : Outcome K R} {tx : Tx K R}

structure ReadWriteElement.SameRead (element other : ReadWriteElement R) : Prop where
  tw : other.tw = element.tw
  val : other.val = element.val
  isNew : other.isNew = element.isNew
  seen : other.seen = element.seen
  base : other.base = element.base

theorem ReadWriteElement.SameRead.refl (element : ReadWriteElement R) : element.SameRead element :=
  ⟨rfl, rfl, rfl, rfl, rfl⟩

theorem perform_sameRead {current : Option R}
    (done : element.perform op key current fresh = some outcome) :
    element.SameRead outcome.element := by
  unfold ReadWriteElement.perform at done
  split at done <;> cases done <;> exact ⟨rfl, rfl, rfl, rfl, rfl⟩

theorem perform_pushed {current : Option R}
    (done : element.perform op key current fresh = some outcome) :
    (outcome.pushed = true ↔ element.rwt = .read ∧ outcome.element.rwt ≠ .read) ∧
      (element.rwt ≠ .read → outcome.element.rwt ≠ .read) := by
  unfold ReadWriteElement.perform at done
  split at done <;> cases done <;> simp_all

structure Value.FirstRead (value : Value R) (val : Nat) (element : ReadWriteElement R) : Prop where
  readable : value.tidword.isReadable = true
  tw : element.tw = value.tidword
  val : element.val = val
  isNew : element.isNew = false
  seen : element.seen = value.writer
  base : element.base = value.record

theorem access_firstRead (done : value.access op key val = some outcome) :
    value.FirstRead val outcome.element ∧
      (outcome.pushed = true ↔ outcome.element.rwt ≠ .read) := by
  unfold Value.access at done
  dsimp only at done
  split at done
  · rename_i readable
    split at done <;> cases done <;> exact ⟨⟨readable, rfl, rfl, rfl, rfl, rfl⟩, by simp⟩
  · cases done

theorem Tx.access_cases (done : tx.access op key val value fresh = some outcome) :
    (tx.rws key = none ∧ value.FirstRead val outcome.element ∧
        (outcome.pushed = true ↔ outcome.element.rwt ≠ .read)) ∨
      ∃ element, tx.rws key = some element ∧ value.tidword = element.tw ∧
        element.perform op key value.record fresh = some outcome := by
  unfold Tx.access at done
  split at done
  · rename_i absent
    exact .inl ⟨absent, access_firstRead done⟩
  · rename_i element own
    obtain ⟨unchanged, done⟩ := Option.ite_none_right_eq_some.mp done
    exact .inr ⟨element, own, unchanged, done⟩

theorem Tx.Proper.not_mem_ws (proper : tx.Proper) (absent : tx.rws key = none) :
    key ∉ tx.ws := by
  intro member
  obtain ⟨element, own, -⟩ := proper.element_of_ws member
  simp [absent] at own

theorem Tx.Proper.mem_ws_iff (proper : tx.Proper) (own : tx.rws key = some element) :
    key ∈ tx.ws ↔ element.rwt ≠ .read := by
  rw [proper.written]
  simp [own]

variable [LinearOrder K]

theorem Tx.Proper.settle (proper : tx.Proper)
    (pushed : outcome.pushed = true ↔ key ∉ tx.ws ∧ outcome.element.rwt ≠ .read)
    (kept : key ∈ tx.ws → outcome.element.rwt ≠ .read) {tx' : Tx K R}
    (rws : tx'.rws = (tx.settle key outcome).rws)
    (touched : tx'.touched = (tx.settle key outcome).touched)
    (ws : tx'.ws = (tx.settle key outcome).ws) (listed : tx'.Listed) : tx'.Proper where
  nodup := by
    rw [ws]
    simp only [Tx.settle]
    split
    · rename_i new
      refine List.nodup_append.mpr ⟨proper.nodup, List.nodup_singleton _, ?_⟩
      rintro other member _ last rfl
      rw [List.mem_singleton.mp last] at member
      exact (pushed.mp new).1 member
    · exact proper.nodup
  written other := by
    rw [ws, rws]
    simp only [Tx.settle]
    by_cases same : other = key
    · subst same
      simp only [Function.update_self, Option.some.injEq, exists_eq_left']
      constructor
      · intro member
        by_cases old : other ∈ tx.ws
        · exact kept old
        · split at member
          · rename_i new
            exact (pushed.mp new).2
          · exact absurd member old
      · intro write
        by_cases old : other ∈ tx.ws
        · split
          · exact List.mem_append_left _ old
          · exact old
        · rw [if_pos (pushed.mpr ⟨old, write⟩)]
          simp
    · rw [Function.update_of_ne same, ← proper.written other]
      split
      · simp [same]
      · rfl
  touched other := by
    rw [touched, rws]
    simp only [Tx.settle]
    by_cases same : other = key
    · subst same
      split <;> simp_all
    · rw [Function.update_of_ne same, ← proper.touched other]
      split
      · rfl
      · simp [same]
  listed := listed

theorem Tx.Proper.access (proper : tx.Proper)
    (done : tx.access op key val value fresh = some outcome) {tx' : Tx K R}
    (rws : tx'.rws = (tx.settle key outcome).rws)
    (touched : tx'.touched = (tx.settle key outcome).touched)
    (ws : tx'.ws = (tx.settle key outcome).ws) (listed : tx'.Listed) : tx'.Proper := by
  obtain ⟨absent, -, pushed⟩ | ⟨element, own, -, done⟩ := Tx.access_cases done
  · have new := proper.not_mem_ws absent
    refine proper.settle ?_ (fun member => absurd member new) rws touched ws listed
    simp [pushed, new]
  · obtain ⟨pushed, kept⟩ := perform_pushed done
    refine proper.settle ?_ (fun member => kept ((proper.mem_ws_iff own).mp member)) rws touched
      ws listed
    rw [pushed, proper.mem_ws_iff own, not_not]

theorem unlockWriteset_append {locked rest : List K} (absent : key ∉ locked) :
    unlockWriteset (some key) (locked ++ key :: rest) = locked ++ [key] := by
  induction locked with
  | nil => simp [unlockWriteset]
  | cons first locked ih =>
    rw [List.mem_cons, not_or] at absent
    obtain ⟨different, absent⟩ := absent
    simp [unlockWriteset, Ne.symm different, ih absent]

theorem unlockWriteset_none (ws : List K) : unlockWriteset none ws = ws := by
  induction ws with
  | nil => rfl
  | cons first rest ih => simp [unlockWriteset, ih]

end Sets

/-! ## The invariant -/

variable [LinearOrder K]

structure Placed (state : State I K R) (place : Nat → Option (K × Life I)) : Prop where
  allocated : ∀ val entry, place val = some entry → val < state.nextVal
  find : ∀ key val, state.index.find key = some val ↔
    ∃ life, place val = some (key, life) ∧ life ≠ .dead
  readable : ∀ key val life, place val = some (key, life) →
    ((state.value val).tidword.isReadable = true ↔ life = .live)
  proper : ∀ i, (state.tx i).Proper
  points : ∀ i key element, (state.tx i).rws key = some element →
    Points (state.value element.val) (place element.val) i (state.tx i) key element
  refers : ∀ i key val, (state.tx i).Refers key val → ∃ life, place val = some (key, life)
  exclusive : ∀ i j key element element', key ∈ (state.tx i).held → key ∈ (state.tx j).held →
    (state.tx i).rws key = some element → (state.tx j).rws key = some element' →
      element.val = element'.val → i = j

namespace Placed

variable {state after : State I K R} {place place' : Nat → Option (K × Life I)} {i j : I}
  {key key' : K} {element element' : ReadWriteElement R} {tx' : Tx K R}

theorem key_eq (placed : Placed state place) (own : (state.tx i).rws key = some element)
    (other : (state.tx j).rws key' = some element') (same : element.val = element'.val) :
    key = key' := by
  obtain ⟨life, here, -⟩ := (placed.points i key element own).placed
  obtain ⟨life', there, -⟩ := (placed.points j key' element' other).placed
  rw [same, there] at here
  exact (Prod.mk.inj (Option.some.inj here)).1.symm

theorem fresh_of_writing (placed : Placed state place) {epoch tid : Nat} {rest : List K}
    (writing : (state.tx i).phase = .writing epoch tid (key :: rest)) : key ∉ rest := by
  have listed := (placed.proper i).listed
  simp only [Tx.Listed, writing] at listed
  exact (List.nodup_cons.mp (listed.sublist.nodup (placed.proper i).nodup)).1

/-- The value that a transaction has secured is the one in the index. -/
theorem life_of_secured (placed : Placed state place) (own : (state.tx i).rws key = some element)
    (secured : key ∈ (state.tx i).secured) (unsettled : (state.tx i).Unsettled key) :
    place element.val = some (key, .live) ∨
      element.isNew = true ∧ place element.val = some (key, .fresh i) := by
  have points := placed.points i key element own
  obtain isNew | readable := points.usable secured
  · exact .inr ⟨isNew, points.created isNew unsettled⟩
  · obtain ⟨life, here, -⟩ := points.placed
    rw [here, (placed.readable key _ life here).mp readable]
    exact .inl rfl

variable [DecidableEq I]

/-- A step of `i`, from what it does to the values, to its own sets and to those of the
others. -/
theorem update (placed : Placed state place) (tx : after.tx = Function.update state.tx i tx')
    (allocated : ∀ val entry, place' val = some entry → val < after.nextVal)
    (find : ∀ key val, after.index.find key = some val ↔
      ∃ life, place' val = some (key, life) ∧ life ≠ .dead)
    (readable : ∀ key val life, place' val = some (key, life) →
      ((after.value val).tidword.isReadable = true ↔ life = .live))
    (kept : ∀ val key life, place val = some (key, life) → ∃ life', place' val = some (key, life'))
    (proper : tx'.Proper)
    (points : ∀ key element, tx'.rws key = some element →
      Points (after.value element.val) (place' element.val) i tx' key element)
    (refers : ∀ key val, tx'.Refers key val → ∃ life, place' val = some (key, life))
    (others : ∀ j ≠ i, ∀ key element, (state.tx j).rws key = some element →
      Points (after.value element.val) (place' element.val) j (state.tx j) key element)
    (exclusive : ∀ j ≠ i, ∀ key element element', key ∈ tx'.held → key ∈ (state.tx j).held →
      tx'.rws key = some element → (state.tx j).rws key = some element' →
        element.val ≠ element'.val) : Placed after place' where
  allocated := allocated
  find := find
  readable := readable
  proper j := by
    rw [tx]
    by_cases same : j = i
    · subst same
      rwa [Function.update_self]
    · rw [Function.update_of_ne same]
      exact placed.proper j
  points j key element own := by
    rw [tx] at own ⊢
    by_cases same : j = i
    · subst same
      rw [Function.update_self] at own ⊢
      exact points key element own
    · rw [Function.update_of_ne same] at own ⊢
      exact others j same key element own
  refers j key val found := by
    rw [tx] at found
    by_cases same : j = i
    · subst same
      rw [Function.update_self] at found
      exact refers key val found
    · rw [Function.update_of_ne same] at found
      obtain ⟨life, here⟩ := placed.refers j key val found
      exact kept val key life here
  exclusive j k key element element' := by
    rw [tx]
    intro held held' own own' same
    by_cases first : j = i
    · subst first
      rw [Function.update_self] at held own
      by_cases second : k = j
      · exact second.symm
      · rw [Function.update_of_ne second] at held' own'
        exact absurd same (exclusive k second key element element' held held' own own')
    · rw [Function.update_of_ne first] at held own
      by_cases second : k = i
      · subst second
        rw [Function.update_self] at held' own'
        exact absurd same.symm (exclusive j first key element' element held' held own' own)
      · rw [Function.update_of_ne second] at held' own'
        exact placed.exclusive j k key element element' held held' own own' same

theorem local' (placed : Placed state place) (tx : after.tx = Function.update state.tx i tx')
    (index : after.index = state.index) (value : after.value = state.value)
    (nextVal : after.nextVal = state.nextVal) (proper : tx'.Proper)
    (points : ∀ key element, tx'.rws key = some element →
      Points (state.value element.val) (place element.val) i tx' key element)
    (refers : ∀ key val, tx'.Refers key val → ∃ life, place val = some (key, life))
    (held : ∀ key ∈ tx'.held, key ∈ (state.tx i).held ∧ tx'.rws key = (state.tx i).rws key) :
    Placed after place := by
  refine placed.update tx ?_ ?_ ?_ (fun val key life here => ⟨life, here⟩) proper ?_ refers ?_ ?_
  · rw [nextVal]
    exact placed.allocated
  · rw [index]
    exact placed.find
  · rw [value]
    exact placed.readable
  · rw [value]
    exact points
  · rw [value]
    exact fun j _ key element own => placed.points j key element own
  · intro j different key element element' member member' own own' same
    obtain ⟨old, equal⟩ := held key member
    rw [equal] at own
    exact different (placed.exclusive i j key element element' old member' own own' same).symm

theorem goOn (placed : Placed state place) (tx : after.tx = Function.update state.tx i tx')
    (index : after.index = state.index) (value : after.value = state.value)
    (nextVal : after.nextVal = state.nextVal) (proper : tx'.Proper)
    (rws : tx'.rws = (state.tx i).rws) (narrows : ∀ key, (state.tx i).Narrows tx' key) :
    Placed after place := by
  refine placed.local' tx index value nextVal proper (fun key element own => ?_)
    (fun key val found => absurd found ((narrows key).refers val))
    fun key member => ⟨(narrows key).held member, by rw [rws]⟩
  rw [rws] at own
  exact (placed.points i key element own).narrow (narrows key)

theorem setPhase (placed : Placed state place) {phase : Phase K R}
    (listed : ((state.tx i).moveTo phase).Listed)
    (narrows : ∀ key, (state.tx i).Narrows ((state.tx i).moveTo phase) key) :
    Placed (state.setPhase i phase) place := by
  have proper := placed.proper i
  exact placed.goOn rfl rfl rfl rfl ⟨proper.nodup, proper.written, proper.touched, listed⟩ rfl
    narrows

end Placed

end TpccRunner.Silo
