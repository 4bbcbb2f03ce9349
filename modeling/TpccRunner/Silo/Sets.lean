import TpccRunner.Silo.System

/-!
# The sets of a transaction and the values they point to

A value is made for one key.  It is a placeholder of the transaction that made it, then
live, then marked by a transaction that takes it out of the index, then dead.  `Points` says
what an element of a read/write set knows about its value: where it is in that life, and
which lock its transaction has taken.
-/

set_option autoImplicit false

namespace TpccRunner.Silo

open Lib Masstree

variable {I K R : Type}

inductive Life (I : Type) where
  | fresh (i : I)
  | live
  | dying (i : I)
  | dead

namespace Tx

section MoveTo
variable (tx : Tx K R) (phase : Phase K R)

@[simp] theorem moveTo_phase : (tx.moveTo phase).phase = phase := rfl
@[simp] theorem moveTo_rws : (tx.moveTo phase).rws = tx.rws := rfl
@[simp] theorem moveTo_touched : (tx.moveTo phase).touched = tx.touched := rfl
@[simp] theorem moveTo_ws : (tx.moveTo phase).ws = tx.ws := rfl
@[simp] theorem moveTo_serial : (tx.moveTo phase).serial = tx.serial := rfl
@[simp] theorem moveTo_log : (tx.moveTo phase).log = tx.log := rfl

end MoveTo

/-- The keys that phase 1 has locked and found usable, until they are written. -/
def secured (tx : Tx K R) : List K :=
  match tx.phase with
  | .locking locked _ _ => locked
  | .validating _ _ _ | .verifying _ _ _ => tx.ws
  | .writing _ _ rest | .removing _ _ _ rest => rest
  | _ => []

def held (tx : Tx K R) : List K :=
  match tx.phase with
  | .unlocking rest => rest
  | _ => tx.secured

/-- Neither phase 3 nor `abort` has dealt with the key. -/
def Unsettled (tx : Tx K R) (key : K) : Prop :=
  match tx.phase with
  | .writing _ _ rest | .removing _ _ _ rest | .aborting rest | .retired _ rest => key ∈ rest
  | .committed | .aborted => False
  | _ => True

def unlinking (tx : Tx K R) : Option K :=
  match tx.phase with
  | .removing _ _ key _ | .retired key _ => some key
  | _ => none

def Refers (tx : Tx K R) (key : K) (val : Nat) : Prop :=
  match tx.phase with
  | .found _ key' val' => key = key' ∧ val = val' ∧ tx.rws key = none
  | .scanning _ _ _ _ listed => (key, val) ∈ listed
  | .visiting _ _ _ rest _ => (key, val) ∈ rest
  | _ => False

def Listed (tx : Tx K R) : Prop :=
  match tx.phase with
  | .missing _ key => tx.rws key = none
  | .locking locked rest _ => tx.ws = locked ++ rest
  | .validating _ _ rest => ∀ key ∈ rest, key ∈ tx.touched
  | .writing _ _ rest => rest <:+ tx.ws
  | .removing _ _ key rest => key :: rest <:+ tx.ws
  | .unlocking rest => rest.Sublist tx.ws
  | .aborting rest => rest <:+ tx.ws
  | .retired key rest => key :: rest <:+ tx.ws
  | _ => True

def Early (tx : Tx K R) : Prop :=
  match tx.phase with
  | .running | .found _ _ _ | .missing _ _ | .scanning _ _ _ _ _ | .visiting _ _ _ _ _ => True
  | _ => False

structure Proper (tx : Tx K R) : Prop where
  nodup : tx.ws.Nodup
  written : ∀ key, key ∈ tx.ws ↔ ∃ element, tx.rws key = some element ∧ element.rwt ≠ .read
  touched : ∀ key, key ∈ tx.touched ↔ (tx.rws key).isSome
  listed : tx.Listed

/-- The transaction goes on within `precommit` or `abort`, and has no more to do with the key
than before. -/
structure Narrows (tx tx' : Tx K R) (key : K) : Prop where
  unsettled : tx'.Unsettled key → tx.Unsettled key
  secured : key ∈ tx'.secured → key ∈ tx.secured
  held : key ∈ tx'.held → key ∈ tx.held
  unlinking : tx'.unlinking = some key → tx.unlinking = some key
  refers : ∀ val, ¬ tx'.Refers key val

section Phases
variable {tx : Tx K R} {key : K}

theorem mem_held_of_secured (member : key ∈ tx.secured) : key ∈ tx.held := by
  unfold held
  split
  · rename_i unlocking
    simp [secured, unlocking] at member
  · exact member

theorem Proper.element_of_ws (proper : tx.Proper) (member : key ∈ tx.ws) :
    ∃ element, tx.rws key = some element ∧ element.rwt ≠ .read :=
  (proper.written key).mp member

theorem Early.secured_eq (early : tx.Early) : tx.secured = [] := by
  unfold Early at early
  cases phase : tx.phase <;> simp only [phase] at early <;> simp [secured, phase]

theorem Early.held_eq (early : tx.Early) : tx.held = [] := by
  unfold Early at early
  cases phase : tx.phase <;> simp only [phase] at early <;> simp [held, secured, phase]

theorem Early.unlinking_eq (early : tx.Early) : tx.unlinking = none := by
  unfold Early at early
  cases phase : tx.phase <;> simp only [phase] at early <;> simp [unlinking, phase]

theorem Early.unsettled (early : tx.Early) : tx.Unsettled key := by
  unfold Early at early
  cases phase : tx.phase <;> simp only [phase] at early <;> simp [Unsettled, phase]

end Phases

end Tx

/-- What the element of `key` in the set of `i` knows about its value `v`, whose key and
life are `place`. -/
structure Points (v : Value R) (place : Option (K × Life I)) (i : I) (tx : Tx K R) (key : K)
    (element : ReadWriteElement R) : Prop where
  placed : ∃ life, place = some (key, life) ∧ ∀ j, life = .fresh j → j = i ∧ element.isNew = true
  created : element.isNew = true → tx.Unsettled key → place = some (key, .fresh i)
  usable : key ∈ tx.secured → element.isNew = true ∨ v.tidword.isReadable = true
  locked : key ∈ tx.held → v.tidword.lock = true
  unlinks : tx.unlinking = some key → place = some (key, .dying i)

namespace Points

variable {v v' : Value R} {place : Option (K × Life I)} {i j : I} {tx : Tx K R} {key : K}
  {element : ReadWriteElement R}

theorem of_early (early : tx.Early)
    (placed : ∃ life, place = some (key, life) ∧
      ∀ j, life = .fresh j → j = i ∧ element.isNew = true)
    (created : element.isNew = true → place = some (key, .fresh i)) :
    Points v place i tx key element where
  placed := placed
  created isNew _ := created isNew
  usable member := by simp [early.secured_eq] at member
  locked member := by simp [early.held_eq] at member
  unlinks unlinking := by simp [early.unlinking_eq] at unlinking

theorem narrow (points : Points v place i tx key element) {tx' : Tx K R}
    (narrows : tx.Narrows tx' key) : Points v place i tx' key element where
  placed := points.placed
  created isNew here := points.created isNew (narrows.unsettled here)
  usable member := points.usable (narrows.secured member)
  locked member := points.locked (narrows.held member)
  unlinks here := points.unlinks (narrows.unlinking here)

theorem lock (points : Points v place i tx key element) :
    Points { v with tidword := { v.tidword with lock := true } } place i tx key element where
  placed := points.placed
  created := points.created
  usable := points.usable
  locked _ := rfl
  unlinks := points.unlinks

theorem of_not_held (points : Points v place i tx key element) (notHeld : key ∉ tx.held) :
    Points v' place i tx key element where
  placed := points.placed
  created := points.created
  usable member := absurd (Tx.mem_held_of_secured member) notHeld
  locked member := absurd member notHeld
  unlinks := points.unlinks

theorem of_moved (points : Points v place i tx key element) {life life' : Life I} {key' : K}
    (from' : place = some (key', life)) (notFresh : life ≠ .fresh i) (notDying : life ≠ .dying i)
    (moved : ∀ j, life' ≠ .fresh j) : Points v (some (key', life')) i tx key element := by
  obtain ⟨life₀, here, -⟩ := points.placed
  obtain ⟨rfl, rfl⟩ := Prod.mk.inj (Option.some.inj (from'.symm.trans here))
  exact {
    placed := ⟨life', rfl, fun j fresh => absurd fresh (moved j)⟩
    created := fun isNew unsettled => by
      have fresh := points.created isNew unsettled
      rw [from'] at fresh
      exact absurd (Prod.mk.inj (Option.some.inj fresh)).2 notFresh
    usable := points.usable
    locked := points.locked
    unlinks := fun unlinking => by
      have dying := points.unlinks unlinking
      rw [from'] at dying
      exact absurd (Prod.mk.inj (Option.some.inj dying)).2 notDying }

end Points

end TpccRunner.Silo
