import Mathlib

/-!
# Reads and writes

What a transaction does to a map from keys to values, as seen from outside, is its list of
reads (with the values they returned) and writes.
-/

set_option autoImplicit false

namespace TpccRunner.Lib

inductive Event (K V : Type) where
  | read (key : K) (value : V)
  | write (key : K) (value : V)
  deriving DecidableEq

/-- A transaction by the values that it read from a map and those that it leaves there. -/
structure Summary (K V : Type) where
  reads : List (K × V)
  writes : K → Option V

def Summary.apply {K V : Type} (tx : Summary K V) (m : K → V) (key : K) : V :=
  (tx.writes key).getD (m key)

def Serial {K V : Type} : (K → V) → List (Summary K V) → (K → V) → Prop
  | m, [], final => final = m
  | m, tx :: rest, final => (∀ read ∈ tx.reads, m read.1 = read.2) ∧ Serial (tx.apply m) rest final

theorem Serial.snoc {K V : Type} {first m : K → V} {log : List (Summary K V)} {tx : Summary K V}
    (serial : Serial first log m) (reads : ∀ read ∈ tx.reads, m read.1 = read.2) :
    Serial first (log ++ [tx]) (tx.apply m) := by
  induction log generalizing first with
  | nil =>
    cases serial
    exact ⟨reads, rfl⟩
  | cons one rest ih => exact ⟨serial.1, ih serial.2⟩

end TpccRunner.Lib
