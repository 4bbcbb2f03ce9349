import TpccRunner.Common.EpochSafety

/-!
# Protocols over the epoch manager

Silo and NoWait run their transactions over one heap and one epoch manager.  What a
transaction does between `begin_tx` and its destructor, and what is kept in the values
besides the pointers, is up to the protocol.
-/

set_option autoImplicit false

namespace TpccRunner.Epoch

open Lib

variable {n : Nat} {Slot Shared Tx Action : Type}

structure Clients (n : Nat) (Slot Shared Tx : Type) where
  heap : Heap n Slot
  shared : Shared
  tx : Fin n → Tx

inductive ClientLabel (n : Nat) (Action : Type) where
  | manage (label : Label n)
  | act (worker : Fin n) (action : Action)

namespace Clients

def setTx (clients : Clients n Slot Shared Tx) (worker : Fin n) (tx : Tx) :
    Clients n Slot Shared Tx :=
  { clients with tx := Function.update clients.tx worker tx }

def whenRunning (running : Tx → Bool) (clients : Clients n Slot Shared Tx) (worker : Fin n)
    (next : Option (Clients n Slot Shared Tx)) : Option (Clients n Slot Shared Tx) :=
  if running (clients.tx worker) ∧ clients.heap.pointers.stamp worker ≠ none then next else none

def onHeap [DecidableEq Slot] (clients : Clients n Slot Shared Tx) (label : HeapLabel n Slot) :
    Option (Clients n Slot Shared Tx) :=
  (clients.heap.step label).map fun heap => { clients with heap }

def step [DecidableEq Slot]
    (act : Clients n Slot Shared Tx → Fin n → Action → Option (Clients n Slot Shared Tx))
    (clients : Clients n Slot Shared Tx) :
    ClientLabel n Action → Option (Clients n Slot Shared Tx)
  | .manage label => clients.onHeap (.manage label)
  | .act worker action => act clients worker action

def Regular (clients : Clients n Slot Shared Tx) : ClientLabel n Action → Prop
  | .manage label => Epoch.Regular clients.heap.epochs label
  | .act _ _ => True

instance (clients : Clients n Slot Shared Tx) (label : ClientLabel n Action) :
    Decidable (clients.Regular label) :=
  match label with
  | .manage label => inferInstanceAs (Decidable (Epoch.Regular clients.heap.epochs label))
  | .act _ _ => .isTrue trivial

/-- `covering` is the protocol's condition on the values it takes out of the index. -/
def Timely (covering : Clients n Slot Shared Tx → Fin n → Action → Prop)
    (clients : Clients n Slot Shared Tx) : ClientLabel n Action → Prop
  | .manage label => Epoch.Regular clients.heap.epochs label
  | .act worker action => covering clients worker action

instance (covering : Clients n Slot Shared Tx → Fin n → Action → Prop)
    [∀ clients worker action, Decidable (covering clients worker action)]
    (clients : Clients n Slot Shared Tx) (label : ClientLabel n Action) :
    Decidable (clients.Timely covering label) :=
  match label with
  | .manage label => inferInstanceAs (Decidable (Epoch.Regular clients.heap.epochs label))
  | .act worker action => inferInstanceAs (Decidable (covering clients worker action))

variable {before after : Clients n Slot Shared Tx} {worker : Fin n}

theorem whenRunning_eq_some {running : Tx → Bool} {next : Option (Clients n Slot Shared Tx)}
    (taken : before.whenRunning running worker next = some after) :
    running (before.tx worker) ∧ before.heap.pointers.stamp worker ≠ none ∧
      next = some after := by
  simpa only [whenRunning, Option.ite_none_right_eq_some, and_assoc] using taken

end Clients

end TpccRunner.Epoch
