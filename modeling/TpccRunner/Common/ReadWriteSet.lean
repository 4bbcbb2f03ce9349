/-!
# Elements of read and write sets

`enum ReadWriteType` and the parts of `ReadWriteElement` (`readwriteset.hpp` of the
protocols) that say what `precommit` and `abort` do with an element's `Value`.
-/

set_option autoImplicit false

namespace TpccRunner

inductive ReadWriteType where
  | read
  | update
  | insert
  | delete
  deriving DecidableEq, Repr

/-- The element of `key`: `val` points to its `Value`, and `isNew` says that the
transaction has put this `Value` into the index. -/
structure Element (K : Type) where
  key : K
  val : Nat
  rwt : ReadWriteType
  isNew : Bool
  deriving DecidableEq

end TpccRunner
