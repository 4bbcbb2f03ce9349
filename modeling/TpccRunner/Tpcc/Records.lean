import Mathlib

/-!
# TPC-C records and keys

The records of `record_layout.hpp` with the fields that the transactions read or write in
the database, and the keys of `record_key.hpp` as the raw integers they are compared by.
A bit field keeps its width.  Amounts are exact numbers; a C string is the list of the
characters before its terminator.
-/

set_option autoImplicit false

namespace TpccRunner.Tpcc

abbrev CStr := List Char

/-- `copy_cstr` into a buffer of `size` bytes. -/
def copyCstr (text : CStr) (size : Nat) : CStr := text.take (size - 1)

structure Item where
  iId : Nat
  iPrice : ℚ
  deriving DecidableEq, Inhabited

structure Warehouse where
  wId : Nat
  wYtd : ℚ
  wName : CStr
  deriving DecidableEq, Inhabited

structure Stock where
  sWId : Nat
  sIId : Nat
  sQuantity : Int
  sYtd : Nat
  sOrderCnt : Nat
  sRemoteCnt : Nat
  deriving DecidableEq, Inhabited

structure District where
  dWId : Nat
  dId : Nat
  dNextOId : Nat
  dYtd : ℚ
  dName : CStr
  deriving DecidableEq, Inhabited

structure Customer where
  cWId : Nat
  cDId : Nat
  cId : Nat
  cPaymentCnt : Nat
  cDeliveryCnt : Nat
  cBalance : ℚ
  cYtdPayment : ℚ
  cFirst : CStr
  cLast : CStr
  cCredit : CStr
  cData : CStr
  deriving DecidableEq, Inhabited

structure History where
  hCWId : Nat
  hCDId : Nat
  hCId : Nat
  hWId : Nat
  hDId : Nat
  hDate : Int
  hAmount : ℚ
  hData : CStr
  deriving DecidableEq, Inhabited

structure Order where
  oWId : Nat
  oDId : Nat
  oId : Nat
  oCId : Nat
  oCarrierId : Nat
  oOlCnt : Nat
  oAllLocal : Bool
  oEntryD : Int
  deriving DecidableEq, Inhabited

structure NewOrder where
  noWId : Nat
  noDId : Nat
  noOId : Nat
  deriving DecidableEq, Inhabited

structure OrderLine where
  olWId : Nat
  olDId : Nat
  olOId : Nat
  olNumber : Nat
  olIId : Nat
  olSupplyWId : Nat
  olDeliveryD : Int
  olQuantity : Nat
  olAmount : ℚ
  deriving DecidableEq, Inhabited

/-! ## Primary keys -/

/-- Three bit fields of 32, 8 and 16 bits, the last one the most significant. -/
def packKey (wId dId id : Nat) : Nat :=
  wId % 2 ^ 16 * 2 ^ 40 + dId % 2 ^ 8 * 2 ^ 32 + id % 2 ^ 32

def ItemKey.createKey (iId : Nat) : Nat := iId % 2 ^ 32

def WarehouseKey.createKey (wId : Nat) : Nat := wId % 2 ^ 16

def StockKey.createKey (wId iId : Nat) : Nat := wId % 2 ^ 16 * 2 ^ 32 + iId % 2 ^ 32

def DistrictKey.createKey (wId dId : Nat) : Nat := wId % 2 ^ 16 * 2 ^ 8 + dId % 2 ^ 8

def CustomerKey.createKey (wId dId cId : Nat) : Nat := packKey wId dId cId

def OrderKey.createKey (wId dId oId : Nat) : Nat := packKey wId dId oId

def NewOrderKey.createKey (wId dId oId : Nat) : Nat := packKey wId dId oId

def OrderLineKey.createKey (wId dId oId olNumber : Nat) : Nat :=
  packKey wId dId oId * 2 ^ 8 + olNumber % 2 ^ 8

def Customer.key (c : Customer) : Nat := CustomerKey.createKey c.cWId c.cDId c.cId

def Order.key (o : Order) : Nat := OrderKey.createKey o.oWId o.oDId o.oId

def NewOrder.key (no : NewOrder) : Nat := NewOrderKey.createKey no.noWId no.noDId no.noOId

def OrderLine.key (ol : OrderLine) : Nat :=
  OrderLineKey.createKey ol.olWId ol.olDId ol.olOId ol.olNumber

/-! ## Distinct ids have distinct keys -/

theorem packKey_inj {w d i w' d' i' : Nat} (wBound : w < 2 ^ 16) (dBound : d < 2 ^ 8)
    (iBound : i < 2 ^ 32) (wBound' : w' < 2 ^ 16) (dBound' : d' < 2 ^ 8) (iBound' : i' < 2 ^ 32) :
    packKey w d i = packKey w' d' i' ↔ w = w' ∧ d = d' ∧ i = i' := by
  unfold packKey
  omega

theorem packKey_div {w d i : Nat} : packKey w d i / 2 ^ 32 = w % 2 ^ 16 * 2 ^ 8 + d % 2 ^ 8 := by
  unfold packKey
  omega

theorem packKey_mono {w d i i' : Nat} (bound : i' < 2 ^ 32) (less : i ≤ i') :
    packKey w d i ≤ packKey w d i' := by
  unfold packKey
  omega

theorem DistrictKey.createKey_inj {w d w' d' : Nat} (wBound : w < 2 ^ 16) (dBound : d < 2 ^ 8)
    (wBound' : w' < 2 ^ 16) (dBound' : d' < 2 ^ 8) :
    DistrictKey.createKey w d = DistrictKey.createKey w' d' ↔ w = w' ∧ d = d' := by
  unfold createKey
  omega

theorem WarehouseKey.createKey_inj {w w' : Nat} (wBound : w < 2 ^ 16) (wBound' : w' < 2 ^ 16) :
    WarehouseKey.createKey w = WarehouseKey.createKey w' ↔ w = w' := by
  unfold createKey
  omega

theorem OrderLineKey.createKey_inj {w d o n w' d' o' n' : Nat} (wBound : w < 2 ^ 16)
    (dBound : d < 2 ^ 8) (oBound : o < 2 ^ 32) (nBound : n < 2 ^ 8) (wBound' : w' < 2 ^ 16)
    (dBound' : d' < 2 ^ 8) (oBound' : o' < 2 ^ 32) (nBound' : n' < 2 ^ 8) :
    OrderLineKey.createKey w d o n = OrderLineKey.createKey w' d' o' n' ↔
      w = w' ∧ d = d' ∧ o = o' ∧ n = n' := by
  unfold createKey packKey
  omega

/-! ## Secondary keys -/

/-- The size of the buffer `c_last`: `Customer::MAX_LAST + 1`. -/
def lastNameSize : Nat := 17

structure CustomerSecondaryKey where
  wId : Nat
  dId : Nat
  cLast : CStr
  deriving DecidableEq

def CustomerSecondaryKey.createKey (wId dId : Nat) (cLast : CStr) : CustomerSecondaryKey :=
  { wId := wId % 2 ^ 16, dId := dId % 2 ^ 8, cLast := copyCstr cLast lastNameSize }

def OrderSecondaryKey.createKey (wId dId cId : Nat) : Nat := packKey wId dId cId

def Customer.secondaryKey (c : Customer) : CustomerSecondaryKey :=
  CustomerSecondaryKey.createKey c.cWId c.cDId c.cLast

def Order.secondaryKey (o : Order) : Nat := OrderSecondaryKey.createKey o.oWId o.oDId o.oCId

end TpccRunner.Tpcc
