import TpccRunner.Lib.BitFields
import TpccRunner.Tpcc.Transactions

/-!
# Packed keys

The index protocols compare the keys of `record_key.hpp` and of `tpcc_common/record_misc.hpp`
as unsigned integers.  The order of the integers is that of the components while every
component fits its field.  The secondary key of an order has only 12 bits for the warehouse,
and `Config` takes any 16-bit number of warehouses.
-/

set_option autoImplicit false

namespace TpccRunner.TpccCommon

open Lib Tpcc

structure Config where
  numWarehouses : UInt16

def Config.setNumWarehouses (_config : Config) (n : UInt16) : Config := { numWarehouses := n }

/-- `OrderSecondaryKey` of `tpcc_common`. -/
def OrderSecondaryKey.createKey (wId dId cId oId : Nat) : Nat :=
  pack [12, 4, 16, 32] [wId, dId, cId, oId]

def orderSecondaryKey (o : Order) : Nat :=
  OrderSecondaryKey.createKey o.oWId o.oDId o.oCId o.oId

/-- `Customer::CUSTS_PER_DIST`. -/
def custsPerDist : Nat := 3000

def maxOId : Nat := 2 ^ 32 - 2

section Components
variable (warehouses : Nat)

structure OrderIds (wId dId oId : Nat) : Prop where
  warehouse : wId ∈ Set.Icc 1 warehouses
  district : dId ∈ Set.Icc 1 distsPerWare
  order : oId ∈ Set.Icc 1 maxOId

structure ValidOrder (o : Order) : Prop where
  ids : OrderIds warehouses o.oWId o.oDId o.oId
  customer : o.oCId ∈ Set.Icc 1 custsPerDist

/-- The number of a line is a `uint8_t`; lines are numbered from 1. -/
structure ValidLine (ol : OrderLine) : Prop where
  ids : OrderIds warehouses ol.olWId ol.olDId ol.olOId
  number : ol.olNumber ∈ Set.Ico 1 (2 ^ 8)

def ValidNewOrder (no : NewOrder) : Prop := OrderIds warehouses no.noWId no.noDId no.noOId

def Agree {R : Type} (key : R → Nat) (components : R → List Nat) (row other : R) : Prop :=
  (key row = key other ↔ components row = components other) ∧
    (key row < key other ↔ components row < components other)

structure KeysOrdered : Prop where
  order : ∀ o o', ValidOrder warehouses o → ValidOrder warehouses o' →
    Agree Order.key (fun o => [o.oWId, o.oDId, o.oId]) o o'
  newOrder : ∀ no no', ValidNewOrder warehouses no → ValidNewOrder warehouses no' →
    Agree NewOrder.key (fun no => [no.noWId, no.noDId, no.noOId]) no no'
  orderLine : ∀ ol ol', ValidLine warehouses ol → ValidLine warehouses ol' →
    Agree OrderLine.key (fun ol => [ol.olWId, ol.olDId, ol.olOId, ol.olNumber]) ol ol'
  orderSecondary : ∀ o o', ValidOrder warehouses o → ValidOrder warehouses o' →
    Agree orderSecondaryKey (fun o => [o.oWId, o.oDId, o.oCId, o.oId]) o o'
  /-- The range of `range_query` and `range_update`. -/
  lines : ∀ wId dId oId, OrderIds warehouses wId dId oId → ∀ ol, ValidLine warehouses ol →
    (OrderLine.key ol ∈ Set.Ico (OrderLineKey.createKey wId dId oId 1)
        (OrderLineKey.createKey wId dId (oId + 1) 1) ↔
      ol.olWId = wId ∧ ol.olDId = dId ∧ ol.olOId = oId)
  /-- The range of `get_order_by_customer_id`. -/
  customerOrders : ∀ wId ∈ Set.Icc 1 warehouses, ∀ dId ∈ Set.Icc 1 distsPerWare,
    ∀ cId ∈ Set.Icc 1 custsPerDist, ∀ o, ValidOrder warehouses o →
      (orderSecondaryKey o ∈ Set.Ioc (OrderSecondaryKey.createKey wId dId cId 0)
          (OrderSecondaryKey.createKey wId dId (cId + 1) 0) ↔
        o.oWId = wId ∧ o.oDId = dId ∧ o.oCId = cId)
  /-- The reverse scan for one key finds the latest order. -/
  latest : ∀ orders : Set Order, (∀ o ∈ orders, ValidOrder warehouses o) →
    ∀ wId ∈ Set.Icc 1 warehouses, ∀ dId ∈ Set.Icc 1 distsPerWare,
    ∀ cId ∈ Set.Icc 1 custsPerDist, ∀ o ∈ orders,
      (IsGreatest (orderSecondaryKey '' orders ∩
          Set.Ioc (OrderSecondaryKey.createKey wId dId cId 0)
            (OrderSecondaryKey.createKey wId dId (cId + 1) 0)) (orderSecondaryKey o) ↔
        (o.oWId = wId ∧ o.oDId = dId ∧ o.oCId = cId) ∧
          ∀ o' ∈ orders, o'.oWId = wId → o'.oDId = dId → o'.oCId = cId → o'.oId ≤ o.oId)

end Components

/-! ## The fields are wide enough -/

theorem packKey_eq_pack (wId dId id : Nat) :
    packKey wId dId id = pack [16, 8, 32] [wId, dId, id] := by
  simp only [packKey, pack, totalWidth, List.sum_cons, List.sum_nil]
  omega

theorem orderLineKey_eq_pack (wId dId oId olNumber : Nat) :
    OrderLineKey.createKey wId dId oId olNumber =
      pack [16, 8, 32, 8] [wId, dId, oId, olNumber] := by
  simp only [OrderLineKey.createKey, packKey, pack, totalWidth, List.sum_cons, List.sum_nil]
  omega

section Fits
variable {warehouses wId dId cId oId olNumber : Nat}

theorem OrderIds.fits (ids : OrderIds warehouses wId dId oId) (bound : warehouses < 2 ^ 16) :
    Fits [16, 8, 32] [wId, dId, oId] := by
  obtain ⟨⟨-, warehouse⟩, ⟨-, district⟩, ⟨-, order⟩⟩ := ids
  simp only [distsPerWare, maxOId] at district order
  simp only [Fits, List.forall₂_cons, List.forall₂_nil_left_iff, and_true]
  omega

theorem orderLine_fits (warehouse : wId ≤ warehouses) (bound : warehouses < 2 ^ 16)
    (district : dId ≤ distsPerWare) (order : oId ≤ maxOId + 1) (number : olNumber < 2 ^ 8) :
    Fits [16, 8, 32, 8] [wId, dId, oId, olNumber] := by
  simp only [distsPerWare, maxOId] at district order
  simp only [Fits, List.forall₂_cons, List.forall₂_nil_left_iff, and_true]
  omega

theorem orderSecondary_fits (warehouse : wId ≤ warehouses) (few : warehouses < 2 ^ 12)
    (district : dId ≤ distsPerWare) (customer : cId ≤ custsPerDist + 1) (order : oId ≤ maxOId) :
    Fits [12, 4, 16, 32] [wId, dId, cId, oId] := by
  simp only [distsPerWare, custsPerDist, maxOId] at district customer order
  simp only [Fits, List.forall₂_cons, List.forall₂_nil_left_iff, and_true]
  omega

end Fits

/-! ## Keys and components -/

theorem Agree.of_pack {R : Type} {key : R → Nat} {components : R → List Nat} {widths : List Nat}
    {row other : R} (packed : ∀ row, key row = pack widths (components row))
    (fits : Fits widths (components row)) (fits' : Fits widths (components other)) :
    Agree key components row other := by
  constructor
  · rw [packed, packed, pack_inj fits fits']
  · rw [packed, packed, pack_lt_pack_iff fits fits']

section Ordered
variable {warehouses : Nat}

theorem ValidLine.fits {ol : OrderLine} (valid : ValidLine warehouses ol)
    (bound : warehouses < 2 ^ 16) :
    Fits [16, 8, 32, 8] [ol.olWId, ol.olDId, ol.olOId, ol.olNumber] :=
  orderLine_fits valid.ids.warehouse.2 bound valid.ids.district.2
    (Nat.le_succ_of_le valid.ids.order.2) valid.number.2

theorem ValidOrder.fits {o : Order} (valid : ValidOrder warehouses o) (few : warehouses < 2 ^ 12) :
    Fits [12, 4, 16, 32] [o.oWId, o.oDId, o.oCId, o.oId] :=
  orderSecondary_fits valid.ids.warehouse.2 few valid.ids.district.2
    (Nat.le_succ_of_le valid.customer.2) valid.ids.order.2

theorem mem_orderLine_range (bound : warehouses < 2 ^ 16) {wId dId oId : Nat}
    (ids : OrderIds warehouses wId dId oId) {ol : OrderLine} (valid : ValidLine warehouses ol) :
    OrderLine.key ol ∈ Set.Ico (OrderLineKey.createKey wId dId oId 1)
        (OrderLineKey.createKey wId dId (oId + 1) 1) ↔
      ol.olWId = wId ∧ ol.olDId = dId ∧ ol.olOId = oId := by
  have low : Fits [16, 8, 32, 8] [wId, dId, oId, 1] :=
    orderLine_fits ids.warehouse.2 bound ids.district.2 (Nat.le_succ_of_le ids.order.2) (by decide)
  have up : Fits [16, 8, 32, 8] [wId, dId, oId + 1, 1] :=
    orderLine_fits ids.warehouse.2 bound ids.district.2 (Nat.succ_le_succ ids.order.2) (by decide)
  have number : 1 ≤ ol.olNumber := valid.number.1
  rw [Set.mem_Ico, OrderLine.key, orderLineKey_eq_pack, orderLineKey_eq_pack,
    orderLineKey_eq_pack, ← not_lt, pack_lt_pack_iff (valid.fits bound) low,
    pack_lt_pack_iff (valid.fits bound) up]
  simp only [List.cons_lt_cons_iff, List.not_lt_nil, and_false, or_false]
  omega

theorem mem_orderSecondary_range (few : warehouses < 2 ^ 12) {wId dId cId : Nat}
    (warehouse : wId ∈ Set.Icc 1 warehouses) (district : dId ∈ Set.Icc 1 distsPerWare)
    (customer : cId ∈ Set.Icc 1 custsPerDist) {o : Order} (valid : ValidOrder warehouses o) :
    orderSecondaryKey o ∈ Set.Ioc (OrderSecondaryKey.createKey wId dId cId 0)
        (OrderSecondaryKey.createKey wId dId (cId + 1) 0) ↔
      o.oWId = wId ∧ o.oDId = dId ∧ o.oCId = cId := by
  have low : Fits [12, 4, 16, 32] [wId, dId, cId, 0] :=
    orderSecondary_fits warehouse.2 few district.2 (Nat.le_succ_of_le customer.2) (Nat.zero_le _)
  have up : Fits [12, 4, 16, 32] [wId, dId, cId + 1, 0] :=
    orderSecondary_fits warehouse.2 few district.2 (Nat.succ_le_succ customer.2) (Nat.zero_le _)
  have order : 1 ≤ o.oId := valid.ids.order.1
  rw [Set.mem_Ioc, orderSecondaryKey, OrderSecondaryKey.createKey, OrderSecondaryKey.createKey,
    OrderSecondaryKey.createKey, ← not_lt (a := pack _ [_, _, _ + 1, _]),
    pack_lt_pack_iff low (valid.fits few), pack_lt_pack_iff up (valid.fits few)]
  simp only [List.cons_lt_cons_iff, List.not_lt_nil, and_false, or_false]
  omega

theorem isGreatest_orderSecondary (few : warehouses < 2 ^ 12) {orders : Set Order}
    (valid : ∀ o ∈ orders, ValidOrder warehouses o) {wId dId cId : Nat}
    (warehouse : wId ∈ Set.Icc 1 warehouses) (district : dId ∈ Set.Icc 1 distsPerWare)
    (customer : cId ∈ Set.Icc 1 custsPerDist) {o : Order} (member : o ∈ orders) :
    IsGreatest (orderSecondaryKey '' orders ∩
        Set.Ioc (OrderSecondaryKey.createKey wId dId cId 0)
          (OrderSecondaryKey.createKey wId dId (cId + 1) 0)) (orderSecondaryKey o) ↔
      (o.oWId = wId ∧ o.oDId = dId ∧ o.oCId = cId) ∧
        ∀ o' ∈ orders, o'.oWId = wId → o'.oDId = dId → o'.oCId = cId → o'.oId ≤ o.oId := by
  have mine : ∀ o' ∈ orders, _ := fun o' member' =>
    mem_orderSecondary_range few warehouse district customer (valid o' member')
  have ordered : ∀ o' ∈ orders, orderSecondaryKey o < orderSecondaryKey o' ↔
      [o.oWId, o.oDId, o.oCId, o.oId] < [o'.oWId, o'.oDId, o'.oCId, o'.oId] := fun o' member' =>
    pack_lt_pack_iff ((valid o member).fits few) ((valid o' member').fits few)
  constructor
  · rintro ⟨⟨-, inside⟩, greatest⟩
    obtain ⟨rfl, rfl, rfl⟩ := (mine o member).mp inside
    refine ⟨⟨rfl, rfl, rfl⟩, fun o' member' sameW sameD sameC => ?_⟩
    have below := greatest ⟨⟨o', member', rfl⟩, (mine o' member').mpr ⟨sameW, sameD, sameC⟩⟩
    rw [← not_lt, ordered o' member', sameW, sameD, sameC] at below
    simpa [List.cons_lt_cons_iff] using below
  · rintro ⟨same, greatest⟩
    refine ⟨⟨⟨o, member, rfl⟩, (mine o member).mpr same⟩, ?_⟩
    rintro - ⟨⟨o', member', rfl⟩, inside⟩
    obtain ⟨sameW, sameD, sameC⟩ := (mine o' member').mp inside
    rw [← not_lt, ordered o' member', sameW, sameD, sameC, same.1, same.2.1, same.2.2]
    simpa [List.cons_lt_cons_iff] using greatest o' member' sameW sameD sameC

/-- Up to 4095 warehouses every field is wide enough. -/
theorem keysOrdered_of_few (few : warehouses < 2 ^ 12) : KeysOrdered warehouses := by
  have bound : warehouses < 2 ^ 16 := few.trans (by decide)
  exact
    { order := fun o o' valid valid' =>
        .of_pack (fun o => packKey_eq_pack _ _ _) (valid.ids.fits bound) (valid'.ids.fits bound)
      newOrder := fun no no' valid valid' =>
        .of_pack (fun no => packKey_eq_pack _ _ _) (valid.fits bound) (valid'.fits bound)
      orderLine := fun ol ol' valid valid' =>
        .of_pack (fun ol => orderLineKey_eq_pack _ _ _ _) (valid.fits bound) (valid'.fits bound)
      orderSecondary := fun o o' valid valid' =>
        .of_pack (fun o => rfl) (valid.fits few) (valid'.fits few)
      lines := fun wId dId oId ids ol valid => mem_orderLine_range bound ids valid
      customerOrders := fun wId warehouse dId district cId customer o valid =>
        mem_orderSecondary_range few warehouse district customer valid
      latest := fun orders valid wId warehouse dId district cId customer o member =>
        isGreatest_orderSecondary few valid warehouse district customer member }

end Ordered

/-! ## The field of the warehouse is not wide enough -/

/-- The first order of customer 1 in district 1 of a warehouse. -/
def firstOrder (wId : Nat) : Order :=
  { oWId := wId, oDId := 1, oId := 1, oCId := 1, oCarrierId := 0, oOlCnt := 5, oAllLocal := true
    oEntryD := 0 }

theorem firstOrder_valid {warehouses wId : Nat} (member : wId ∈ Set.Icc 1 warehouses) :
    ValidOrder warehouses (firstOrder wId) :=
  ⟨⟨member, by simp [firstOrder, distsPerWare], by simp [firstOrder, maxOId]⟩,
    by simp [firstOrder, custsPerDist]⟩

/-- Warehouse 4096 is stored as 0, so that its orders come before those of warehouse 1. -/
theorem not_keysOrdered_of_many {warehouses : Nat} (many : 2 ^ 12 ≤ warehouses) :
    ¬ KeysOrdered warehouses := by
  intro keys
  have agree := keys.orderSecondary (firstOrder 4096) (firstOrder 1)
    (firstOrder_valid ⟨by decide, many⟩) (firstOrder_valid ⟨le_rfl, by omega⟩)
  have less : orderSecondaryKey (firstOrder 4096) < orderSecondaryKey (firstOrder 1) := by decide
  exact absurd (agree.2.mp less) (by decide)

/-- The keys are in order for exactly the numbers of warehouses that 12 bits can hold. -/
theorem packedKeys_ordered_iff (config : Config) (n : UInt16) :
    KeysOrdered (config.setNumWarehouses n).numWarehouses.toNat ↔ n.toNat ≤ 4095 := by
  constructor
  · intro keys
    by_contra many
    exact not_keysOrdered_of_many (not_le.mp many) keys
  · intro few
    exact keysOrdered_of_few (Nat.lt_succ_of_le few)

/-- With 4097 warehouses the orders of warehouses 1 and 4097 have the same secondary keys. -/
theorem orderSecondaryKey_collides :
    orderSecondaryKey (firstOrder 1) = orderSecondaryKey (firstOrder 4097) ∧
      ¬ KeysOrdered (Config.setNumWarehouses ⟨1⟩ 4097).numWarehouses.toNat := by
  have same : orderSecondaryKey (firstOrder 1) = orderSecondaryKey (firstOrder 4097) := by decide
  refine ⟨same, fun keys => ?_⟩
  have agree := keys.orderSecondary (firstOrder 1) (firstOrder 4097)
    (firstOrder_valid ⟨by decide, by decide⟩) (firstOrder_valid ⟨by decide, by decide⟩)
  have equal := agree.1.mp same
  simp [firstOrder] at equal

end TpccRunner.TpccCommon
