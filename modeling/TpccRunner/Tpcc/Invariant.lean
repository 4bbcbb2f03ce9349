import Mathlib
import TpccRunner.Tpcc.Transactions

/-!
# The TPC-C consistency conditions

`Base` says which rows there are: the loaded population, the orders `1 .. d_next_o_id - 1`
of every district and the lines `1 .. o_ol_cnt` of every order.  `Undelivered` and `Balanced`
are the conditions on `NewOrder` and on the year-to-date amounts.  A committed transaction
acts on the rows through its log records; `Keeps` is what the updates of every profile leave
as it is.
-/

set_option autoImplicit false

namespace TpccRunner.Tpcc

open Lib Naive

abbrev Rows := (id : TableId) → Nat → Option (RecordOf id)

structure Scale.Valid (scale : Scale) : Prop where
  warehouses : scale.warehouses < 2 ^ 16
  items : scale.items < 2 ^ 32
  customers : scale.customers < 2 ^ 32
  someOrder : 1 ≤ scale.orders
  orders : scale.orders + 1 < 2 ^ 32

theorem Scale.tpcc_valid {warehouses : Nat} (bound : warehouses < 2 ^ 16) :
    (Scale.tpcc warehouses).Valid :=
  ⟨bound, by simp [Scale.tpcc], by simp [Scale.tpcc], by simp [Scale.tpcc], by simp [Scale.tpcc]⟩

structure InDistrict (scale : Scale) (w d : Nat) : Prop where
  warehouse : 1 ≤ w ∧ w ≤ scale.warehouses
  district : 1 ≤ d ∧ d ≤ distsPerWare

theorem InDistrict.bounds {scale : Scale} {w d : Nat} (valid : scale.Valid)
    (inDistrict : InDistrict scale w d) : w < 2 ^ 16 ∧ d < 2 ^ 8 := by
  have warehouse := inDistrict.warehouse
  have district := inDistrict.district
  have bound := valid.warehouses
  unfold distsPerWare at district
  omega

def nextOId (rows : Rows) (w d : Nat) : Nat :=
  ((rows .district (DistrictKey.createKey w d)).map District.dNextOId).getD 0

def districtYtd (rows : Rows) (w d : Nat) : ℚ :=
  ((rows .district (DistrictKey.createKey w d)).map District.dYtd).getD 0

def warehouseYtd (rows : Rows) (w : Nat) : ℚ :=
  ((rows .warehouse (WarehouseKey.createKey w)).map Warehouse.wYtd).getD 0

def OrderLine.orderKey (ol : OrderLine) : Nat := OrderKey.createKey ol.olWId ol.olDId ol.olOId

structure OrderRow (scale : Scale) (rows : Rows) (key : Nat) (o : Order) : Prop where
  key : key = o.key
  district : InDistrict scale o.oWId o.oDId
  id : 1 ≤ o.oId ∧ o.oId < nextOId rows o.oWId o.oDId
  customer : 1 ≤ o.oCId ∧ o.oCId ≤ scale.customers
  lines : 1 ≤ o.oOlCnt ∧ o.oOlCnt ≤ 15

structure LineRow (scale : Scale) (rows : Rows) (key : Nat) (ol : OrderLine) : Prop where
  key : key = ol.key
  item : 1 ≤ ol.olIId ∧ ol.olIId ≤ scale.items
  order : ∃ o, rows .order ol.orderKey = some o ∧ o.oWId = ol.olWId ∧ o.oDId = ol.olDId ∧
    o.oId = ol.olOId ∧ 1 ≤ ol.olNumber ∧ ol.olNumber ≤ o.oOlCnt

/-- The rows that are loaded once and only updated. -/
structure Population (scale : Scale) (rows : Rows) : Prop where
  warehouse : ∀ w, 1 ≤ w ∧ w ≤ scale.warehouses →
    ∃ r, rows .warehouse (WarehouseKey.createKey w) = some r
  district : ∀ w d, InDistrict scale w d → ∃ r, rows .district (DistrictKey.createKey w d) = some r
  customer : ∀ w d c, InDistrict scale w d → 1 ≤ c ∧ c ≤ scale.customers →
    ∃ r, rows .customer (CustomerKey.createKey w d c) = some r
  customerRow : ∀ key r, rows .customer key = some r → key = r.key
  item : ∀ i, 1 ≤ i ∧ i ≤ scale.items → ∃ r, rows .item (ItemKey.createKey i) = some r
  stock : ∀ w i, 1 ≤ w ∧ w ≤ scale.warehouses → 1 ≤ i ∧ i ≤ scale.items →
    ∃ r, rows .stock (StockKey.createKey w i) = some r
  nextBound : ∀ w d, InDistrict scale w d → nextOId rows w d < 2 ^ 32

structure Base (scale : Scale) (rows : Rows) : Prop extends Population scale rows where
  next : ∀ w d, InDistrict scale w d → 2 ≤ nextOId rows w d
  orderRow : ∀ key o, rows .order key = some o → OrderRow scale rows key o
  orders : ∀ w d, InDistrict scale w d → ∀ o, 1 ≤ o → o < nextOId rows w d →
    (rows .order (OrderKey.createKey w d o)).isSome
  lineRow : ∀ key ol, rows .orderLine key = some ol → LineRow scale rows key ol
  lines : ∀ key o, rows .order key = some o → ∀ n, 1 ≤ n → n ≤ o.oOlCnt →
    (rows .orderLine (OrderLineKey.createKey o.oWId o.oDId o.oId n)).isSome

/-- The `NewOrder`s of a district are the last of its orders. -/
structure Undelivered (scale : Scale) (rows : Rows) : Prop where
  row : ∀ key no, rows .newOrder key = some no → key = no.key ∧
    InDistrict scale no.noWId no.noDId ∧ 1 ≤ no.noOId ∧
      no.noOId < nextOId rows no.noWId no.noDId
  interval : ∀ w d, InDistrict scale w d → ∃ first, 1 ≤ first ∧ first ≤ nextOId rows w d ∧
    ∀ o, 1 ≤ o → o < nextOId rows w d →
      ((rows .newOrder (NewOrderKey.createKey w d o)).isSome ↔ first ≤ o)

def Balanced (scale : Scale) (rows : Rows) : Prop :=
  ∀ w, 1 ≤ w ∧ w ≤ scale.warehouses →
    warehouseYtd rows w = ∑ d ∈ Finset.Icc 1 distsPerWare, districtYtd rows w d

structure Inv (scale : Scale) (rows : Rows) : Prop where
  base : Base scale rows
  undelivered : Undelivered scale rows
  balanced : Balanced scale rows

/-! ## Updates that keep the ids -/

/-- What every update of a profile other than the counter of a district leaves alone. -/
def Keeps : (id : TableId) → RecordOf id → RecordOf id → Prop
  | .customer, before, after => after.key = before.key
  | .district, before, after => after.dNextOId = before.dNextOId
  | .order, before, after => after.oWId = before.oWId ∧ after.oDId = before.oDId ∧
      after.oId = before.oId ∧ after.oCId = before.oCId ∧ after.oOlCnt = before.oOlCnt
  | .orderLine, before, after => after.olWId = before.olWId ∧ after.olDId = before.olDId ∧
      after.olOId = before.olOId ∧ after.olNumber = before.olNumber ∧ after.olIId = before.olIId
  | _, _, _ => True

def Kept (rows rows' : Rows) (id : TableId) : Prop :=
  ∀ key, Option.Rel (Keeps id) (rows id key) (rows' id key)

def Updates (rows : Rows) (logs : Logs) (id : TableId) : Prop :=
  ∀ key log, logs id key = some log →
    log.lt = .update ∧ ∃ row, rows id key = some row ∧ Keeps id row log.record

theorem Keeps.refl : ∀ (id : TableId) (row : RecordOf id), Keeps id row row
  | .item, _ => trivial
  | .warehouse, _ => trivial
  | .stock, _ => trivial
  | .district, _ => rfl
  | .customer, _ => rfl
  | .order, _ => ⟨rfl, rfl, rfl, rfl, rfl⟩
  | .newOrder, _ => trivial
  | .orderLine, _ => ⟨rfl, rfl, rfl, rfl, rfl⟩

theorem Kept.of_updates {rows : Rows} {logs : Logs} {id : TableId}
    (updates : Updates rows logs id) : Kept rows (logs.apply rows) id := by
  intro key
  unfold Logs.apply
  cases logged : logs id key with
  | none =>
    cases rows id key with
    | none => exact .none
    | some row => exact .some (Keeps.refl id row)
  | some log =>
    obtain ⟨isUpdate, row, present, keeps⟩ := updates key log logged
    simp only [Log.effect, isUpdate, present, Option.map_some]
    exact .some keeps

section Kept
variable {rows rows' : Rows} {id : TableId} {key : Nat}

theorem Kept.some_right {row' : RecordOf id} (kept : Kept rows rows' id)
    (present : rows' id key = some row') :
    ∃ row, rows id key = some row ∧ Keeps id row row' := by
  have related := kept key
  rw [present] at related
  cases before : rows id key with
  | none => simp [before] at related
  | some row =>
    rw [before] at related
    exact ⟨row, rfl, Option.rel_some_some.mp related⟩

theorem Kept.some_left {row : RecordOf id} (kept : Kept rows rows' id)
    (present : rows id key = some row) :
    ∃ row', rows' id key = some row' ∧ Keeps id row row' := by
  have related := kept key
  rw [present] at related
  cases after : rows' id key with
  | none => simp [after] at related
  | some row' =>
    rw [after] at related
    exact ⟨row', rfl, Option.rel_some_some.mp related⟩

theorem Kept.isSome (kept : Kept rows rows' id) (present : (rows id key).isSome) :
    (rows' id key).isSome := by
  obtain ⟨row, present⟩ := Option.isSome_iff_exists.mp present
  obtain ⟨row', present', -⟩ := kept.some_left present
  simp [present']

theorem Kept.nextOId (kept : Kept rows rows' .district) (w d : Nat) :
    nextOId rows' w d = nextOId rows w d := by
  unfold Tpcc.nextOId
  cases before : rows .district (DistrictKey.createKey w d) with
  | none =>
    cases after : rows' .district (DistrictKey.createKey w d) with
    | none => rfl
    | some row' =>
      obtain ⟨row, present, -⟩ := kept.some_right after
      simp [before] at present
  | some row =>
    obtain ⟨row', after, keeps⟩ := kept.some_left before
    rw [after]
    exact keeps

end Kept

theorem Base.of_kept {scale : Scale} {rows rows' : Rows} (base : Base scale rows)
    (kept : ∀ id, id ≠ .newOrder → Kept rows rows' id) : Base scale rows' := by
  have next := (kept .district (by decide)).nextOId
  have same : ∀ {key : Nat} {o : Order}, rows' .order key = some o → ∃ old : Order,
      rows .order key = some old ∧ o.oWId = old.oWId ∧ o.oDId = old.oDId ∧ o.oId = old.oId ∧
        o.oCId = old.oCId ∧ o.oOlCnt = old.oOlCnt :=
    fun present => (kept .order (by decide)).some_right present
  refine ⟨⟨?_, ?_, ?_, ?_, ?_, ?_, ?_⟩, ?_, ?_, ?_, ?_, ?_⟩
  · intro w valid
    obtain ⟨r, present⟩ := base.warehouse w valid
    obtain ⟨r', present', -⟩ := (kept .warehouse (by decide)).some_left present
    exact ⟨r', present'⟩
  · intro w d valid
    obtain ⟨r, present⟩ := base.district w d valid
    obtain ⟨r', present', -⟩ := (kept .district (by decide)).some_left present
    exact ⟨r', present'⟩
  · intro w d c valid validCustomer
    obtain ⟨r, present⟩ := base.customer w d c valid validCustomer
    obtain ⟨r', present', -⟩ := (kept .customer (by decide)).some_left present
    exact ⟨r', present'⟩
  · intro key r' present'
    obtain ⟨r, present, keeps⟩ := (kept .customer (by decide)).some_right present'
    exact (base.customerRow key r present).trans keeps.symm
  · intro i valid
    obtain ⟨r, present⟩ := base.item i valid
    obtain ⟨r', present', -⟩ := (kept .item (by decide)).some_left present
    exact ⟨r', present'⟩
  · intro w i valid validItem
    obtain ⟨r, present⟩ := base.stock w i valid validItem
    obtain ⟨r', present', -⟩ := (kept .stock (by decide)).some_left present
    exact ⟨r', present'⟩
  · intro w d valid
    rw [next]
    exact base.nextBound w d valid
  · intro w d valid
    rw [next]
    exact base.next w d valid
  · intro key o present
    obtain ⟨old, oldPresent, wId, dId, oId, cId, olCnt⟩ := same present
    obtain ⟨keyed, district, id, customer, lines⟩ := base.orderRow key old oldPresent
    refine ⟨?_, ?_, ?_, ?_, ?_⟩
    · rw [keyed]
      simp [Order.key, wId, dId, oId]
    · rw [wId, dId]
      exact district
    · rw [oId, wId, dId, next]
      exact id
    · rw [cId]
      exact customer
    · rw [olCnt]
      exact lines
  · intro w d valid o positive below
    rw [next] at below
    exact (kept .order (by decide)).isSome (base.orders w d valid o positive below)
  · intro key ol present
    obtain ⟨old, oldPresent, wId, dId, oId, number, iId⟩ :=
      (kept .orderLine (by decide)).some_right present
    obtain ⟨keyed, item, o, order, oW, oD, oO, positive, bound⟩ := base.lineRow key old oldPresent
    obtain ⟨o', order', wId', dId', oId', -, olCnt'⟩ :=
      (kept .order (by decide)).some_left order
    refine ⟨?_, ?_, o', ?_, ?_, ?_, ?_, ?_, ?_⟩
    · rw [keyed]
      simp [OrderLine.key, wId, dId, oId, number]
    · rw [iId]
      exact item
    · rw [← order']
      simp [OrderLine.orderKey, wId, dId, oId]
    · rw [wId', oW, wId]
    · rw [dId', oD, dId]
    · rw [oId', oO, oId]
    · rw [number]
      exact positive
    · rw [number, olCnt']
      exact bound
  · intro key o present n positive bound
    obtain ⟨old, oldPresent, wId, dId, oId, -, olCnt⟩ := same present
    rw [wId, dId, oId]
    rw [olCnt] at bound
    exact (kept .orderLine (by decide)).isSome (base.lines key old oldPresent n positive bound)

theorem Undelivered.of_eq {scale : Scale} {rows rows' : Rows}
    (undelivered : Undelivered scale rows) (newOrder : rows' .newOrder = rows .newOrder)
    (next : ∀ w d, nextOId rows' w d = nextOId rows w d) : Undelivered scale rows' := by
  refine ⟨?_, ?_⟩
  · intro key no present
    rw [newOrder] at present
    rw [next]
    exact undelivered.row key no present
  · intro w d valid
    rw [next, newOrder]
    exact undelivered.interval w d valid

theorem Balanced.of_eq {scale : Scale} {rows rows' : Rows} (balanced : Balanced scale rows)
    (warehouse : ∀ w, warehouseYtd rows' w = warehouseYtd rows w)
    (district : ∀ w d, districtYtd rows' w d = districtYtd rows w d) : Balanced scale rows' := by
  intro w valid
  rw [warehouse, balanced w valid]
  exact Finset.sum_congr rfl fun d _ => (district w d).symm

theorem Base.order_at {scale : Scale} {rows : Rows} {w d o : Nat} {r : Order}
    (base : Base scale rows) (valid : scale.Valid) (inDistrict : InDistrict scale w d)
    (bound : o < 2 ^ 32) (present : rows .order (OrderKey.createKey w d o) = some r) :
    r.oWId = w ∧ r.oDId = d ∧ r.oId = o := by
  obtain ⟨keyed, district, id, -, -⟩ := base.orderRow _ r present
  have bounds := inDistrict.bounds valid
  have rowBounds := district.bounds valid
  have next := base.nextBound _ _ district
  have same := (packKey_inj bounds.1 bounds.2 bound rowBounds.1 rowBounds.2
    (id.2.trans next)).mp keyed
  exact ⟨same.1.symm, same.2.1.symm, same.2.2.symm⟩

/-! ## Small inputs -/

/-- Loaded orders with five lines, of the customer with the id of the order. -/
def drawsWith (quantity : Int) : Generated where
  item _ := default
  warehouse _ := default
  stock _ _ := { (default : Stock) with sQuantity := quantity }
  district _ _ := default
  customer _ _ _ := default
  history := []
  orderCustomer _ _ o := o
  order _ _ _ := { (default : Order) with oOlCnt := 5 }
  orderLine _ _ _ _ := { (default : OrderLine) with olIId := 1 }

/-- Five lines for one piece of the same item. -/
def smallOrder : NewOrderInput :=
  { wId := 1, dId := 1, cId := 1, olCnt := 5, isRemote := false
    items := fun _ => { olSupplyWId := 1, olIId := 2, olQuantity := 1 } }

end TpccRunner.Tpcc
