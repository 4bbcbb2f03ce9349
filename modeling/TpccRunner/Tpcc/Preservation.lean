import Mathlib
import TpccRunner.Tpcc.DeliveryCalls

/-!
# The consistency conditions hold after loading and after every commit
-/

set_option autoImplicit false

namespace TpccRunner.Tpcc

open Lib Naive

variable {scale : Scale} {rows : Rows} {logs : Logs}

theorem apply_of_none {id : TableId} (none' : logs id = fun _ => none) :
    logs.apply rows id = rows id := by
  funext key
  simp [Logs.apply, none']

/-! ## Loading -/

section Load
variable {g : Generated}

theorem mem_districtIds {w d : Nat} : (w, d) ∈ districtIds scale ↔ InDistrict scale w d := by
  unfold districtIds
  simp only [List.mem_flatMap, List.mem_map, mem_ids, Prod.mk.injEq]
  constructor
  · rintro ⟨_, warehouse, _, district, rfl, rfl⟩
    exact ⟨warehouse, district⟩
  · rintro ⟨warehouse, district⟩
    exact ⟨w, warehouse, d, district, rfl, rfl⟩

theorem mem_orderIds {w d o : Nat} :
    (w, d, o) ∈ orderIds scale ↔ InDistrict scale w d ∧ 1 ≤ o ∧ o ≤ scale.orders := by
  unfold orderIds
  simp only [List.mem_flatMap, List.mem_map, mem_ids, Prod.exists, Prod.mk.injEq]
  constructor
  · rintro ⟨_, _, member, _, inRange, rfl, rfl, rfl⟩
    exact ⟨mem_districtIds.mp member, inRange⟩
  · rintro ⟨inDistrict, inRange⟩
    exact ⟨w, d, mem_districtIds.mpr inDistrict, o, inRange, rfl, rfl, rfl⟩

theorem loaded_of_row {id : TableId} {key : Nat} {row : RecordOf id}
    (present : (loadAllTables scale g).rows id key = some row) :
    (key, row) ∈ loadedRows scale g id := OrderedMap.mem_of_get?_ofList present

theorem row_of_loaded {id : TableId} {key : Nat} (row : RecordOf id)
    (member : (key, row) ∈ loadedRows scale g id) :
    ∃ row, (loadAllTables scale g).rows id key = some row :=
  Option.isSome_iff_exists.mp (OrderedMap.get?_ofList_isSome member)

theorem loaded_district {w d : Nat} {r : District} (valid : scale.Valid)
    (inDistrict : InDistrict scale w d)
    (present : (loadAllTables scale g).rows .district (DistrictKey.createKey w d) = some r) :
    r = loadedDistrict scale g w d := by
  have member := loaded_of_row present
  simp only [loadedRows, List.mem_map, Prod.exists, Prod.mk.injEq] at member
  obtain ⟨w', d', inList, sameKey, rfl⟩ := member
  have other := (mem_districtIds.mp inList).bounds valid
  have bounds := inDistrict.bounds valid
  obtain ⟨rfl, rfl⟩ := (DistrictKey.createKey_inj other.1 other.2 bounds.1 bounds.2).mp sameKey
  rfl

theorem loaded_warehouse {w : Nat} {r : Warehouse} (valid : scale.Valid)
    (inRange : 1 ≤ w ∧ w ≤ scale.warehouses)
    (present : (loadAllTables scale g).rows .warehouse (WarehouseKey.createKey w) = some r) :
    r = loadedWarehouse g w := by
  have member := loaded_of_row present
  simp only [loadedRows, List.mem_map, mem_ids, Prod.mk.injEq] at member
  obtain ⟨w', inList, sameKey, rfl⟩ := member
  have bound := valid.warehouses
  have same := (WarehouseKey.createKey_inj (by omega) (by omega)).mp sameKey
  rw [same]

theorem loaded_order {key : Nat} {r : Order}
    (present : (loadAllTables scale g).rows .order key = some r) :
    ∃ w d o, InDistrict scale w d ∧ (1 ≤ o ∧ o ≤ scale.orders) ∧
      key = OrderKey.createKey w d o ∧ r = loadedOrder g w d o := by
  have member := loaded_of_row present
  simp only [loadedRows, List.mem_map, Prod.exists, Prod.mk.injEq] at member
  obtain ⟨w, d, o, inList, rfl, rfl⟩ := member
  obtain ⟨inDistrict, inRange⟩ := mem_orderIds.mp inList
  exact ⟨w, d, o, inDistrict, inRange, rfl, rfl⟩

theorem load_order {w d o : Nat} (inDistrict : InDistrict scale w d)
    (inRange : 1 ≤ o ∧ o ≤ scale.orders) :
    ∃ r, (loadAllTables scale g).rows .order (OrderKey.createKey w d o) = some r := by
  refine row_of_loaded (loadedOrder g w d o) ?_
  simp only [loadedRows, List.mem_map, Prod.exists, Prod.mk.injEq]
  exact ⟨w, d, o, mem_orderIds.mpr ⟨inDistrict, inRange⟩, rfl, rfl⟩

theorem load_district {w d : Nat} (valid : scale.Valid) (inDistrict : InDistrict scale w d) :
    (loadAllTables scale g).rows .district (DistrictKey.createKey w d) =
      some (loadedDistrict scale g w d) := by
  obtain ⟨r, present⟩ : ∃ r, (loadAllTables scale g).rows .district (DistrictKey.createKey w d) =
      some r := by
    refine row_of_loaded (loadedDistrict scale g w d) ?_
    simp only [loadedRows, List.mem_map, Prod.exists, Prod.mk.injEq]
    exact ⟨w, d, mem_districtIds.mpr inDistrict, rfl, rfl⟩
  rw [present, loaded_district valid inDistrict present]

theorem load_warehouse {w : Nat} (valid : scale.Valid) (inRange : 1 ≤ w ∧ w ≤ scale.warehouses) :
    (loadAllTables scale g).rows .warehouse (WarehouseKey.createKey w) =
      some (loadedWarehouse g w) := by
  obtain ⟨r, present⟩ : ∃ r, (loadAllTables scale g).rows .warehouse (WarehouseKey.createKey w) =
      some r := by
    refine row_of_loaded (loadedWarehouse g w) ?_
    simp only [loadedRows, List.mem_map, mem_ids, Prod.mk.injEq]
    exact ⟨w, inRange, rfl, rfl⟩
  rw [present, loaded_warehouse valid inRange present]

theorem load_nextOId {w d : Nat} (valid : scale.Valid) (inDistrict : InDistrict scale w d) :
    nextOId (loadAllTables scale g).rows w d = scale.orders + 1 := by
  unfold nextOId
  rw [load_district valid inDistrict]
  rfl

theorem population_load (valid : scale.Valid) :
    Population scale (loadAllTables scale g).rows := by
  refine ⟨?_, ?_, ?_, ?_, ?_, ?_, ?_⟩
  · exact fun w inRange => ⟨_, load_warehouse valid inRange⟩
  · exact fun w d inDistrict => ⟨_, load_district valid inDistrict⟩
  · intro w d c inDistrict inRange
    refine row_of_loaded (loadedCustomer g w d c) ?_
    simp only [loadedRows, List.mem_flatMap, List.mem_map, mem_ids, Prod.exists, Prod.mk.injEq]
    exact ⟨w, d, mem_districtIds.mpr inDistrict, c, inRange, rfl, rfl⟩
  · intro key r present
    have member := loaded_of_row present
    simp only [loadedRows, List.mem_flatMap, List.mem_map, Prod.exists, Prod.mk.injEq] at member
    obtain ⟨w, d, -, c, -, rfl, rfl⟩ := member
    rfl
  · intro i inRange
    refine row_of_loaded (loadedItem g i) ?_
    simp only [loadedRows, List.mem_map, mem_ids, Prod.mk.injEq]
    exact ⟨i, inRange, rfl, rfl⟩
  · intro w i warehouse inRange
    refine row_of_loaded (loadedStock g w i) ?_
    simp only [loadedRows, List.mem_flatMap, List.mem_map, mem_ids, Prod.mk.injEq]
    exact ⟨w, warehouse, i, inRange, rfl, rfl⟩
  · intro w d inDistrict
    rw [load_nextOId valid inDistrict]
    exact valid.orders

theorem base_load (valid : scale.Valid) (generated : g.Valid scale) :
    Base scale (loadAllTables scale g).rows := by
  refine ⟨population_load valid, ?_, ?_, ?_, ?_, ?_⟩
  · intro w d inDistrict
    rw [load_nextOId valid inDistrict]
    have someOrder := valid.someOrder
    omega
  · intro key r present
    obtain ⟨w, d, o, inDistrict, inRange, rfl, rfl⟩ := loaded_order present
    refine ⟨rfl, inDistrict, ⟨inRange.1, ?_⟩, generated.customer w d o inRange, ?_⟩
    · change o < nextOId _ w d
      rw [load_nextOId valid inDistrict]
      omega
    · have count := generated.olCnt w d o
      change 1 ≤ (g.order w d o).oOlCnt ∧ (g.order w d o).oOlCnt ≤ 15
      omega
  · intro w d inDistrict o positive below
    rw [load_nextOId valid inDistrict] at below
    obtain ⟨r, present⟩ := load_order inDistrict ⟨positive, by omega⟩
    exact Option.isSome_iff_exists.mpr ⟨r, present⟩
  · intro key ol present
    have member := loaded_of_row present
    simp only [loadedRows, List.mem_flatMap, List.mem_map, mem_ids, Prod.exists,
      Prod.mk.injEq] at member
    obtain ⟨w, d, o, inList, n, number, rfl, rfl⟩ := member
    obtain ⟨inDistrict, inRange⟩ := mem_orderIds.mp inList
    obtain ⟨r, order⟩ := load_order inDistrict inRange
    have order' := order
    obtain ⟨w', d', o', inDistrict', inRange', sameKey, rfl⟩ := loaded_order order
    have bounds := inDistrict.bounds valid
    have bounds' := inDistrict'.bounds valid
    have small := valid.orders
    obtain ⟨rfl, rfl, rfl⟩ := (packKey_inj bounds.1 bounds.2 (by omega) bounds'.1 bounds'.2
      (by omega)).mp sameKey
    exact ⟨rfl, generated.item w d o n, _, order', rfl, rfl, rfl, number.1, number.2⟩
  · intro key r present n positive below
    obtain ⟨w, d, o, inDistrict, inRange, rfl, rfl⟩ := loaded_order present
    refine Option.isSome_iff_exists.mpr (row_of_loaded (loadedOrderLine g w d o n) ?_)
    simp only [loadedRows, List.mem_flatMap, List.mem_map, mem_ids, Prod.exists, Prod.mk.injEq]
    exact ⟨w, d, o, mem_orderIds.mpr ⟨inDistrict, inRange⟩, n, ⟨positive, below⟩, rfl, rfl⟩

theorem undelivered_load (valid : scale.Valid) :
    Undelivered scale (loadAllTables scale g).rows := by
  have fromRow : ∀ {key : Nat} {no : NewOrder},
      (loadAllTables scale g).rows .newOrder key = some no → ∃ w d o,
        ((InDistrict scale w d ∧ 1 ≤ o ∧ o ≤ scale.orders) ∧ scale.delivered < o) ∧
          key = NewOrderKey.createKey w d o ∧ no = loadedNewOrder w d o := by
    intro key no present
    have member := loaded_of_row present
    simp only [loadedRows, List.mem_map, List.mem_filter, Prod.exists, Prod.mk.injEq,
      decide_eq_true_eq, gt_iff_lt] at member
    obtain ⟨w, d, o, ⟨inList, later⟩, rfl, rfl⟩ := member
    exact ⟨w, d, o, ⟨mem_orderIds.mp inList, later⟩, rfl, rfl⟩
  refine ⟨?_, ?_⟩
  · intro key no present
    obtain ⟨w, d, o, ⟨⟨inDistrict, inRange⟩, -⟩, rfl, rfl⟩ := fromRow present
    refine ⟨rfl, inDistrict, inRange.1, ?_⟩
    change o < nextOId _ w d
    rw [load_nextOId valid inDistrict]
    omega
  · intro w d inDistrict
    rw [load_nextOId valid inDistrict]
    refine ⟨min (scale.delivered + 1) (scale.orders + 1), by omega, by omega, ?_⟩
    intro o positive below
    constructor
    · intro present
      obtain ⟨no, present⟩ := Option.isSome_iff_exists.mp present
      obtain ⟨w', d', o', ⟨⟨inDistrict', inRange'⟩, later⟩, sameKey, -⟩ := fromRow present
      have bounds := inDistrict.bounds valid
      have bounds' := inDistrict'.bounds valid
      have small := valid.orders
      have same := (packKey_inj bounds.1 bounds.2 (by omega) bounds'.1 bounds'.2
        (by omega)).mp sameKey
      omega
    · intro later
      refine Option.isSome_iff_exists.mpr (row_of_loaded (loadedNewOrder w d o) ?_)
      simp only [loadedRows, List.mem_map, List.mem_filter, Prod.exists, Prod.mk.injEq,
        decide_eq_true_eq, gt_iff_lt]
      exact ⟨w, d, o, ⟨mem_orderIds.mpr ⟨inDistrict, positive, by omega⟩, by omega⟩, rfl, rfl⟩

theorem balanced_load (valid : scale.Valid) : Balanced scale (loadAllTables scale g).rows := by
  intro w inRange
  have districts : ∀ d ∈ Finset.Icc 1 distsPerWare,
      districtYtd (loadAllTables scale g).rows w d = 30000 := by
    intro d member
    unfold districtYtd
    rw [load_district valid ⟨inRange, Finset.mem_Icc.mp member⟩]
    rfl
  rw [Finset.sum_congr rfl districts]
  unfold warehouseYtd
  rw [load_warehouse valid inRange]
  simp [loadedWarehouse, distsPerWare]
  norm_num

theorem inv_load (valid : scale.Valid) (generated : g.Valid scale) :
    Inv scale (loadAllTables scale g).rows :=
  ⟨base_load valid generated, undelivered_load valid, balanced_load valid⟩

end Load

/-! ## Payment -/

section Payment
variable {input : PaymentInput} {w : Warehouse} {d : District} {c : Customer} {cKey : Nat}

theorem updates_paymentLogs
    (warehouse : rows .warehouse (WarehouseKey.createKey input.wId) = some w)
    (district : rows .district (DistrictKey.createKey input.wId input.dId) = some d)
    (customer : rows .customer cKey = some c) (id : TableId) :
    Updates rows (paymentLogs input w d cKey c) id := by
  intro key log logged
  unfold paymentLogs at logged
  cases id with
  | warehouse =>
    rw [Logs.set_table_of_ne (by decide), Logs.set_table_of_ne (by decide), Logs.set_key] at logged
    split at logged
    · rename_i same
      cases logged
      exact ⟨rfl, w, same ▸ warehouse, trivial⟩
    · cases logged
  | district =>
    rw [Logs.set_table_of_ne (by decide), Logs.set_key] at logged
    split at logged
    · rename_i same
      cases logged
      exact ⟨rfl, d, same ▸ district, rfl⟩
    · cases logged
  | customer =>
    rw [Logs.set_key] at logged
    split at logged
    · rename_i same
      cases logged
      exact ⟨rfl, c, same ▸ customer, rfl⟩
    · cases logged
  | item => cases logged
  | stock => cases logged
  | order => cases logged
  | newOrder => cases logged
  | orderLine => cases logged

theorem warehouseYtd_payment (valid : scale.Valid)
    (warehouse : rows .warehouse (WarehouseKey.createKey input.wId) = some w)
    (inRange : 1 ≤ input.wId ∧ input.wId ≤ scale.warehouses) {w' : Nat}
    (inRange' : 1 ≤ w' ∧ w' ≤ scale.warehouses) :
    warehouseYtd ((paymentLogs input w d cKey c).apply rows) w' =
      warehouseYtd rows w' + if w' = input.wId then input.hAmount else 0 := by
  have bound := valid.warehouses
  have same : WarehouseKey.createKey w' = WarehouseKey.createKey input.wId ↔ w' = input.wId :=
    WarehouseKey.createKey_inj (by omega) (by omega)
  unfold warehouseYtd Logs.apply paymentLogs
  rw [Logs.set_table_of_ne (by decide), Logs.set_table_of_ne (by decide), Logs.set_key]
  by_cases here : w' = input.wId
  · subst here
    simp [warehouse, Log.effect]
  · rw [if_neg (mt same.mp here), if_neg here, add_zero]
    rfl

theorem districtYtd_payment (valid : scale.Valid)
    (district : rows .district (DistrictKey.createKey input.wId input.dId) = some d)
    (inDistrict : InDistrict scale input.wId input.dId) {w' d' : Nat}
    (inDistrict' : InDistrict scale w' d') :
    districtYtd ((paymentLogs input w d cKey c).apply rows) w' d' =
      districtYtd rows w' d' + if w' = input.wId ∧ d' = input.dId then input.hAmount else 0 := by
  have bounds := inDistrict.bounds valid
  have bounds' := inDistrict'.bounds valid
  have same := DistrictKey.createKey_inj bounds'.1 bounds'.2 bounds.1 bounds.2
  unfold districtYtd Logs.apply paymentLogs
  rw [Logs.set_table_of_ne (by decide), Logs.set_key]
  by_cases here : w' = input.wId ∧ d' = input.dId
  · obtain ⟨rfl, rfl⟩ := here
    simp [district, Log.effect]
  · rw [if_neg (mt same.mp here), if_neg here, add_zero]
    rfl

theorem Balanced.payment (balanced : Balanced scale rows) (valid : scale.Valid)
    (inDistrict : InDistrict scale input.wId input.dId)
    (warehouse : rows .warehouse (WarehouseKey.createKey input.wId) = some w)
    (district : rows .district (DistrictKey.createKey input.wId input.dId) = some d) :
    Balanced scale ((paymentLogs input w d cKey c).apply rows) := by
  intro w' inRange
  rw [warehouseYtd_payment valid warehouse inDistrict.warehouse inRange, balanced w' inRange]
  have changed : ∀ d' ∈ Finset.Icc 1 distsPerWare,
      districtYtd ((paymentLogs input w d cKey c).apply rows) w' d' = districtYtd rows w' d' +
        if w' = input.wId ∧ d' = input.dId then input.hAmount else 0 := fun d' member =>
    districtYtd_payment valid district inDistrict ⟨inRange, Finset.mem_Icc.mp member⟩
  rw [Finset.sum_congr rfl changed, Finset.sum_add_distrib]
  congr 1
  by_cases here : w' = input.wId
  · have member : input.dId ∈ Finset.Icc 1 distsPerWare := Finset.mem_Icc.mpr inDistrict.district
    simp [here, Finset.sum_ite_eq', member]
  · simp [here]

theorem Inv.payment (inv : Inv scale rows) (valid : scale.Valid)
    (inDistrict : InDistrict scale input.wId input.dId)
    (warehouse : rows .warehouse (WarehouseKey.createKey input.wId) = some w)
    (district : rows .district (DistrictKey.createKey input.wId input.dId) = some d)
    (customer : rows .customer cKey = some c) :
    Inv scale ((paymentLogs input w d cKey c).apply rows) := by
  have kept : ∀ id, Kept rows ((paymentLogs input w d cKey c).apply rows) id :=
    fun id => Kept.of_updates (updates_paymentLogs warehouse district customer id)
  refine ⟨inv.base.of_kept fun id _ => kept id, inv.undelivered.of_eq ?_ (kept .district).nextOId,
    inv.balanced.payment valid inDistrict warehouse district⟩
  exact apply_of_none rfl

end Payment

/-! ## Delivery -/

section Delivery
variable {w d : Nat}

theorem Undelivered.ids_of_key {o : Nat} {no : NewOrder} (undelivered : Undelivered scale rows)
    (population : Population scale rows) (valid : scale.Valid) (inDistrict : InDistrict scale w d)
    (bound : o < 2 ^ 32) (present : rows .newOrder (NewOrderKey.createKey w d o) = some no) :
    no.noWId = w ∧ no.noDId = d ∧ no.noOId = o := by
  obtain ⟨keyed, district, -, below⟩ := undelivered.row _ no present
  have bounds := inDistrict.bounds valid
  have rowBounds := district.bounds valid
  have small := below.trans (population.nextBound _ _ district)
  have same := (packKey_inj bounds.1 bounds.2 bound rowBounds.1 rowBounds.2 small).mp keyed
  exact ⟨same.1.symm, same.2.1.symm, same.2.2.symm⟩

/-- The first undelivered order is the oldest `NewOrder`. -/
theorem Undelivered.oldest {first : Nat} (undelivered : Undelivered scale rows)
    (population : Population scale rows) (valid : scale.Valid) (inDistrict : InDistrict scale w d)
    (positive : 1 ≤ first) (below : first < nextOId rows w d)
    (interval : ∀ o, 1 ≤ o → o < nextOId rows w d →
      ((rows .newOrder (NewOrderKey.createKey w d o)).isSome ↔ first ≤ o)) :
    Oldest rows w d (NewOrderKey.createKey w d first) := by
  obtain ⟨no, present⟩ :=
    Option.isSome_iff_exists.mp ((interval first positive below).mpr le_rfl)
  have bound := population.nextBound w d inDistrict
  obtain ⟨sameW, sameD, sameO⟩ := undelivered.ids_of_key population valid inDistrict
    (below.trans bound) present
  refine ⟨no, present, sameW, sameD, ?_⟩
  intro key' no' present' sameW' sameD'
  obtain ⟨keyed, -, positive', below'⟩ := undelivered.row key' no' present'
  rw [sameW', sameD'] at below'
  rw [keyed, NewOrder.key, sameW', sameD'] at present'
  rw [sameO]
  exact (interval no'.noOId positive' below').mp (by simp [present'])

theorem DeliveryLogs.apply_newOrder (logged : DeliveryLogs rows w (ids distsPerWare) logs)
    (key : Nat) :
    logs.apply rows .newOrder key =
      if (logs .newOrder key).isSome then none else rows .newOrder key := by
  unfold Logs.apply
  cases present : logs .newOrder key with
  | none => rfl
  | some log => simp [Log.effect, (logged.newOrder key log present).1]

theorem DeliveryLogs.removed_iff {w' o first : Nat}
    (logged : DeliveryLogs rows w (ids distsPerWare) logs) (undelivered : Undelivered scale rows)
    (population : Population scale rows) (valid : scale.Valid)
    (inDistrict : InDistrict scale w' d) (positive : 1 ≤ first)
    (interval : ∀ o, 1 ≤ o → o < nextOId rows w' d →
      ((rows .newOrder (NewOrderKey.createKey w' d o)).isSome ↔ first ≤ o))
    (below : o < nextOId rows w' d) (later : first ≤ o) :
    (logs .newOrder (NewOrderKey.createKey w' d o)).isSome ↔ w' = w ∧ o = first := by
  have bound := population.nextBound w' d inDistrict
  have oldest := undelivered.oldest population valid inDistrict positive (by omega) interval
  constructor
  · intro removed
    obtain ⟨log, removed⟩ := Option.isSome_iff_exists.mp removed
    obtain ⟨-, d', -, no, present, sameW, sameD, least⟩ := logged.newOrder _ log removed
    have ids := undelivered.ids_of_key population valid inDistrict (by omega) present
    have here : w' = w := ids.1.symm.trans sameW
    refine ⟨here, le_antisymm ?_ later⟩
    obtain ⟨no', present', sameW', sameD', -⟩ := oldest
    have ids' := undelivered.ids_of_key population valid inDistrict (by omega) present'
    have smaller := least _ no' present' (sameW'.trans here) (by omega)
    omega
  · rintro ⟨rfl, rfl⟩
    exact logged.delivered d (mem_ids.mpr inDistrict.district) _ oldest

theorem DeliveryLogs.undelivered (logged : DeliveryLogs rows w (ids distsPerWare) logs)
    (undelivered : Undelivered scale rows) (population : Population scale rows)
    (valid : scale.Valid) : Undelivered scale (logs.apply rows) := by
  have next : ∀ w d, nextOId (logs.apply rows) w d = nextOId rows w d := by
    intro w d
    unfold nextOId
    rw [apply_of_none (logged.quiet .district (by simp))]
  refine ⟨?_, ?_⟩
  · intro key no present
    rw [logged.apply_newOrder] at present
    split at present
    · cases present
    · rw [next]
      exact undelivered.row key no present
  · intro w' d' inDistrict
    obtain ⟨first, positive, below, interval⟩ := undelivered.interval w' d' inDistrict
    rw [next]
    refine ⟨if w' = w ∧ first < nextOId rows w' d' then first + 1 else first, ?_, ?_, ?_⟩
    · split <;> omega
    · split <;> omega
    · intro o positive' below'
      rw [logged.apply_newOrder]
      have present := interval o positive' below'
      by_cases later : first ≤ o
      · have removed := logged.removed_iff undelivered population valid inDistrict positive
          interval below' later
        by_cases deleted : w' = w ∧ o = first
        · rw [if_pos (removed.mpr deleted), if_pos ⟨deleted.1, by omega⟩]
          simp
          omega
        · rw [if_neg (mt removed.mp deleted), present]
          split
          · rename_i here
            have different : o ≠ first := fun same => deleted ⟨here.1, same⟩
            omega
          · rfl
      · have absent : (rows .newOrder (NewOrderKey.createKey w' d' o)) = none := by
          simpa using mt present.mp later
        rw [absent]
        simp only [ite_self, Option.isSome_none, Bool.false_eq_true, false_iff]
        split <;> omega

theorem DeliveryLogs.kept (logged : DeliveryLogs rows w (ids distsPerWare) logs) (id : TableId)
    (different : id ≠ .newOrder) : Kept rows (logs.apply rows) id := by
  refine Kept.of_updates ?_
  cases id with
  | item => exact Updates.of_none (logged.quiet _ (by simp))
  | warehouse => exact Updates.of_none (logged.quiet _ (by simp))
  | stock => exact Updates.of_none (logged.quiet _ (by simp))
  | district => exact Updates.of_none (logged.quiet _ (by simp))
  | customer => exact logged.updates _ (by simp)
  | order => exact logged.updates _ (by simp)
  | orderLine => exact logged.updates _ (by simp)
  | newOrder => exact absurd rfl different

theorem Inv.delivery (inv : Inv scale rows) (valid : scale.Valid)
    (logged : DeliveryLogs rows w (ids distsPerWare) logs) : Inv scale (logs.apply rows) := by
  refine ⟨inv.base.of_kept logged.kept,
    logged.undelivered inv.undelivered inv.base.toPopulation valid, inv.balanced.of_eq ?_ ?_⟩
  · intro w'
    unfold warehouseYtd
    rw [apply_of_none (logged.quiet .warehouse (by simp))]
  · intro w' d'
    unfold districtYtd
    rw [apply_of_none (logged.quiet .district (by simp))]

end Delivery

/-! ## NewOrder -/

section NewOrder
variable {input : NewOrderInput} {d : District}

theorem NewOrderLogs.district_row (logged : NewOrderLogs input d scale rows input.olCnt logs)
    (district : rows .district (DistrictKey.createKey input.wId input.dId) = some d) (key : Nat) :
    logs.apply rows .district key =
      if key = DistrictKey.createKey input.wId input.dId then
        some { d with dNextOId := (d.dNextOId + 1) % 2 ^ 32 }
      else rows .district key := by
  unfold Logs.apply
  rw [logged.district]
  by_cases here : key = DistrictKey.createKey input.wId input.dId
  · subst here
    simp [Log.effect, district]
  · simp [here]

theorem NewOrderLogs.nextOId (logged : NewOrderLogs input d scale rows input.olCnt logs)
    (valid : scale.Valid) (validInput : input.Valid scale)
    (district : rows .district (DistrictKey.createKey input.wId input.dId) = some d) {w' d' : Nat}
    (inDistrict : InDistrict scale w' d') :
    nextOId (logs.apply rows) w' d' =
      if w' = input.wId ∧ d' = input.dId then (d.dNextOId + 1) % 2 ^ 32
      else nextOId rows w' d' := by
  have bounds := validInput.district.bounds valid
  have bounds' := inDistrict.bounds valid
  have same := DistrictKey.createKey_inj bounds'.1 bounds'.2 bounds.1 bounds.2
  unfold Tpcc.nextOId
  rw [logged.district_row district]
  by_cases here : w' = input.wId ∧ d' = input.dId
  · rw [if_pos (same.mpr here), if_pos here, Option.map_some, Option.getD_some]
  · rw [if_neg (mt same.mp here), if_neg here]

theorem NewOrderLogs.population (logged : NewOrderLogs input d scale rows input.olCnt logs)
    (population : Population scale rows) (valid : scale.Valid) (validInput : input.Valid scale)
    (district : rows .district (DistrictKey.createKey input.wId input.dId) = some d) :
    Population scale (logs.apply rows) := by
  have quiet : ∀ id, id = .item ∨ id = .warehouse ∨ id = .customer →
      logs.apply rows id = rows id := fun id named => apply_of_none (logged.quiet id named)
  refine ⟨?_, ?_, ?_, ?_, ?_, ?_, ?_⟩
  · rw [quiet .warehouse (by simp)]
    exact population.warehouse
  · intro w' d' inDistrict
    rw [logged.district_row district]
    split
    · exact ⟨_, rfl⟩
    · exact population.district w' d' inDistrict
  · rw [quiet .customer (by simp)]
    exact population.customer
  · rw [quiet .customer (by simp)]
    exact population.customerRow
  · rw [quiet .item (by simp)]
    exact population.item
  · intro w' i warehouse item
    obtain ⟨r, present⟩ := population.stock w' i warehouse item
    obtain ⟨r', present', -⟩ := (Kept.of_updates logged.stock).some_left present
    exact ⟨r', present'⟩
  · intro w' d' inDistrict
    rw [logged.nextOId valid validInput district inDistrict]
    split
    · exact Nat.mod_lt _ (by norm_num)
    · exact population.nextBound w' d' inDistrict

theorem NewOrderLogs.order_of_some {key : Nat} {o : Order}
    (logged : NewOrderLogs input d scale rows input.olCnt logs)
    (present : rows .order key = some o) : logs.apply rows .order key = some o := by
  obtain ⟨now, order⟩ := logged.order
  have logged := congrFun order key
  unfold Logs.apply
  by_cases here : key = OrderKey.createKey input.wId input.dId d.dNextOId
  · rw [if_pos here] at logged
    rw [logged, present]
    rfl
  · rw [if_neg here] at logged
    rw [logged, present]

theorem NewOrderLogs.order_inserted (logged : NewOrderLogs input d scale rows input.olCnt logs) :
    (logs.apply rows .order (OrderKey.createKey input.wId input.dId d.dNextOId)).isSome := by
  obtain ⟨now, order⟩ := logged.order
  have logged := congrFun order (OrderKey.createKey input.wId input.dId d.dNextOId)
  rw [if_pos rfl] at logged
  unfold Logs.apply
  rw [logged]
  cases rows .order (OrderKey.createKey input.wId input.dId d.dNextOId) <;> rfl

theorem NewOrderLogs.districtYtd (logged : NewOrderLogs input d scale rows input.olCnt logs)
    (district : rows .district (DistrictKey.createKey input.wId input.dId) = some d) (w' d' : Nat) :
    districtYtd (logs.apply rows) w' d' = districtYtd rows w' d' := by
  unfold Tpcc.districtYtd
  rw [logged.district_row district]
  split
  · rename_i here
    rw [here, district, Option.map_some, Option.map_some]
  · rfl

theorem NewOrderLogs.line_isSome {key : Nat}
    (logged : NewOrderLogs input d scale rows input.olCnt logs)
    (present : (rows .orderLine key).isSome ∨ (logs .orderLine key).isSome) :
    (logs.apply rows .orderLine key).isSome := by
  unfold Logs.apply
  cases line : logs .orderLine key with
  | none => simpa [line] using present
  | some log => simp [Log.effect, (logged.line key log line).1]

theorem nextOId_eq {w d : Nat} {r : District}
    (district : rows .district (DistrictKey.createKey w d) = some r) :
    nextOId rows w d = r.dNextOId := by
  unfold nextOId
  rw [district, Option.map_some, Option.getD_some]

section Fresh
variable (base : Base scale rows) (valid : scale.Valid) (validInput : input.Valid scale)
  (district : rows .district (DistrictKey.createKey input.wId input.dId) = some d)

include base valid validInput district

theorem order_absent :
    rows .order (OrderKey.createKey input.wId input.dId d.dNextOId) = none := by
  have next := nextOId_eq district
  have bound := base.nextBound _ _ validInput.district
  by_contra present
  obtain ⟨r, present⟩ := Option.ne_none_iff_exists'.mp present
  obtain ⟨sameW, sameD, sameO⟩ := base.order_at valid validInput.district (by omega) present
  have below := (base.orderRow _ r present).id.2
  rw [sameW, sameD, sameO, next] at below
  exact lt_irrefl _ below

theorem newOrder_absent (undelivered : Undelivered scale rows) :
    rows .newOrder (NewOrderKey.createKey input.wId input.dId d.dNextOId) = none := by
  have next := nextOId_eq district
  have bound := base.nextBound _ _ validInput.district
  by_contra present
  obtain ⟨no, present⟩ := Option.ne_none_iff_exists'.mp present
  obtain ⟨sameW, sameD, sameO⟩ := undelivered.ids_of_key base.toPopulation valid
    validInput.district (by omega) present
  have below := (undelivered.row _ no present).2.2.2
  rw [sameW, sameD, sameO, next] at below
  exact lt_irrefl _ below

theorem line_absent {n : Nat} (small : n ≤ 15) :
    rows .orderLine (OrderLineKey.createKey input.wId input.dId d.dNextOId n) = none := by
  have next := nextOId_eq district
  have bound := base.nextBound _ _ validInput.district
  have bounds := validInput.district.bounds valid
  by_contra present
  obtain ⟨ol, present⟩ := Option.ne_none_iff_exists'.mp present
  obtain ⟨keyed, -, o, order, sameW, sameD, sameO, -, number⟩ := base.lineRow _ ol present
  obtain ⟨-, inDistrict, id, -, few⟩ := base.orderRow _ o order
  have rowBounds := inDistrict.bounds valid
  have rowBound := base.nextBound _ _ inDistrict
  rw [sameW] at rowBounds
  rw [sameD] at rowBounds
  obtain ⟨w, dd, oo, -⟩ := (OrderLineKey.createKey_inj bounds.1 bounds.2 (by omega) (by omega)
    rowBounds.1 rowBounds.2 (by omega) (by omega)).mp keyed
  have below := id.2
  rw [sameW, sameD, sameO, ← w, ← dd, ← oo, next] at below
  exact lt_irrefl _ below

end Fresh

theorem NewOrderLogs.newOrder_row (logged : NewOrderLogs input d scale rows input.olCnt logs)
    (absent : rows .newOrder (NewOrderKey.createKey input.wId input.dId d.dNextOId) = none)
    (key : Nat) :
    logs.apply rows .newOrder key =
      if key = NewOrderKey.createKey input.wId input.dId d.dNextOId then
        some (createNeworder input.wId input.dId d.dNextOId)
      else rows .newOrder key := by
  have entry := congrFun logged.newOrder key
  unfold Logs.apply
  by_cases here : key = NewOrderKey.createKey input.wId input.dId d.dNextOId
  · rw [if_pos here] at entry
    rw [if_pos here, entry, here, absent]
    rfl
  · rw [if_neg here] at entry
    rw [if_neg here, entry]

theorem NewOrderLogs.order_row (logged : NewOrderLogs input d scale rows input.olCnt logs)
    (absent : rows .order (OrderKey.createKey input.wId input.dId d.dNextOId) = none) :
    ∃ now, ∀ key, logs.apply rows .order key =
      if key = OrderKey.createKey input.wId input.dId d.dNextOId then
        some (createOrder input.wId input.dId input.cId d.dNextOId input.olCnt input.isRemote now)
      else rows .order key := by
  obtain ⟨now, order⟩ := logged.order
  refine ⟨now, fun key => ?_⟩
  have entry := congrFun order key
  unfold Logs.apply
  by_cases here : key = OrderKey.createKey input.wId input.dId d.dNextOId
  · rw [if_pos here] at entry
    rw [if_pos here, entry, here, absent]
    rfl
  · rw [if_neg here] at entry
    rw [if_neg here, entry]

section Commit
variable (logged : NewOrderLogs input d scale rows input.olCnt logs) (base : Base scale rows)
  (valid : scale.Valid) (validInput : input.Valid scale)
  (district : rows .district (DistrictKey.createKey input.wId input.dId) = some d)
  (small : d.dNextOId + 1 < 2 ^ 32)

include logged base valid validInput district small

omit base in
theorem NewOrderLogs.nextOId_of_small {w' d' : Nat} (inDistrict : InDistrict scale w' d') :
    Tpcc.nextOId (logs.apply rows) w' d' =
      Tpcc.nextOId rows w' d' + if w' = input.wId ∧ d' = input.dId then 1 else 0 := by
  rw [logged.nextOId valid validInput district inDistrict]
  split
  · rename_i here
    obtain ⟨rfl, rfl⟩ := here
    rw [Nat.mod_eq_of_lt small, nextOId_eq district]
  · rfl

theorem NewOrderLogs.orderRow {key : Nat} {o : Order}
    (present : logs.apply rows .order key = some o) : OrderRow scale (logs.apply rows) key o := by
  have next : ∀ {w' d'}, InDistrict scale w' d' → Tpcc.nextOId (logs.apply rows) w' d' = _ :=
    fun inDistrict => logged.nextOId_of_small valid validInput district small inDistrict
  obtain ⟨now, order⟩ := logged.order_row (order_absent base valid validInput district)
  rw [order] at present
  split at present
  · rename_i here
    cases present
    have few := validInput.olCnt
    have current := base.next _ _ validInput.district
    rw [nextOId_eq district] at current
    refine ⟨here, validInput.district, ⟨?_, ?_⟩, validInput.customer, ?_⟩
    · change 1 ≤ d.dNextOId
      omega
    · change d.dNextOId < Tpcc.nextOId _ input.wId input.dId
      rw [next validInput.district, nextOId_eq district]
      simp
    · change 1 ≤ input.olCnt ∧ input.olCnt ≤ 15
      omega
  · obtain ⟨keyed, inDistrict, id, customer, lines⟩ := base.orderRow key o present
    refine ⟨keyed, inDistrict, ⟨id.1, ?_⟩, customer, lines⟩
    rw [next inDistrict]
    omega

omit small in
theorem NewOrderLogs.lineRow {key : Nat} {ol : OrderLine}
    (present : logs.apply rows .orderLine key = some ol) :
    LineRow scale (logs.apply rows) key ol := by
  obtain ⟨now, order⟩ := logged.order_row (order_absent base valid validInput district)
  cases line : logs .orderLine key with
  | none =>
    have unchanged : logs.apply rows .orderLine key = rows .orderLine key := by
      unfold Logs.apply
      rw [line]
    rw [unchanged] at present
    obtain ⟨keyed, item, o, orderRow, rest⟩ := base.lineRow key ol present
    exact ⟨keyed, item, o, logged.order_of_some orderRow, rest⟩
  | some log =>
    obtain ⟨isInsert, n, item, olAmount, positive, below, rfl, content, validItem⟩ :=
      logged.line key log line
    have few := validInput.olCnt.2
    have inserted : logs.apply rows .orderLine
        (OrderLineKey.createKey input.wId input.dId d.dNextOId n) = some log.record := by
      unfold Logs.apply
      rw [line, line_absent base valid validInput district (by omega)]
      simp [Log.effect, isInsert]
    rw [inserted, content] at present
    cases present
    have orderRow := order (OrderKey.createKey input.wId input.dId d.dNextOId)
    rw [if_pos rfl] at orderRow
    exact ⟨rfl, validItem, _, orderRow, rfl, rfl, rfl, positive, below⟩

theorem NewOrderLogs.base_apply : Base scale (logs.apply rows) := by
  have next : ∀ {w' d'}, InDistrict scale w' d' → Tpcc.nextOId (logs.apply rows) w' d' = _ :=
    fun inDistrict => logged.nextOId_of_small valid validInput district small inDistrict
  obtain ⟨now, order⟩ := logged.order_row (order_absent base valid validInput district)
  refine ⟨logged.population base.toPopulation valid validInput district, ?_, ?_, ?_, ?_, ?_⟩
  · intro w' d' inDistrict
    rw [next inDistrict]
    have current := base.next w' d' inDistrict
    omega
  · exact fun key o present => logged.orderRow base valid validInput district small present
  · intro w' d' inDistrict o positive below
    rw [next inDistrict] at below
    by_cases old : o < Tpcc.nextOId rows w' d'
    · obtain ⟨r, present⟩ :=
        Option.isSome_iff_exists.mp (base.orders w' d' inDistrict o positive old)
      rw [logged.order_of_some present]
      rfl
    · split at below
      · rename_i here
        obtain ⟨rfl, rfl⟩ := here
        rw [nextOId_eq district] at below old
        rw [show o = d.dNextOId by omega]
        exact logged.order_inserted
      · omega
  · exact fun key ol present => logged.lineRow base valid validInput district present
  · intro key o present n positive below
    refine logged.line_isSome ?_
    rw [order] at present
    split at present
    · cases present
      exact .inr (logged.lines n positive below)
    · exact .inl (base.lines key o present n positive below)

theorem NewOrderLogs.undelivered (undelivered : Undelivered scale rows) :
    Undelivered scale (logs.apply rows) := by
  have next : ∀ {w' d'}, InDistrict scale w' d' → Tpcc.nextOId (logs.apply rows) w' d' = _ :=
    fun inDistrict => logged.nextOId_of_small valid validInput district small inDistrict
  have current := nextOId_eq district
  have newOrder := logged.newOrder_row (newOrder_absent base valid validInput district undelivered)
  have bounds := validInput.district.bounds valid
  refine ⟨?_, ?_⟩
  · intro key no present
    rw [newOrder] at present
    split at present
    · rename_i here
      cases present
      have positive := base.next _ _ validInput.district
      rw [current] at positive
      refine ⟨here, validInput.district, ?_, ?_⟩
      · change 1 ≤ d.dNextOId
        omega
      · change d.dNextOId < Tpcc.nextOId _ input.wId input.dId
        rw [next validInput.district, current]
        simp
    · obtain ⟨keyed, inDistrict, positive, below⟩ := undelivered.row key no present
      refine ⟨keyed, inDistrict, positive, ?_⟩
      rw [next inDistrict]
      omega
  · intro w' d' inDistrict
    obtain ⟨first, positive, bound, interval⟩ := undelivered.interval w' d' inDistrict
    rw [next inDistrict]
    refine ⟨first, positive, by omega, ?_⟩
    intro o positive' below
    have bounds' := inDistrict.bounds valid
    have limit := base.nextBound w' d' inDistrict
    have limit' := base.nextBound _ _ validInput.district
    have same : NewOrderKey.createKey w' d' o =
        NewOrderKey.createKey input.wId input.dId d.dNextOId ↔
          w' = input.wId ∧ d' = input.dId ∧ o = d.dNextOId :=
      packKey_inj bounds'.1 bounds'.2 (by split at below <;> omega) bounds.1 bounds.2 (by omega)
    rw [newOrder]
    by_cases here : w' = input.wId ∧ d' = input.dId ∧ o = d.dNextOId
    · rw [if_pos (same.mpr here)]
      obtain ⟨rfl, rfl, rfl⟩ := here
      rw [current] at bound
      simp [bound]
    · rw [if_neg (mt same.mp here)]
      refine interval o positive' ?_
      split at below
      · rename_i sameDistrict
        obtain ⟨rfl, rfl⟩ := sameDistrict
        rw [current] at below ⊢
        have different : o ≠ d.dNextOId := fun equal => here ⟨rfl, rfl, equal⟩
        omega
      · omega

omit base small valid validInput in
theorem NewOrderLogs.balanced (balanced : Balanced scale rows) :
    Balanced scale (logs.apply rows) := by
  refine balanced.of_eq ?_ (logged.districtYtd district)
  intro w'
  unfold warehouseYtd
  rw [apply_of_none (logged.quiet .warehouse (by simp))]

end Commit

theorem Inv.newOrder (inv : Inv scale rows)
    (logged : NewOrderLogs input d scale rows input.olCnt logs) (valid : scale.Valid)
    (validInput : input.Valid scale)
    (district : rows .district (DistrictKey.createKey input.wId input.dId) = some d)
    (small : d.dNextOId + 1 < 2 ^ 32) : Inv scale (logs.apply rows) :=
  ⟨logged.base_apply inv.base valid validInput district small,
    logged.undelivered inv.base valid validInput district small inv.undelivered,
    logged.balanced district inv.balanced⟩

end NewOrder

end TpccRunner.Tpcc
