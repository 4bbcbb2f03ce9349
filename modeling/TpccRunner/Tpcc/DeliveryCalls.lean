import Mathlib
import TpccRunner.Tpcc.Effects

/-!
# What a Delivery logs

A Delivery logs, for every district with a pending order, the entries of `DeliveryEntry`;
districts have their own keys in every table, so that what is logged for one of them does
not meet what is logged for another.  How the pending order is looked up is a parameter.
-/

set_option autoImplicit false

namespace TpccRunner.Tpcc

open Lib Naive Tx

/-! ## Pending orders -/

/-- The `NewOrder` of a district with the smallest id. -/
structure Pending (rows : Rows) (w d : Nat) (no : NewOrder) : Prop where
  row : rows .newOrder no.key = some no
  warehouse : no.noWId = w
  district : no.noDId = d
  least : ∀ key no', rows .newOrder key = some no' → no'.noWId = w → no'.noDId = d →
    no.noOId ≤ no'.noOId

structure Delivers (rows : Rows) (w d : Nat) (no : NewOrder) (o : Order) : Prop where
  pending : Pending rows w d no
  order : rows .order (OrderKey.createKey w d no.noOId) = some o

def orderTotal (db : Database) (orderKey : Nat) : ℚ :=
  (((db.tables .orderLine).rows.entries.filter fun entry => entry.2.orderKey = orderKey).map
    fun entry => entry.2.olAmount).sum

section Pending
variable {rows : Rows} {w d : Nat} {no no' : NewOrder} {o o' : Order}

theorem Pending.unique (first : Pending rows w d no)
    (second : Pending rows w d no') : no = no' := by
  have same : no.noOId = no'.noOId :=
    le_antisymm (first.least _ _ second.row second.warehouse second.district)
      (second.least _ _ first.row first.warehouse first.district)
  obtain ⟨noW, noD, noO⟩ := no
  obtain ⟨noW', noD', noO'⟩ := no'
  have sameW : noW = noW' := first.warehouse.trans second.warehouse.symm
  have sameD : noD = noD' := first.district.trans second.district.symm
  rw [sameW, sameD, show noO = noO' from same]

theorem Delivers.unique (first : Delivers rows w d no o)
    (second : Delivers rows w d no' o') : no = no' ∧ o = o' := by
  obtain rfl := first.pending.unique second.pending
  exact ⟨rfl, Option.some.inj (first.order.symm.trans second.order)⟩

def FindsPending (rows : Rows) (w d : Nat) : Option NewOrder → Prop
  | some no => Pending rows w d no
  | none => ∀ no, ¬ Pending rows w d no

end Pending

/-! ## Consistent databases -/

structure Ready (scale : Scale) (w : Nat) (start : Database) : Prop where
  clean : start.Clean
  valid : scale.Valid
  base : Base scale start.rows
  undelivered : Undelivered scale start.rows
  warehouse : 1 ≤ w ∧ w ≤ scale.warehouses

section Ready
variable {scale : Scale} {w d : Nat} {start : Database} {no : NewOrder} {o : Order}

theorem Ready.inDistrict (ready : Ready scale w start) (member : d ∈ ids distsPerWare) :
    InDistrict scale w d := ⟨ready.warehouse, mem_ids.mp member⟩

theorem Ready.id_fits (ready : Ready scale w start) (pending : Pending start.rows w d no) :
    InDistrict scale w d ∧ 1 ≤ no.noOId ∧ no.noOId < nextOId start.rows w d ∧
      no.noOId + 1 < 2 ^ 32 := by
  obtain ⟨-, inDistrict, positive, below⟩ := ready.undelivered.row _ no pending.row
  rw [pending.warehouse, pending.district] at inDistrict below
  have bound := ready.base.nextBound w d inDistrict
  exact ⟨inDistrict, positive, below, by omega⟩

theorem Ready.exists_order (ready : Ready scale w start) (pending : Pending start.rows w d no) :
    ∃ o, Delivers start.rows w d no o := by
  obtain ⟨inDistrict, positive, below, -⟩ := ready.id_fits pending
  obtain ⟨o, order⟩ := Option.isSome_iff_exists.mp
    (ready.base.orders w d inDistrict no.noOId positive below)
  exact ⟨o, pending, order⟩

theorem Ready.order_ids (ready : Ready scale w start) (delivers : Delivers start.rows w d no o) :
    o.oWId = w ∧ o.oDId = d ∧ o.oId = no.noOId := by
  obtain ⟨inDistrict, -, -, fits⟩ := ready.id_fits delivers.pending
  exact ready.base.order_at ready.valid inDistrict (by omega) delivers.order

theorem Ready.order_key (ready : Ready scale w start) (delivers : Delivers start.rows w d no o) :
    OrderKey.createKey w d no.noOId = o.key :=
  (ready.base.orderRow _ o delivers.order).key

theorem Ready.exists_customer (ready : Ready scale w start)
    (delivers : Delivers start.rows w d no o) :
    ∃ c, start.rows .customer (CustomerKey.createKey w d o.oCId) = some c :=
  ready.base.customer w d o.oCId (ready.id_fits delivers.pending).1
    (ready.base.orderRow _ o delivers.order).customer

theorem packKey_succ {w d i : Nat} (bound : i + 1 < 2 ^ 32) :
    packKey w d (i + 1) = packKey w d i + 1 := by
  unfold packKey
  omega

/-- The keys that `range_update` goes through are those of the order's lines. -/
theorem Ready.line_range (ready : Ready scale w start) (delivers : Delivers start.rows w d no o)
    {key : Nat} {ol : OrderLine} (row : start.rows .orderLine key = some ol) :
    (OrderLineKey.createKey o.oWId o.oDId o.oId 1 ≤ key ∧
      key < OrderLineKey.createKey o.oWId o.oDId (o.oId + 1) 1) ↔ ol.orderKey = o.key := by
  obtain ⟨sameW, sameD, sameO⟩ := ready.order_ids delivers
  obtain ⟨-, -, -, fits⟩ := ready.id_fits delivers.pending
  obtain ⟨keyed, -, o', order', -, -, -, positive, below⟩ := ready.base.lineRow key ol row
  have few := (ready.base.orderRow _ o' order').lines
  rw [keyed, sameO]
  unfold OrderLine.key OrderLineKey.createKey OrderLine.orderKey Order.key OrderKey.createKey
  rw [packKey_succ fits, sameO]
  generalize packKey o.oWId o.oDId no.noOId = mine
  generalize packKey ol.olWId ol.olDId ol.olOId = theirs
  omega

end Ready

/-! ## The lower bound -/

section LowerBound
variable {scale : Scale} {w d : Nat} {start : Database} {logs : Logs} {aborts : List Bool}
  {user : Prop}

theorem packKey_lt_of_div {k low high : Nat} (below : low ≤ k) (above : k ≤ high)
    (same : low / 2 ^ 32 = high / 2 ^ 32) : k / 2 ^ 32 = low / 2 ^ 32 := by
  omega

/-- The lower bound is the pending `NewOrder` of the district, if there is one. -/
theorem Ready.lowerBound (ready : Ready scale w start) (inDistrict : InDistrict scale w d) :
    match (start.tables .newOrder).rows.lowerBound (NewOrderKey.createKey w d 1) with
    | some (key, no) => FindsPending start.rows w d
        (if key / 2 ^ 32 = NewOrderKey.createKey w d 1 / 2 ^ 32 then some no else none)
    | none => FindsPending start.rows w d none := by
  have bounds := inDistrict.bounds ready.valid
  -- every NewOrder of the district is above the bound and in the same group of keys
  have above : ∀ key no, start.rows .newOrder key = some no → no.noWId = w → no.noDId = d →
      NewOrderKey.createKey w d 1 ≤ key ∧ key = NewOrderKey.createKey w d no.noOId ∧
        no.noOId < 2 ^ 32 := by
    intro key no present sameW sameD
    obtain ⟨keyed, district, positive, below⟩ := ready.undelivered.row key no present
    have small : no.noOId < 2 ^ 32 := below.trans (ready.base.nextBound _ _ district)
    rw [keyed, NewOrder.key, sameW, sameD]
    exact ⟨packKey_mono small positive, rfl, small⟩
  cases found : (start.tables .newOrder).rows.lowerBound (NewOrderKey.createKey w d 1) with
  | none =>
    intro no pending
    have absent := OrderedMap.lowerBound_eq_none found no.key
      (above _ no pending.row pending.warehouse pending.district).1
    exact absurd (pending.row.symm.trans absent) (by simp)
  | some entry =>
    obtain ⟨key, no⟩ := entry
    obtain ⟨present, notBelow, least⟩ := OrderedMap.lowerBound_eq_some found
    dsimp only
    split
    · rename_i sameGroup
      obtain ⟨keyed, district, positive, below⟩ := ready.undelivered.row key no present
      have rowBounds := district.bounds ready.valid
      have ids : no.noWId = w ∧ no.noDId = d := by
        rw [keyed, NewOrder.key] at sameGroup
        unfold NewOrderKey.createKey at sameGroup
        rw [packKey_div, packKey_div] at sameGroup
        omega
      refine ⟨keyed ▸ present, ids.1, ids.2, fun key' no' present' sameW sameD => ?_⟩
      have small : no.noOId < 2 ^ 32 := below.trans (ready.base.nextBound _ _ district)
      obtain ⟨bound, keyed', small'⟩ := above key' no' present' sameW sameD
      have smallest := least key' bound (Option.isSome_iff_exists.mpr ⟨no', present'⟩)
      rw [keyed, keyed', NewOrder.key, ids.1, ids.2] at smallest
      unfold NewOrderKey.createKey packKey at smallest
      omega
    · rename_i otherGroup
      intro no' pending
      obtain ⟨bound, keyed', -⟩ := above _ no' pending.row pending.warehouse pending.district
      have smallest := least _ bound (Option.isSome_iff_exists.mpr ⟨no', pending.row⟩)
      refine otherGroup (packKey_lt_of_div notBelow smallest ?_)
      rw [keyed']
      unfold NewOrderKey.createKey
      rw [packKey_div, packKey_div]

theorem getNeworder_spec (ready : Ready scale w start) (inDistrict : InDistrict scale w d) :
    Triple (Running start aborts logs)
      (getNeworderWithSmallestKeyNoLessThan (NewOrderKey.createKey w d 1))
      (fun found world => FindsPending start.rows w d found ∧ Running start aborts logs world)
      (Stopped start aborts user) := by
  intro world running
  have finds := ready.lowerBound inDistrict
  simp only [getNeworderWithSmallestKeyNoLessThan, Program.result_bind, Program.result_get,
    running.rows .newOrder]
  cases found : (start.tables .newOrder).rows.lowerBound (NewOrderKey.createKey w d 1) with
  | none =>
    rw [found] at finds
    exact ⟨finds, running⟩
  | some entry =>
    rw [found] at finds
    exact ⟨finds, running⟩

end LowerBound

/-! ## What is logged for a district -/

inductive DeliveryEntry (start : Database) (w carrier d : Nat) :
    (id : TableId) → Nat → Log (RecordOf id) → Prop where
  | newOrder {no : NewOrder} {o : Order} (delivers : Delivers start.rows w d no o) :
      DeliveryEntry start w carrier d .newOrder no.key { lt := .delete, record := default }
  | order {no : NewOrder} {o : Order} (delivers : Delivers start.rows w d no o) :
      DeliveryEntry start w carrier d .order o.key
        { lt := .update, record := { o with oCarrierId := carrier } }
  | line {no : NewOrder} {o : Order} (delivers : Delivers start.rows w d no o) {key : Nat}
      {ol : OrderLine} (row : start.rows .orderLine key = some ol) (own : ol.orderKey = o.key)
      (date : Int) :
      DeliveryEntry start w carrier d .orderLine key
        { lt := .update, record := { ol with olDeliveryD := date } }
  | customer {no : NewOrder} {o : Order} {c : Customer} (delivers : Delivers start.rows w d no o)
      (row : start.rows .customer (CustomerKey.createKey w d o.oCId) = some c) :
      DeliveryEntry start w carrier d .customer (CustomerKey.createKey w d o.oCId)
        { lt := .update
          record := { c with
            cBalance := c.cBalance + orderTotal start o.key
            cDeliveryCnt := (c.cDeliveryCnt + 1) % 2 ^ 16 } }

structure Entries (start : Database) (w carrier : Nat) (done : List Nat) (logs : Logs) : Prop where
  sound : ∀ id key log, logs id key = some log →
    ∃ d ∈ done, DeliveryEntry start w carrier d id key log
  complete : ∀ d ∈ done, ∀ id key log, DeliveryEntry start w carrier d id key log →
    (logs id key).isSome

section Entries
variable {scale : Scale} {w carrier d d' : Nat} {start : Database} {no : NewOrder} {o : Order}
  {done : List Nat} {logs : Logs}

theorem DeliveryEntry.same_district (ready : Ready scale w start) {id : TableId} {key key' : Nat}
    {log log' : Log (RecordOf id)} (first : DeliveryEntry start w carrier d id key log)
    (second : DeliveryEntry start w carrier d' id key' log') (same : key = key') : d = d' := by
  cases first with
  | newOrder delivers =>
    cases second with
    | newOrder delivers' =>
      have row := delivers.pending.row
      rw [same, delivers'.pending.row] at row
      cases row
      exact delivers.pending.district.symm.trans delivers'.pending.district
  | order delivers =>
    cases second with
    | order delivers' =>
      have row := delivers.order
      rw [ready.order_key delivers, same, ← ready.order_key delivers', delivers'.order] at row
      cases row
      exact (ready.order_ids delivers).2.1.symm.trans (ready.order_ids delivers').2.1
  | line delivers row own =>
    cases second with
    | line delivers' row' own' =>
      rw [same, row'] at row
      cases row
      have order := delivers.order
      rw [ready.order_key delivers, ← own, own', ← ready.order_key delivers', delivers'.order]
        at order
      cases order
      exact (ready.order_ids delivers).2.1.symm.trans (ready.order_ids delivers').2.1
  | customer delivers row =>
    cases second with
    | customer delivers' row' =>
      have inDistrict := (ready.id_fits delivers.pending).1
      have inDistrict' := (ready.id_fits delivers'.pending).1
      have bounds := inDistrict.bounds ready.valid
      have bounds' := inDistrict'.bounds ready.valid
      unfold CustomerKey.createKey packKey at same
      omega

/-- Nothing has been logged yet under the keys of another district. -/
theorem Entries.fresh (entries : Entries start w carrier done logs) (ready : Ready scale w start)
    (notYet : d ∉ done) {id : TableId} {key : Nat} {log : Log (RecordOf id)}
    (entry : DeliveryEntry start w carrier d id key log) : logs id key = none := by
  by_contra logged
  obtain ⟨found, logged⟩ := Option.ne_none_iff_exists'.mp logged
  obtain ⟨d', member, other⟩ := entries.sound id key found logged
  exact notYet (entry.same_district ready other rfl ▸ member)

theorem Entries.skip (entries : Entries start w carrier done logs)
    (nothing : ∀ no, ¬ Pending start.rows w d no) :
    Entries start w carrier (done ++ [d]) logs := by
  refine ⟨fun id key log logged => ?_, fun d' member id key log entry => ?_⟩
  · obtain ⟨d', member, entry⟩ := entries.sound id key log logged
    exact ⟨d', List.mem_append_left _ member, entry⟩
  · obtain member | member := List.mem_append.mp member
    · exact entries.complete d' member id key log entry
    · cases List.mem_singleton.mp member
      cases entry with
      | newOrder delivers | order delivers | line delivers | customer delivers =>
        exact absurd delivers.pending (nothing _)

theorem Entries.deliver {logs' : Logs} {c : Customer} (lines : List (Nat × OrderLine))
    (entries : Entries start w carrier done logs) (delivers : Delivers start.rows w d no o)
    (row : start.rows .customer (CustomerKey.createKey w d o.oCId) = some c)
    (inLines : ∀ key ol, (key, ol) ∈ lines ↔
      start.rows .orderLine key = some ol ∧ ol.orderKey = o.key)
    (quiet : ∀ id, id = .item ∨ id = .warehouse ∨ id = .stock ∨ id = .district →
      logs' id = logs id)
    (newOrder : ∀ key, logs' .newOrder key =
      if key = no.key then some { lt := .delete, record := default } else logs .newOrder key)
    (order : ∀ key, logs' .order key =
      if key = o.key then some { lt := .update, record := { o with oCarrierId := carrier } }
      else logs .order key)
    (dated : ∀ entry ∈ lines, ∃ date, logs' .orderLine entry.1 =
      some { lt := .update, record := { entry.2 with olDeliveryD := date } })
    (otherLines : ∀ key, key ∉ lines.map Prod.fst → logs' .orderLine key = logs .orderLine key)
    (customer : ∀ key, logs' .customer key =
      if key = CustomerKey.createKey w d o.oCId then
        some { lt := .update
               record := { c with
                 cBalance := c.cBalance + orderTotal start o.key
                 cDeliveryCnt := (c.cDeliveryCnt + 1) % 2 ^ 16 } }
      else logs .customer key) :
    Entries start w carrier (done ++ [d]) logs' := by
  have here : d ∈ done ++ [d] := by simp
  have before : ∀ id key log, logs id key = some log →
      ∃ d' ∈ done ++ [d], DeliveryEntry start w carrier d' id key log := by
    intro id key log logged
    obtain ⟨d', member, entry⟩ := entries.sound id key log logged
    exact ⟨d', List.mem_append_left _ member, entry⟩
  constructor
  · intro id key log logged
    cases id with
    | item => exact before _ _ _ (quiet .item (by simp) ▸ logged)
    | warehouse => exact before _ _ _ (quiet .warehouse (by simp) ▸ logged)
    | stock => exact before _ _ _ (quiet .stock (by simp) ▸ logged)
    | district => exact before _ _ _ (quiet .district (by simp) ▸ logged)
    | newOrder =>
      rw [newOrder] at logged
      split at logged
      · rename_i same
        cases logged
        exact ⟨d, here, same ▸ .newOrder delivers⟩
      · exact before _ _ _ logged
    | order =>
      rw [order] at logged
      split at logged
      · rename_i same
        cases logged
        exact ⟨d, here, same ▸ .order delivers⟩
      · exact before _ _ _ logged
    | orderLine =>
      by_cases own : key ∈ lines.map Prod.fst
      · obtain ⟨⟨key', ol⟩, member, rfl⟩ := List.mem_map.mp own
        obtain ⟨stored, ownOrder⟩ := (inLines key' ol).mp member
        obtain ⟨date, written⟩ := dated _ member
        rw [written] at logged
        cases logged
        exact ⟨d, here, .line delivers stored ownOrder date⟩
      · rw [otherLines key own] at logged
        exact before _ _ _ logged
    | customer =>
      rw [customer] at logged
      split at logged
      · rename_i same
        cases logged
        exact ⟨d, here, same ▸ .customer delivers row⟩
      · exact before _ _ _ logged
  · intro d' member id key log entry
    obtain member | member := List.mem_append.mp member
    · -- what was logged stays logged
      have logged := entries.complete d' member id key log entry
      cases entry with
      | newOrder => rw [newOrder]; split <;> simp [logged]
      | order => rw [order]; split <;> simp [logged]
      | customer => rw [customer]; split <;> simp [logged]
      | line _ stored =>
        by_cases own : key ∈ lines.map Prod.fst
        · obtain ⟨⟨key', ol⟩, inside, rfl⟩ := List.mem_map.mp own
          obtain ⟨date, written⟩ := dated _ inside
          simp [written]
        · rw [otherLines key own]
          exact logged
    · cases List.mem_singleton.mp member
      cases entry with
      | newOrder delivers' =>
        obtain ⟨rfl, -⟩ := delivers.unique delivers'
        simp [newOrder]
      | order delivers' =>
        obtain ⟨-, rfl⟩ := delivers.unique delivers'
        simp [order]
      | customer delivers' =>
        obtain ⟨-, rfl⟩ := delivers.unique delivers'
        simp [customer]
      | line delivers' stored own =>
        obtain ⟨-, rfl⟩ := delivers.unique delivers'
        obtain ⟨date, written⟩ := dated (key, _) ((inLines key _).mpr ⟨stored, own⟩)
        simp [written]

end Entries

/-! ## The calls -/

section Calls
variable {scale : Scale} {w d : Nat} {start : Database} {aborts : List Bool} {user : Prop}
  {done : List Nat} {logs : Logs} {no : NewOrder} {o : Order} {input : DeliveryInput}

structure LinesDated (logs : Logs) (lines : List (Nat × OrderLine)) (logs' : Logs) : Prop where
  tables : ∀ id, id ≠ .orderLine → logs' id = logs id
  others : ∀ key, key ∉ lines.map Prod.fst → logs' .orderLine key = logs .orderLine key
  dated : ∀ entry ∈ lines, ∃ date, logs' .orderLine entry.1 =
    some { lt := .update, record := { entry.2 with olDeliveryD := date } }

theorem LinesDated.line {lines : List (Nat × OrderLine)} {logs' : Logs} {entry : Nat × OrderLine}
    (sofar : LinesDated logs lines logs') (next : entry.1 ∉ lines.map Prod.fst) (date : Int) :
    LinesDated logs (lines ++ [entry]) (logs'.set .orderLine entry.1
      { lt := .update, record := { entry.2 with olDeliveryD := date } }) := by
  refine ⟨fun id different => ?_, fun key other => ?_, fun line member => ?_⟩
  · rw [Logs.set_table_of_ne different]
    exact sofar.tables id different
  · rw [List.map_append, List.mem_append, not_or] at other
    rw [Logs.set_key_of_ne (by simpa using other.2)]
    exact sofar.others key other.1
  · obtain member | member := List.mem_append.mp member
    · have different : line.1 ≠ entry.1 := by
        intro same
        exact next (same ▸ List.mem_map_of_mem member)
      rw [Logs.set_key_of_ne different]
      exact sofar.dated line member
    · cases List.mem_singleton.mp member
      exact ⟨date, Logs.set_self⟩

theorem deliverLines_exact (low up : Nat)
    (fresh : ∀ entry ∈ (start.tables .orderLine).rows.range low up,
      logs .orderLine entry.1 = none) :
    Triple (Running start aborts logs) (deliverLines low up)
      (fun total world =>
        total = (((start.tables .orderLine).rows.range low up).map fun e => e.2.olAmount).sum ∧
          ∃ logs', LinesDated logs ((start.tables .orderLine).rows.range low up) logs' ∧
            Running start aborts logs' world)
      (Stopped start aborts user) := by
  unfold deliverLines
  refine Triple.bind_get fun world running => ?_
  rw [running.rows]
  have distinct : (((start.tables .orderLine).rows.range low up).map Prod.fst).Nodup := by
    have ascending := (start.tables .orderLine).rows.ascending.filter
      fun entry => low ≤ entry.1 ∧ entry.1 < up
    exact List.pairwise_map.mpr (ascending.imp fun less => less.ne)
  refine Triple.conseq (Triple.foldlM (fun lines total world =>
    total = (lines.map fun e => e.2.olAmount).sum ∧
      ∃ logs', LinesDated logs lines logs' ∧ Running start aborts logs' world) ?_)
    (fun _ same => ⟨rfl, logs, ⟨fun _ _ => rfl, fun _ _ => rfl, by simp⟩, same ▸ running⟩)
    (fun _ _ holds => holds) fun _ _ stopped => stopped
  rintro lines ⟨key, row⟩ rest total split
  have member : (key, row) ∈ (start.tables .orderLine).rows.range low up := by simp [split]
  have next : key ∉ lines.map Prod.fst := by
    rw [split, List.map_append, List.map_cons] at distinct
    exact fun repeated => (List.nodup_append.mp distinct).2.2 _ repeated _ List.mem_cons_self rfl
  refine Triple.of_fact fun sum => Triple.of_exists fun logs' => Triple.of_fact fun sofar => ?_
  have latest : Latest start logs' .orderLine key row :=
    .inr ⟨(sofar.others key next).trans (fresh _ member), (OrderedMap.mem_range.mp member).1⟩
  refine (prepareRecordForUpdate_spec latest).bind fun found => Triple.of_fact fun same => ?_
  subst same
  refine getTimestamp_spec.bind fun now => ?_
  refine (write_again _).bind fun _ => Triple.pure fun _ running => ?_
  exact ⟨by simp [sum], _, sofar.line next now, running⟩

theorem deliverOrder_exact (ready : Ready scale input.wId start)
    (delivers : Delivers start.rows input.wId d no o)
    (entries : Entries start input.wId input.oCarrierId done logs) (notYet : d ∉ done) :
    Triple (Running start aborts logs) (deliverOrder input d no)
      (fun _ world => ∃ logs', Entries start input.wId input.oCarrierId (done ++ [d]) logs' ∧
        Running start aborts logs' world)
      (Stopped start aborts user) := by
  obtain ⟨c, customer⟩ := ready.exists_customer delivers
  have order := delivers.order
  have oKey := ready.order_key delivers
  have inRange := fun key ol => @Ready.line_range _ _ _ _ _ _ ready delivers key ol
  have noFresh := entries.fresh ready notYet (.newOrder delivers)
  have oFresh := entries.fresh ready notYet (.order delivers)
  have cFresh := entries.fresh ready notYet (.customer delivers customer)
  unfold deliverOrder
  rw [oKey]
  rw [oKey] at order
  refine (prepareRecordForDelete_spec noFresh (by simp [delivers.pending.row])).bind fun _ => ?_
  refine (orKill_spec ready.clean).bind fun _ => ?_
  refine (orKill_spec ready.clean).bind fun _ => ?_
  refine (prepareRecordForUpdate_spec (.inr ⟨by simpa using oFresh, order⟩)).bind
    fun found => Triple.of_fact fun same => ?_
  subst same
  refine (orKill_spec ready.clean).bind fun _ => ?_
  refine (write_again _).bind fun _ => ?_
  refine (orKill_spec ready.clean).bind fun _ => ?_
  refine (deliverLines_exact _ _ ?_).bind fun total => Triple.of_fact fun sum =>
    Triple.of_exists fun logs' => Triple.of_fact fun sofar => ?_
  · rintro ⟨key, ol⟩ member
    obtain ⟨row, bounds⟩ := OrderedMap.mem_range.mp member
    have lineFresh := entries.fresh ready notYet
      (.line delivers row ((inRange key ol row).mp bounds) 0)
    simpa using lineFresh
  · refine (orKill_spec ready.clean).bind fun _ => ?_
    have unlogged : logs' .customer (CustomerKey.createKey input.wId d found.oCId) = none := by
      rw [sofar.tables .customer (by decide)]
      simpa using cFresh
    refine (prepareRecordForUpdate_spec (.inr ⟨unlogged, customer⟩)).bind
      fun c => Triple.of_fact fun same => ?_
    subst same
    refine (orKill_spec ready.clean).bind fun _ => ?_
    refine (write_again _).bind fun _ => ?_
    refine (orKill_spec ready.clean).conseq (fun _ running => running)
      (fun _ _ running => ⟨_, ?_, running⟩) fun _ _ stopped => stopped
    have amounts : total = orderTotal start found.key := by
      rw [sum, orderTotal, OrderedMap.range]
      refine congrArg (fun lines => (List.map _ lines).sum) (List.filter_congr ?_)
      rintro ⟨key, ol⟩ member
      rw [decide_eq_decide]
      exact inRange key ol (OrderedMap.get?_eq_some_iff.mpr member)
    refine entries.deliver _ delivers customer (fun key ol => ?_) ?_ ?_ ?_
      (by simpa using sofar.dated) ?_ ?_
    · rw [OrderedMap.mem_range]
      exact and_congr_right fun row => inRange key ol row
    · intro id quiet
      obtain rfl | rfl | rfl | rfl := quiet <;> simp [sofar.tables]
    · intro key
      rw [Logs.set_table_of_ne (by decide), sofar.tables .newOrder (by decide),
        Logs.set_table_of_ne (by decide), Logs.set_key]
    · intro key
      rw [Logs.set_table_of_ne (by decide), sofar.tables .order (by decide), Logs.set_key,
        Logs.set_table_of_ne (by decide)]
    · intro key other
      rw [Logs.set_table_of_ne (by decide), sofar.others key other]
      simp
    · intro key
      rw [Logs.set_key, sofar.tables .customer (by decide), amounts]
      simp

/-- One turn of the loop, with any lookup that finds the pending order. -/
theorem deliverPending_exact {lookup : Tx (Option NewOrder)} (ready : Ready scale input.wId start)
    (finds : Triple (Running start aborts logs) lookup
      (fun found world => FindsPending start.rows input.wId d found ∧
        Running start aborts logs world) (Stopped start aborts user))
    (entries : Entries start input.wId input.oCarrierId done logs) (notYet : d ∉ done) :
    Triple (Running start aborts logs)
      (lookup >>= fun found => match found with
        | none => pure ()
        | some no => do
            orKill .success
            deliverOrder input d no)
      (fun _ world => ∃ logs', Entries start input.wId input.oCarrierId (done ++ [d]) logs' ∧
        Running start aborts logs' world)
      (Stopped start aborts user) := by
  refine finds.bind fun found => Triple.of_fact fun fact => ?_
  cases found with
  | none => exact Triple.pure fun _ running => ⟨logs, entries.skip fact, running⟩
  | some no =>
    obtain ⟨o, delivers⟩ := ready.exists_order fact
    refine (orKill_spec ready.clean).bind fun _ => ?_
    exact deliverOrder_exact ready delivers entries notYet

/-- The loop over some of the districts. -/
theorem deliverDistricts_exact (input : DeliveryInput) {body : Nat → Tx PUnit}
    {districts : List Nat} (distinct : districts.Nodup)
    (turn : ∀ done logs, ∀ d ∈ districts, d ∉ done →
      Entries start input.wId input.oCarrierId done logs →
      Triple (Running start aborts logs) (body d)
        (fun _ world => ∃ logs', Entries start input.wId input.oCarrierId (done ++ [d]) logs' ∧
          Running start aborts logs' world) (Stopped start aborts user)) :
    Triple (Running start aborts Logs.empty) (districts.forM body)
      (fun _ world => ∃ logs, Entries start input.wId input.oCarrierId districts logs ∧
        Running start aborts logs world)
      (Stopped start aborts user) := by
  refine (Triple.forM (fun done _ world => ∃ logs,
    Entries start input.wId input.oCarrierId done logs ∧ Running start aborts logs world)
    fun done dId rest split => Triple.of_exists fun logs => Triple.of_fact fun entries => ?_).pre_of
      fun world running => ⟨Logs.empty, ⟨nofun, nofun⟩, running⟩
  refine turn done logs dId (by simp [split]) (fun repeated => ?_) entries
  rw [split] at distinct
  exact (List.nodup_append.mp distinct).2.2 _ repeated _ List.mem_cons_self rfl

theorem nodup_ids (count : Nat) : (ids count).Nodup := List.nodup_range'

end Calls

/-! ## The write set -/

def Oldest (rows : Rows) (w d key : Nat) : Prop :=
  ∃ no, rows .newOrder key = some no ∧ no.noWId = w ∧ no.noDId = d ∧
    ∀ key' no', rows .newOrder key' = some no' → no'.noWId = w → no'.noDId = d →
      no.noOId ≤ no'.noOId

structure DeliveryLogs (rows : Rows) (w : Nat) (done : List Nat) (logs : Logs) : Prop where
  quiet : ∀ id, id = .item ∨ id = .warehouse ∨ id = .stock ∨ id = .district →
    logs id = fun _ => none
  updates : ∀ id, id = .customer ∨ id = .order ∨ id = .orderLine → Updates rows logs id
  newOrder : ∀ key log, logs .newOrder key = some log →
    log.lt = .delete ∧ ∃ d ∈ done, Oldest rows w d key
  delivered : ∀ d ∈ done, ∀ key, Oldest rows w d key → (logs .newOrder key).isSome

theorem Entries.deliveryLogs {scale : Scale} {start : Database} {w carrier : Nat}
    {done : List Nat} {logs : Logs} (entries : Entries start w carrier done logs)
    (ready : Ready scale w start) : DeliveryLogs start.rows w done logs := by
  refine ⟨fun id quiet => ?_, fun id updated key log logged => ?_, fun key log logged => ?_,
    fun d member key oldest => ?_⟩
  · funext key
    by_contra some'
    obtain ⟨log, logged⟩ := Option.ne_none_iff_exists'.mp some'
    obtain ⟨d, -, entry⟩ := entries.sound id key log logged
    cases entry <;> simp at quiet
  · obtain ⟨d, -, entry⟩ := entries.sound id key log logged
    cases entry with
    | newOrder => simp at updated
    | @order no o delivers =>
      exact ⟨rfl, o, ready.order_key delivers ▸ delivers.order, rfl, rfl, rfl, rfl, rfl⟩
    | line _ row => exact ⟨rfl, _, row, rfl, rfl, rfl, rfl, rfl⟩
    | customer _ row => exact ⟨rfl, _, row, rfl⟩
  · obtain ⟨d, member, entry⟩ := entries.sound .newOrder key log logged
    cases entry with
    | newOrder delivers =>
      have pending := delivers.pending
      exact ⟨rfl, d, member, _, pending.row, pending.warehouse, pending.district, pending.least⟩
  · obtain ⟨no, row, sameW, sameD, least⟩ := oldest
    obtain rfl := (ready.undelivered.row key no row).1
    obtain ⟨o, delivers⟩ := ready.exists_order ⟨row, sameW, sameD, least⟩
    exact entries.complete d member _ _ _ (.newOrder delivers)

theorem deliveryTx_spec {scale : Scale} {start : Database} {aborts : List Bool} {user : Prop}
    {input : DeliveryInput} (clean : start.Clean) (valid : scale.Valid)
    (base : Base scale start.rows) (undelivered : Undelivered scale start.rows)
    (validInput : input.Valid scale) :
    Triple (Running start aborts Logs.empty) (deliveryTx input)
      (fun _ world => ∃ logs, DeliveryLogs start.rows input.wId (ids distsPerWare) logs ∧
        Committed start logs world)
      (Stopped start aborts user) := by
  have ready : Ready scale input.wId start :=
    ⟨clean, valid, base, undelivered, validInput.warehouse⟩
  unfold deliveryTx
  refine (deliverDistricts_exact input (nodup_ids _) fun done logs d member notYet entries =>
    ?_).bind fun _ => Triple.of_exists fun logs => Triple.of_fact fun entries => ?_
  · exact deliverPending_exact ready (getNeworder_spec ready (ready.inDistrict member)) entries
      notYet
  · exact commit_spec.conseq (fun _ running => running)
      (fun _ _ committed => ⟨logs, entries.deliveryLogs ready, committed⟩)
      fun _ _ stopped => stopped

end TpccRunner.Tpcc
