import Mathlib
import TpccRunner.Tpcc.Preservation

/-!
# Runs of the TPC-C benchmark on the naive protocol

A run is a sequence of completed calls of `run_with_retry` with any draws.  The consistency
conditions hold after every call as long as a district that takes a new order has an order id
left: `d_next_o_id` is a `uint32_t`, and the counter of a district that has used up its ids
starts over.
-/

set_option autoImplicit false

namespace TpccRunner.Tpcc

open Lib Naive

variable {scale : Scale}

def TxInput.Valid (scale : Scale) (rows : Rows) : TxInput → Prop
  | .newOrder input => input.Valid scale
  | .payment input => input.Valid scale rows
  | .orderStatus input => input.Valid scale rows
  | .delivery input => input.Valid scale
  | .stockLevel input => input.Valid scale

def TxInput.HasId (rows : Rows) : TxInput → Prop
  | .newOrder input => nextOId rows input.wId input.dId + 1 < 2 ^ 32
  | _ => True

def TxInput.UserAborts : TxInput → Prop
  | .newOrder input => input.Unused
  | _ => False

def ValidInputs (scale : Scale) (db : Database) (attempts : List Attempt) : Prop :=
  ∀ attempt ∈ attempts, attempt.input.Valid scale db.rows

def Admitted (scale : Scale) (db : Database) (attempts : List Attempt) : Prop :=
  ∀ attempt ∈ attempts, attempt.input.Valid scale db.rows ∧ attempt.input.HasId db.rows

theorem apply_empty (rows : Rows) : Logs.empty.apply rows = rows := rfl

/-! ## One attempt -/

theorem TxInput.run_spec {start : Database} {aborts : List Bool} {input : TxInput}
    (clean : start.Clean) (inv : Inv scale start.rows) (valid : scale.Valid)
    (validInput : input.Valid scale start.rows) :
    Triple (Running start aborts Logs.empty) input.run
      (fun _ w => w.db.Clean ∧ (input.HasId start.rows → Inv scale w.db.rows))
      (Stopped start aborts input.UserAborts) := by
  have readOnly : ∀ w : World, Committed start Logs.empty w →
      w.db.Clean ∧ (input.HasId start.rows → Inv scale w.db.rows) := by
    intro w committed
    refine ⟨committed.clean, fun _ => ?_⟩
    rw [committed.rows_eq, apply_empty]
    exact inv
  cases input with
  | newOrder input =>
    obtain ⟨d, district⟩ := inv.base.district _ _ validInput.district
    refine (newOrderTx_spec clean inv.base.toPopulation valid validInput district).conseq
      (fun _ running => running) (fun _ w result => ?_) fun _ _ stopped => stopped
    obtain ⟨logs, logged, committed⟩ := result
    refine ⟨committed.clean, fun hasId => ?_⟩
    rw [committed.rows_eq]
    have small : nextOId start.rows input.wId input.dId + 1 < 2 ^ 32 := hasId
    rw [nextOId_eq district] at small
    exact inv.newOrder logged valid validInput district small
  | payment input =>
    obtain ⟨w, warehouse⟩ := inv.base.warehouse _ validInput.district.warehouse
    obtain ⟨d, district⟩ := inv.base.district _ _ validInput.district
    refine (paymentTx_spec clean inv.base validInput warehouse district).conseq
      (fun _ running => running) (fun _ world result => ?_) fun _ _ stopped => stopped
    obtain ⟨cKey, c, customer, committed⟩ := result
    refine ⟨committed.clean, fun _ => ?_⟩
    rw [committed.rows_eq]
    exact inv.payment valid validInput.district warehouse district customer
  | orderStatus input =>
    exact (orderStatusTx_spec clean inv.base validInput).conseq (fun _ running => running)
      (fun _ w committed => readOnly w committed) fun _ _ stopped => stopped
  | delivery input =>
    refine (deliveryTx_spec clean valid inv.base inv.undelivered validInput).conseq
      (fun _ running => running) (fun _ w result => ?_) fun _ _ stopped => stopped
    obtain ⟨logs, logged, committed⟩ := result
    refine ⟨committed.clean, fun _ => ?_⟩
    rw [committed.rows_eq]
    exact inv.delivery valid logged
  | stockLevel input =>
    exact (stockLevelTx_spec clean inv.base validInput).conseq (fun _ running => running)
      (fun _ w committed => readOnly w committed) fun _ _ stopped => stopped

/-- A valid attempt commits or is aborted; it never ends with a bug or an exception. -/
theorem Attempt.result_cases {db : Database} {attempt : Attempt} (clean : db.Clean)
    (inv : Inv scale db.rows) (valid : scale.Valid)
    (validInput : attempt.input.Valid scale db.rows) :
    (∃ w, attempt.input.run.result (attempt.start db) = (.ok (), w) ∧ w.db.Clean ∧
        (attempt.input.HasId db.rows → Inv scale w.db.rows)) ∨
      (∃ w, attempt.input.run.result (attempt.start db) = (.error (.status .userAbort), w) ∧
        w.db.clearAll = db) ∨
      ∃ w, attempt.input.run.result (attempt.start db) = (.error (.status .systemAbort), w) ∧
        w.db = db := by
  have outcome := TxInput.run_spec clean inv valid validInput (attempt.start db)
    (Running.initial clean)
  cases result : attempt.input.run.result (attempt.start db) with
  | mk value w =>
    rw [result] at outcome
    cases value with
    | ok _ => exact .inl ⟨w, rfl, outcome⟩
    | error code =>
      cases code with
      | exception message => exact absurd outcome id
      | status status =>
        cases status with
        | success => exact absurd outcome id
        | bug => exact absurd outcome id
        | userAbort => exact .inr (.inl ⟨w, rfl, outcome.1⟩)
        | systemAbort => exact .inr (.inr ⟨w, rfl, outcome.1⟩)

theorem runWithRetry_inv {attempts : List Attempt} {db after : Database} (clean : db.Clean)
    (inv : Inv scale db.rows) (valid : scale.Valid) (admitted : Admitted scale db attempts)
    (completed : runWithRetry attempts db = some after) :
    after.Clean ∧ Inv scale after.rows := by
  induction attempts with
  | nil => cases completed
  | cons attempt rest ih =>
    obtain ⟨validInput, hasId⟩ := admitted attempt List.mem_cons_self
    unfold runWithRetry at completed
    obtain ⟨w, result, cleanAfter, invAfter⟩ | ⟨w, result, restored⟩ | ⟨w, result, same⟩ :=
      Attempt.result_cases clean inv valid validInput
    · simp only [result] at completed
      split at completed
      · cases completed
        exact ⟨cleanAfter, invAfter hasId⟩
      · cases completed
    · simp only [result] at completed
      split at completed
      · cases completed
        rw [restored]
        exact ⟨clean, inv⟩
      · cases completed
    · simp only [result, same] at completed
      exact ih (fun other member => admitted other (List.mem_cons_of_mem _ member)) completed

/-! ## The conditions -/

def orderIdsOf (rows : Rows) (w d : Nat) : Set Nat :=
  { id | ∃ key o, rows .order key = some o ∧ o.oWId = w ∧ o.oDId = d ∧ o.oId = id }

def newOrderIdsOf (rows : Rows) (w d : Nat) : Set Nat :=
  { id | ∃ key no, rows .newOrder key = some no ∧ no.noWId = w ∧ no.noDId = d ∧ no.noOId = id }

def LineOf (rows : Rows) (o : Order) (n key : Nat) : Prop :=
  ∃ ol, rows .orderLine key = some ol ∧ ol.olWId = o.oWId ∧ ol.olDId = o.oDId ∧
    ol.olOId = o.oId ∧ ol.olNumber = n

structure Conditions (scale : Scale) (rows : Rows) : Prop where
  /-- `w_ytd` is the sum of `d_ytd`. -/
  ytd : ∀ w, 1 ≤ w ∧ w ≤ scale.warehouses →
    ∃ r, rows .warehouse (WarehouseKey.createKey w) = some r ∧
      r.wYtd = ∑ d ∈ Finset.Icc 1 distsPerWare, districtYtd rows w d
  /-- `d_next_o_id - 1` is the largest `o_id`. -/
  largest : ∀ w d, InDistrict scale w d →
    ∃ r, rows .district (DistrictKey.createKey w d) = some r ∧
      IsGreatest (orderIdsOf rows w d) (r.dNextOId - 1)
  /-- The `NewOrder`s, if any, are an interval that ends at `d_next_o_id - 1`. -/
  newOrders : ∀ w d, InDistrict scale w d →
    ∃ first, newOrderIdsOf rows w d = Set.Ico first (nextOId rows w d)
  /-- An order has the lines `1 .. o_ol_cnt`, each of them once. -/
  lines : ∀ key o, rows .order key = some o → ∀ n,
    (1 ≤ n ∧ n ≤ o.oOlCnt → ∃! line, LineOf rows o n line) ∧
      (∀ line, LineOf rows o n line → 1 ≤ n ∧ n ≤ o.oOlCnt)
  /-- Every order line belongs to an order. -/
  noOther : ∀ key ol, rows .orderLine key = some ol →
    ∃ orderKey o, rows .order orderKey = some o ∧ LineOf rows o ol.olNumber key

theorem Inv.conditions {rows : Rows} (inv : Inv scale rows) (valid : scale.Valid) :
    Conditions scale rows := by
  have base := inv.base
  refine ⟨?_, ?_, ?_, ?_, ?_⟩
  · intro w inRange
    obtain ⟨r, present⟩ := base.warehouse w inRange
    have balanced := inv.balanced w inRange
    unfold warehouseYtd at balanced
    rw [present] at balanced
    exact ⟨r, present, balanced⟩
  · intro w d inDistrict
    obtain ⟨r, present⟩ := base.district w d inDistrict
    have next := nextOId_eq present
    have two := base.next w d inDistrict
    have bound := base.nextBound w d inDistrict
    rw [next] at two bound
    refine ⟨r, present, ?_, ?_⟩
    · obtain ⟨o, order⟩ := Option.isSome_iff_exists.mp
        (base.orders w d inDistrict (r.dNextOId - 1) (by omega) (by omega))
      exact ⟨_, o, order, base.order_at valid inDistrict (by omega) order⟩
    · rintro id ⟨key, o, order, rfl, rfl, rfl⟩
      have below := (base.orderRow key o order).id.2
      omega
  · intro w d inDistrict
    obtain ⟨first, positive, -, interval⟩ := inv.undelivered.interval w d inDistrict
    have bound := base.nextBound w d inDistrict
    refine ⟨first, Set.ext fun id => ⟨?_, ?_⟩⟩
    · rintro ⟨key, no, present, rfl, rfl, rfl⟩
      obtain ⟨keyed, -, atLeast, below⟩ := inv.undelivered.row key no present
      rw [keyed] at present
      exact ⟨(interval no.noOId atLeast below).mp (Option.isSome_iff_exists.mpr ⟨no, present⟩),
        below⟩
    · rintro ⟨later, below⟩
      obtain ⟨no, present⟩ := Option.isSome_iff_exists.mp
        ((interval id (by omega) below).mpr later)
      exact ⟨_, no, present, inv.undelivered.ids_of_key base.toPopulation valid inDistrict
        (by omega) present⟩
  · intro key o order n
    have lineKey : ∀ line, LineOf rows o n line →
        line = OrderLineKey.createKey o.oWId o.oDId o.oId n ∧ 1 ≤ n ∧ n ≤ o.oOlCnt := by
      rintro line ⟨ol, present, sameW, sameD, sameO, rfl⟩
      obtain ⟨keyed, -, o', order', -, -, -, positive, below⟩ := base.lineRow line ol present
      have sameOrder : ol.orderKey = o.key := by
        unfold OrderLine.orderKey Order.key
        rw [sameW, sameD, sameO]
      rw [sameOrder, ← (base.orderRow key o order).key] at order'
      cases Option.some.inj (order.symm.trans order')
      refine ⟨?_, positive, below⟩
      rw [keyed, OrderLine.key, sameW, sameD, sameO]
    refine ⟨fun inRange => ?_, fun line isLine => (lineKey line isLine).2⟩
    obtain ⟨ol, present⟩ := Option.isSome_iff_exists.mp
      (base.lines key o order n inRange.1 inRange.2)
    obtain ⟨keyed, -, o', order', sameW, sameD, sameO, -, below⟩ := base.lineRow _ ol present
    have row := base.orderRow key o order
    have row' := base.orderRow _ o' order'
    have bounds := row.district.bounds valid
    have bounds' := row'.district.bounds valid
    have limit := base.nextBound _ _ row.district
    have limit' := base.nextBound _ _ row'.district
    have few := row.lines
    have few' := row'.lines
    have id := row.id
    have id' := row'.id
    rw [sameW, sameD] at bounds'
    obtain ⟨ow, od, oo, on⟩ := (OrderLineKey.createKey_inj bounds.1 bounds.2 (by omega) (by omega)
      bounds'.1 bounds'.2 (by omega) (by omega)).mp keyed
    refine ⟨_, ⟨ol, present, ow.symm, od.symm, oo.symm, on.symm⟩, ?_⟩
    exact fun line isLine => (lineKey line isLine).1
  · intro key ol present
    obtain ⟨-, -, o, order, sameW, sameD, sameO, -, -⟩ := base.lineRow key ol present
    exact ⟨_, o, order, ol, present, sameW.symm, sameD.symm, sameO.symm, rfl⟩

theorem clean_load (scale : Scale) (g : Generated) : (loadAllTables scale g).Clean :=
  ⟨fun _ => rfl, rfl⟩

/-- In every run from a loaded database whose new orders find an id that is left, the
consistency conditions hold after every completed call. -/
theorem consistency_conditions (scale : Scale) (g : Generated) (valid : scale.Valid)
    (generated : g.Valid scale) (trace : List (List Attempt)) (final : Database)
    (run : Run step (Admitted scale) (loadAllTables scale g) trace final) :
    Conditions scale final.rows := by
  have kept : final.Clean ∧ Inv scale final.rows :=
    run.invariant (fun db => db.Clean ∧ Inv scale db.rows)
      ⟨clean_load scale g, inv_load valid generated⟩
      fun _ _ _ holds admitted taken => runWithRetry_inv holds.1 holds.2 valid admitted taken
  exact kept.2.conditions valid

/-! ## Using up the ids of a district -/

def smallOrderCall : List Attempt := [{ input := .newOrder smallOrder, aborts := [], clock := 0 }]

def plainDraws : Generated := drawsWith 0

theorem plainDraws_valid : plainDraws.Valid (Scale.tpcc 1) :=
  ⟨fun _ _ _ => ⟨le_rfl, (by decide : 5 ≤ 15)⟩, fun _ _ _ inRange => inRange,
    fun _ _ _ _ => ⟨le_rfl, (by decide : 1 ≤ 100000)⟩⟩

theorem smallOrder_valid : smallOrder.Valid (Scale.tpcc 1) := by
  refine ⟨⟨⟨le_rfl, le_rfl⟩, le_rfl, by decide⟩, ⟨le_rfl, by decide⟩, ⟨le_rfl, by decide⟩, ?_, ?_,
    ?_⟩
  · exact fun _ _ => ⟨(by decide : 1 ≤ 2), (by decide : 2 ≤ 100000)⟩
  · exact fun _ _ => ⟨le_rfl, le_rfl⟩
  · exact fun _ _ => ⟨le_rfl, (by decide : 1 ≤ 10)⟩

theorem smallOrder_used : ¬ smallOrder.Unused := by
  rintro ⟨i, -, unused⟩
  exact absurd unused (by decide : 2 ≠ 1)

theorem tpcc_one_valid : (Scale.tpcc 1).Valid := Scale.tpcc_valid (by decide)

theorem inDistrict_one : InDistrict (Scale.tpcc 1) 1 1 := smallOrder_valid.district

theorem smallOrderCall_commits {db : Database} (clean : db.Clean)
    (population : Population (Scale.tpcc 1) db.rows) :
    ∃ after d logs, step db smallOrderCall = some after ∧ after.Clean ∧
      db.rows .district (DistrictKey.createKey 1 1) = some d ∧
      NewOrderLogs smallOrder d (Scale.tpcc 1) db.rows smallOrder.olCnt logs ∧
      after.rows = logs.apply db.rows := by
  obtain ⟨d, district⟩ := population.district 1 1 inDistrict_one
  have outcome := newOrderTx_spec clean population tpcc_one_valid smallOrder_valid district
    { db := db, aborts := [], clock := 0 } (Running.initial clean)
  cases result : (newOrderTx smallOrder).result { db := db, aborts := [], clock := 0 } with
  | mk value w =>
    rw [result] at outcome
    cases value with
    | ok _ =>
      obtain ⟨logs, logged, committed⟩ := outcome
      refine ⟨w.db, d, logs, ?_, committed.clean, district, logged, committed.rows_eq⟩
      simp [step, smallOrderCall, runWithRetry, TxInput.run, Attempt.start, result]
    | error code =>
      cases code with
      | exception message => exact absurd outcome id
      | status status =>
        cases status with
        | success => exact absurd outcome id
        | bug => exact absurd outcome id
        | userAbort => exact absurd outcome.2 smallOrder_used
        | systemAbort => exact absurd outcome.2 List.not_mem_nil

theorem smallOrderCall_valid (db : Database) :
    ValidInputs (Scale.tpcc 1) db smallOrderCall := by
  intro attempt member
  cases List.mem_singleton.mp member
  exact smallOrder_valid

theorem smallOrderCall_admitted {db : Database} (left : nextOId db.rows 1 1 + 1 < 2 ^ 32) :
    Admitted (Scale.tpcc 1) db smallOrderCall := by
  intro attempt member
  cases List.mem_singleton.mp member
  exact ⟨smallOrder_valid, left⟩

theorem smallOrderCall_nextOId {db after : Database} {d : District} {logs : Logs}
    (district : db.rows .district (DistrictKey.createKey 1 1) = some d)
    (logged : NewOrderLogs smallOrder d (Scale.tpcc 1) db.rows smallOrder.olCnt logs)
    (rows : after.rows = logs.apply db.rows) :
    nextOId after.rows 1 1 = (nextOId db.rows 1 1 + 1) % 2 ^ 32 := by
  have next := logged.nextOId tpcc_one_valid smallOrder_valid district inDistrict_one
  rw [if_pos ⟨rfl, rfl⟩] at next
  rw [rows, next, nextOId_eq district]

theorem smallOrderCall_inv {db : Database} (clean : db.Clean) (inv : Inv (Scale.tpcc 1) db.rows)
    (left : nextOId db.rows 1 1 + 1 < 2 ^ 32) :
    ∃ after, step db smallOrderCall = some after ∧ after.Clean ∧
      Inv (Scale.tpcc 1) after.rows ∧ nextOId after.rows 1 1 = nextOId db.rows 1 1 + 1 := by
  obtain ⟨after, d, logs, taken, -, district, logged, rows⟩ :=
    smallOrderCall_commits clean inv.base.toPopulation
  obtain ⟨cleanAfter, invAfter⟩ :=
    runWithRetry_inv clean inv tpcc_one_valid (smallOrderCall_admitted left) taken
  refine ⟨after, taken, cleanAfter, invAfter, ?_⟩
  rw [smallOrderCall_nextOId district logged rows]
  exact Nat.mod_eq_of_lt left

theorem load_next_one : nextOId (loadAllTables (Scale.tpcc 1) plainDraws).rows 1 1 = 3001 :=
  load_nextOId tpcc_one_valid inDistrict_one

theorem consistency_conditions_smallOrder :
    ∃ final, Run step (Admitted (Scale.tpcc 1)) (loadAllTables (Scale.tpcc 1) plainDraws)
        [smallOrderCall] final ∧
      nextOId final.rows 1 1 = 3002 ∧ Conditions (Scale.tpcc 1) final.rows := by
  have left : nextOId (loadAllTables (Scale.tpcc 1) plainDraws).rows 1 1 + 1 < 2 ^ 32 := by
    rw [load_next_one]
    norm_num
  obtain ⟨final, taken, -, -, next⟩ := smallOrderCall_inv (clean_load _ _)
    (inv_load tpcc_one_valid plainDraws_valid) left
  have run : Run step (Admitted (Scale.tpcc 1)) (loadAllTables (Scale.tpcc 1) plainDraws)
      [smallOrderCall] final := Run.single (smallOrderCall_admitted left) taken
  rw [load_next_one] at next
  exact ⟨final, run, next,
    consistency_conditions _ _ tpcc_one_valid plainDraws_valid _ _ run⟩

theorem smallOrders_reach (next : Nat) (loaded : 3001 ≤ next) (bound : next < 2 ^ 32) :
    ∃ trace final, Run step (ValidInputs (Scale.tpcc 1))
        (loadAllTables (Scale.tpcc 1) plainDraws) trace final ∧
      final.Clean ∧ Inv (Scale.tpcc 1) final.rows ∧ nextOId final.rows 1 1 = next := by
  induction next, loaded using Nat.le_induction with
  | base =>
    exact ⟨[], _, .nil, clean_load _ _, inv_load tpcc_one_valid plainDraws_valid, load_next_one⟩
  | succ next loaded ih =>
    obtain ⟨trace, db, run, clean, inv, reached⟩ := ih (by omega)
    obtain ⟨after, taken, cleanAfter, invAfter, nextAfter⟩ :=
      smallOrderCall_inv clean inv (by omega)
    exact ⟨_, after, run.snoc (smallOrderCall_valid db) taken, cleanAfter, invAfter,
      by omega⟩

/-- After `2 ^ 32 - 3001` new orders the counter is zero, and after one more it is one while the
order with the largest id is still there. -/
theorem order_ids_start_over :
    plainDraws.Valid (Scale.tpcc 1) ∧ ∃ trace final,
      Run step (ValidInputs (Scale.tpcc 1)) (loadAllTables (Scale.tpcc 1) plainDraws) trace final ∧
      nextOId final.rows 1 1 = 1 ∧ 2 ^ 32 - 1 ∈ orderIdsOf final.rows 1 1 ∧
      ¬ Conditions (Scale.tpcc 1) final.rows := by
  refine ⟨plainDraws_valid, ?_⟩
  obtain ⟨trace, db, run, clean, inv, next⟩ :=
    smallOrders_reach (2 ^ 32 - 1) (by norm_num) (by norm_num)
  have population := inv.base.toPopulation
  obtain ⟨db₁, d, logs, taken, clean₁, district, logged, rows⟩ :=
    smallOrderCall_commits clean population
  have next₁ := smallOrderCall_nextOId district logged rows
  have population₁ : Population (Scale.tpcc 1) db₁.rows := by
    rw [rows]
    exact logged.population population tpcc_one_valid smallOrder_valid district
  obtain ⟨db₂, d₁, logs₁, taken₁, -, district₁, logged₁, rows₁⟩ :=
    smallOrderCall_commits clean₁ population₁
  have next₂ := smallOrderCall_nextOId district₁ logged₁ rows₁
  have one : nextOId db₂.rows 1 1 = 1 := by omega
  have largest : 2 ^ 32 - 1 ∈ orderIdsOf db₂.rows 1 1 := by
    obtain ⟨now, order⟩ := logged.order_row
      (order_absent inv.base tpcc_one_valid smallOrder_valid district)
    have present := (congrFun (congrFun rows .order) _).trans ((order _).trans (if_pos rfl))
    refine ⟨_, _, (congrFun (congrFun rows₁ .order) _).trans (logged₁.order_of_some present),
      rfl, rfl, ?_⟩
    exact (nextOId_eq district).symm.trans next
  refine ⟨_, db₂, (run.snoc (smallOrderCall_valid db) taken).snoc (smallOrderCall_valid db₁) taken₁,
    one, largest, ?_⟩
  intro conditions
  obtain ⟨r, present, -, greatest⟩ := conditions.largest 1 1 inDistrict_one
  have value := nextOId_eq present
  have below := greatest largest
  omega

end TpccRunner.Tpcc
