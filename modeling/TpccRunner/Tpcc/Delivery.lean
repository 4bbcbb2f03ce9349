import Mathlib
import TpccRunner.Tpcc.Consistency

/-!
# What a Delivery does

`get_neworder_with_smallest_key_no_less_than` dereferences the lower bound without comparing
it to `end()`.  What is read there when no `NewOrder` is left above the bound is an input:
a key, and the object behind the pointer next to it.  `DeliveryEffect` is what a committed
Delivery should do.
-/

set_option autoImplicit false

namespace TpccRunner.Tpcc

open Lib Naive Tx

/-! ## The lookup without a check -/

/-- `get_neworder_with_smallest_key_no_less_than`; `beyond` is what `end()` reads as. -/
def getNeworderUnchecked (beyond : Nat × NewOrder) (low : Nat) : Tx (Option NewOrder) := do
  let found := (((← get).db.tables .newOrder).rows.lowerBound low).getD beyond
  -- the bit fields of the warehouse and the district
  pure (if found.1 / 2 ^ 32 % 2 ^ 24 = low / 2 ^ 32 % 2 ^ 24 then some found.2 else none)

/-- One turn of the loop of `DeliveryTx::run`. -/
def deliverDistrictUnchecked (beyond : Nat × NewOrder) (input : DeliveryInput) (dId : Nat) :
    Tx PUnit := do
  match ← getNeworderUnchecked beyond (NewOrderKey.createKey input.wId dId 1) with
  | none => pure ()
  | some no =>
    orKill .success
    deliverOrder input dId no

def deliveryTxUnchecked (beyond : Nat × NewOrder) (input : DeliveryInput) : Tx Unit := do
  (ids distsPerWare).forM (deliverDistrictUnchecked beyond input)
  commit

/-! ## The effect -/

/-- `clock` is what `get_timestamp` counts from. -/
structure DeliveryEffect (w carrier : Nat) (start : Database) (clock : Int) (world : World) :
    Prop where
  /-- A district with `NewOrder`s has one that is delivered. -/
  delivers : ∀ d ∈ ids distsPerWare, ∀ key no, start.rows .newOrder key = some no →
    no.noWId = w → no.noDId = d → ∃ no o, Delivers start.rows w d no o
  removed : ∀ d ∈ ids distsPerWare, ∀ no o, Delivers start.rows w d no o →
    world.db.rows .newOrder no.key = none
  otherNewOrders : ∀ key,
    (∀ d ∈ ids distsPerWare, ∀ no o, Delivers start.rows w d no o → key ≠ no.key) →
      world.db.rows .newOrder key = start.rows .newOrder key
  carried : ∀ d ∈ ids distsPerWare, ∀ no o, Delivers start.rows w d no o →
    world.db.rows .order o.key = some { o with oCarrierId := carrier }
  otherOrders : ∀ key,
    (∀ d ∈ ids distsPerWare, ∀ no o, Delivers start.rows w d no o → key ≠ o.key) →
      world.db.rows .order key = start.rows .order key
  dated : ∀ d ∈ ids distsPerWare, ∀ no o, Delivers start.rows w d no o → ∀ key ol,
    start.rows .orderLine key = some ol → ol.orderKey = o.key →
      ∃ date, clock ≤ date ∧ date < world.clock ∧
        world.db.rows .orderLine key = some { ol with olDeliveryD := date }
  otherLines : ∀ key,
    (∀ d ∈ ids distsPerWare, ∀ no o, Delivers start.rows w d no o → ∀ ol,
      start.rows .orderLine key = some ol → ol.orderKey ≠ o.key) →
        world.db.rows .orderLine key = start.rows .orderLine key
  credited : ∀ d ∈ ids distsPerWare, ∀ no o, Delivers start.rows w d no o →
    ∃ c, start.rows .customer (CustomerKey.createKey w d o.oCId) = some c ∧
      world.db.rows .customer (CustomerKey.createKey w d o.oCId) = some { c with
        cBalance := c.cBalance + orderTotal start o.key, cDeliveryCnt := c.cDeliveryCnt + 1 }
  otherCustomers : ∀ key,
    (∀ d ∈ ids distsPerWare, ∀ no o, Delivers start.rows w d no o →
      key ≠ CustomerKey.createKey w d o.oCId) →
        world.db.rows .customer key = start.rows .customer key
  otherTables : ∀ id, id = .item ∨ id = .warehouse ∨ id = .stock ∨ id = .district →
    world.db.rows id = start.rows id
  history : world.db.history = start.history

/-- A Delivery has its effect, or an injected abort restores the database. -/
def DeliveryOutcome (w carrier : Nat) (start : Database) (clock : Int) :
    Except Exit Unit × World → Prop
  | (.ok _, world) => DeliveryEffect w carrier start clock world
  | (.error code, world) => code = .status .systemAbort ∧ world.db = start

/-! ## The calls -/

section Calls
variable {scale : Scale} {w d : Nat} {start : Database} {aborts : List Bool} {user : Prop}
  {logs : Logs} {input : DeliveryInput} {beyond : Nat × NewOrder}

theorem packKey_group {w d i : Nat} : packKey w d i / 2 ^ 32 % 2 ^ 24 = packKey w d i / 2 ^ 32 := by
  unfold packKey
  omega

theorem packKey_mono_district {w d d' i : Nat} (bound : d' < 2 ^ 8) (less : d ≤ d') :
    packKey w d i ≤ packKey w d' i := by
  unfold packKey
  omega

def HasTail (start : Database) (w : Nat) : Prop :=
  ∃ key no, start.rows .newOrder key = some no ∧
    NewOrderKey.createKey w distsPerWare 1 ≤ key

/-- What is behind the end does not matter if it is not reached, or is no key of the district. -/
theorem getNeworderUnchecked_spec (ready : Ready scale w start) (member : d ∈ ids distsPerWare)
    (unseen : (start.tables .newOrder).rows.lowerBound (NewOrderKey.createKey w d 1) = none →
      beyond.1 / 2 ^ 32 % 2 ^ 24 ≠ NewOrderKey.createKey w d 1 / 2 ^ 32 % 2 ^ 24) :
    Triple (Running start aborts logs)
      (getNeworderUnchecked beyond (NewOrderKey.createKey w d 1))
      (fun found world => FindsPending start.rows w d found ∧ Running start aborts logs world)
      (Stopped start aborts user) := by
  intro world running
  have finds := ready.lowerBound (ready.inDistrict member)
  simp only [getNeworderUnchecked, Program.result_bind, Program.result_get,
    running.rows .newOrder, Program.result_pure]
  cases found : (start.tables .newOrder).rows.lowerBound (NewOrderKey.createKey w d 1) with
  | none =>
    rw [found] at finds
    rw [Option.getD_none, if_neg (unseen found)]
    exact ⟨finds, running⟩
  | some entry =>
    obtain ⟨key, no⟩ := entry
    rw [found] at finds
    obtain ⟨present, -, -⟩ := OrderedMap.lowerBound_eq_some found
    refine ⟨?_, running⟩
    simp only [(ready.undelivered.row key no present).1, NewOrder.key, NewOrderKey.createKey]
      at finds
    simp only [Option.getD_some, (ready.undelivered.row key no present).1, NewOrder.key,
      NewOrderKey.createKey, packKey_group]
    exact finds

/-- The bound of every district is at most that of the last one. -/
theorem HasTail.lowerBound_ne_none (tail : HasTail start w) (member : d ∈ ids distsPerWare) :
    (start.tables .newOrder).rows.lowerBound (NewOrderKey.createKey w d 1) ≠ none := by
  intro found
  obtain ⟨key, no, row, above⟩ := tail
  have low : NewOrderKey.createKey w d 1 ≤ key :=
    (packKey_mono_district (by decide) (mem_ids.mp member).2).trans above
  have absent := OrderedMap.lowerBound_eq_none found key low
  exact absurd (row.symm.trans absent) (by simp)

theorem deliverDistrictUnchecked_exact {done : List Nat} (ready : Ready scale input.wId start)
    (member : d ∈ ids distsPerWare)
    (unseen :
      (start.tables .newOrder).rows.lowerBound (NewOrderKey.createKey input.wId d 1) = none →
      beyond.1 / 2 ^ 32 % 2 ^ 24 ≠ NewOrderKey.createKey input.wId d 1 / 2 ^ 32 % 2 ^ 24)
    (notYet : d ∉ done) (entries : Entries start input.wId input.oCarrierId done logs) :
    Triple (Running start aborts logs) (deliverDistrictUnchecked beyond input d)
      (fun _ world => ∃ logs', Entries start input.wId input.oCarrierId (done ++ [d]) logs' ∧
        Running start aborts logs' world) (Stopped start aborts user) :=
  deliverPending_exact ready (getNeworderUnchecked_spec ready member unseen) entries notYet

end Calls

/-! ## The dates -/

section Dates
variable {clock : Int} {mine : Option Nat} {exit : Exit → World → Prop}

/-- The logged order lines, except the one being written, have dates that were read from the
clock since it showed `clock`; nothing is logged for the history. -/
structure Dates (clock : Int) (mine : Option Nat) (world : World) : Prop where
  history : world.db.historyWs = []
  later : clock ≤ world.clock
  dated : ∀ key log, some key ≠ mine → (world.db.tables .orderLine).ws.get? key = some log →
    clock ≤ log.record.olDeliveryD ∧ log.record.olDeliveryD < world.clock

theorem Dates.set {world : World} (dates : Dates clock mine world) {id : TableId}
    (other : id ≠ .orderLine) (table : Relation Nat (RecordOf id)) :
    Dates clock mine { world with db := world.db.set id table } := by
  refine ⟨dates.history, dates.later, fun key log notMine logged => ?_⟩
  simp only [Database.set, Function.update_of_ne other.symm] at logged
  exact dates.dated key log notMine logged

theorem orKill_dates : Triple (Dates clock mine) (orKill .success) (fun _ => Dates clock mine)
    fun _ _ => True := by
  intro world dates
  simp only [orKill, Program.result_bind, Program.result_get]
  cases draws : world.aborts with
  | nil => exact ⟨dates.history, dates.later, dates.dated⟩
  | cons draw later =>
    cases draw with
    | false => exact ⟨dates.history, dates.later, dates.dated⟩
    | true => trivial

theorem prepareRecordForUpdate_dates {id : TableId} (other : id ≠ .orderLine) (key : Nat) :
    Triple (Dates clock mine) (prepareRecordForUpdate id key) (fun _ => Dates clock mine)
      fun _ _ => True :=
  prepareRecordForUpdate_rule (fun _ _ _ dates _ => dates.set other _) fun _ _ _ _ => trivial

theorem prepareRecordForDelete_dates {id : TableId} (other : id ≠ .orderLine) (key : Nat) :
    Triple (Dates clock mine) (prepareRecordForDelete id key) (fun _ => Dates clock mine)
      fun _ _ => True := by
  intro world dates
  simp only [prepareRecordForDelete, Program.result_bind, Program.result_get]
  cases (world.db.tables id).applyDeleteToWriteset key with
  | error message => trivial
  | ok table => exact dates.set other _

theorem write_dates {id : TableId} (other : id ≠ .orderLine) (key : Nat) (record : RecordOf id) :
    Triple (Dates clock mine) (write id key record) (fun _ => Dates clock mine) exit :=
  fun _ dates => dates.set other _

theorem prepareLine_dates (key : Nat) :
    Triple (Dates clock none) (prepareRecordForUpdate .orderLine key)
      (fun _ => Dates clock (some key)) fun _ _ => True := by
  refine prepareRecordForUpdate_rule ?_ fun _ _ _ _ => trivial
  intro world table record dates prepared
  refine ⟨dates.history, dates.later, fun key' log notMine logged => ?_⟩
  simp only [Database.set, Function.update_self] at logged
  rw [Relation.applyUpdateToWriteset_others prepared (fun same => notMine (same ▸ rfl))] at logged
  exact dates.dated key' log (by simp) logged

theorem writeLine_dates (key : Nat) (ol : OrderLine) :
    Triple (Dates clock (some key))
      (getTimestamp >>= fun now => write .orderLine key { ol with olDeliveryD := now })
      (fun _ => Dates clock none) exit := by
  intro world dates
  refine ⟨dates.history, dates.later.trans (by simp), fun key' log _ logged => ?_⟩
  simp only [Database.set, Function.update_self, Relation.get?_write] at logged
  split at logged
  · obtain ⟨log, -, rfl⟩ := Option.map_eq_some_iff.mp logged
    exact ⟨dates.later, by simp⟩
  · rename_i other
    obtain ⟨after, before⟩ := dates.dated key' log (by simpa using other) logged
    exact ⟨after, before.trans (by simp)⟩

theorem deliverLines_dates (low up : Nat) :
    Triple (Dates clock none) (deliverLines low up) (fun _ => Dates clock none)
      fun _ _ => True := by
  unfold deliverLines
  refine Triple.bind_get fun world dates => ?_
  refine (Triple.foldlM (fun _ _ => Dates clock none) ?_).pre_of fun _ same => same ▸ dates
  intro _ line _ total _
  refine (prepareLine_dates _).bind fun ol => ?_
  rw [← bind_assoc]
  exact (writeLine_dates _ ol).bind fun _ => Triple.pure fun _ dates => dates

theorem deliverOrder_dates (input : DeliveryInput) (dId : Nat) (no : NewOrder) :
    Triple (Dates clock none) (deliverOrder input dId no) (fun _ => Dates clock none)
      fun _ _ => True := by
  unfold deliverOrder
  refine (prepareRecordForDelete_dates (by decide) _).bind fun _ => ?_
  refine orKill_dates.bind fun _ => orKill_dates.bind fun _ => ?_
  refine (prepareRecordForUpdate_dates (by decide) _).bind fun o => ?_
  refine orKill_dates.bind fun _ => (write_dates (by decide) _ _).bind fun _ => ?_
  refine orKill_dates.bind fun _ => (deliverLines_dates _ _).bind fun total => ?_
  refine orKill_dates.bind fun _ => (prepareRecordForUpdate_dates (by decide) _).bind fun c => ?_
  exact orKill_dates.bind fun _ => (write_dates (by decide) _ _).bind fun _ => orKill_dates

theorem deliverDistrictUnchecked_dates (beyond : Nat × NewOrder) (input : DeliveryInput)
    (dId : Nat) :
    Triple (Dates clock none) (deliverDistrictUnchecked beyond input dId)
      (fun _ => Dates clock none) fun _ _ => True := by
  unfold deliverDistrictUnchecked
  have looksUp : Triple (Dates clock none)
      (getNeworderUnchecked beyond (NewOrderKey.createKey input.wId dId 1))
      (fun _ => Dates clock none) fun _ _ => True := fun _ dates => dates
  refine looksUp.bind fun found => ?_
  cases found with
  | none => exact Triple.pure fun _ dates => dates
  | some no => exact orKill_dates.bind fun _ => deliverOrder_dates input dId no

end Dates

/-! ## Committed Deliveries -/

section Committed
variable {scale : Scale} {w carrier d : Nat} {start : Database} {logs : Logs} {done : List Nat}

theorem Entries.apply_other (entries : Entries start w carrier done logs) {id : TableId} {key : Nat}
    (other : ∀ d ∈ done, ∀ log, ¬ DeliveryEntry start w carrier d id key log) :
    logs.apply start.rows id key = start.rows id key := by
  unfold Logs.apply
  cases logged : logs id key with
  | none => rfl
  | some log =>
    obtain ⟨d, member, entry⟩ := entries.sound id key log logged
    exact absurd entry (other d member log)

/-- The row under the key of an entry is the effect of an entry of the same district. -/
theorem Entries.apply_entry (entries : Entries start w carrier done logs)
    (ready : Ready scale w start) (member : d ∈ done) {id : TableId} {key : Nat}
    {log : Log (RecordOf id)} (entry : DeliveryEntry start w carrier d id key log) :
    ∃ log, DeliveryEntry start w carrier d id key log ∧ logs id key = some log ∧
      logs.apply start.rows id key = log.effect (start.rows id key) := by
  obtain ⟨logged, found⟩ := Option.isSome_iff_exists.mp (entries.complete d member id key log entry)
  obtain ⟨d', -, entry'⟩ := entries.sound id key logged found
  obtain rfl := entry.same_district ready entry' rfl
  refine ⟨logged, entry', found, ?_⟩
  simp [Logs.apply, found]

theorem Ready.exists_pending (ready : Ready scale w start) {key : Nat} {no : NewOrder}
    (row : start.rows .newOrder key = some no) (sameW : no.noWId = w) (sameD : no.noDId = d) :
    ∃ no, Pending start.rows w d no := by
  classical
  have some' : ∃ id key no, start.rows .newOrder key = some no ∧ no.noWId = w ∧ no.noDId = d ∧
      no.noOId = id := ⟨_, key, no, row, sameW, sameD, rfl⟩
  obtain ⟨key, no, row, sameW, sameD, isLeast⟩ := Nat.find_spec some'
  refine ⟨no, (ready.undelivered.row key no row).1 ▸ row, sameW, sameD, ?_⟩
  intro key' no' row' sameW' sameD'
  rw [isLeast]
  exact Nat.find_min' some' ⟨key', no', row', sameW', sameD', rfl⟩

/-- A committed Delivery by the write set it had. -/
structure Delivered (start : Database) (w carrier : Nat) (clock : Int) (logs : Logs)
    (world : World) : Prop where
  entries : Entries start w carrier (ids distsPerWare) logs
  committed : Committed start logs world
  history : world.db.history = start.history
  dated : ∀ key log, logs .orderLine key = some log →
    clock ≤ log.record.olDeliveryD ∧ log.record.olDeliveryD < world.clock

section Delivered
variable {clock : Int} {world : World} (ready : Ready scale w start)
  (delivered : Delivered start w carrier clock logs world)
include ready delivered

/-- `c_delivery_cnt` is a `uint16_t`. -/
theorem Delivered.customer {no : NewOrder} {o : Order} {c : Customer}
    (member : d ∈ ids distsPerWare) (delivers : Delivers start.rows w d no o)
    (row : start.rows .customer (CustomerKey.createKey w d o.oCId) = some c) :
    world.db.rows .customer (CustomerKey.createKey w d o.oCId) = some { c with
      cBalance := c.cBalance + orderTotal start o.key
      cDeliveryCnt := (c.cDeliveryCnt + 1) % 2 ^ 16 } := by
  obtain ⟨log, entry, -, effect⟩ :=
    delivered.entries.apply_entry ready member (.customer delivers row)
  rw [delivered.committed.rows, effect, row]
  generalize keyed : CustomerKey.createKey w d o.oCId = key at entry row
  cases entry with
  | customer delivers' row' =>
    obtain ⟨-, rfl⟩ := delivers.unique delivers'
    cases Option.some.inj (row.symm.trans row')
    rfl

theorem Delivered.effect
    (counters : ∀ d ∈ ids distsPerWare, ∀ no o c, Delivers start.rows w d no o →
      start.rows .customer (CustomerKey.createKey w d o.oCId) = some c →
        c.cDeliveryCnt + 1 < 2 ^ 16) :
    DeliveryEffect w carrier start clock world := by
  have entries := delivered.entries
  have rows := delivered.committed.rows
  refine ⟨?_, ?_, ?_, ?_, ?_, ?_, ?_, ?_, ?_, ?_, delivered.history⟩
  · intro d _ key no row sameW sameD
    obtain ⟨no, pending⟩ := ready.exists_pending row sameW sameD
    exact ⟨no, ready.exists_order pending⟩
  · intro d member no o delivers
    obtain ⟨log, entry, -, effect⟩ := entries.apply_entry ready member (.newOrder delivers)
    rw [rows, effect]
    generalize no.key = key at entry
    cases entry
    rfl
  · intro key other
    rw [rows]
    refine entries.apply_other fun d member log entry => ?_
    cases entry with
    | newOrder delivers => exact other d member _ _ delivers rfl
  · intro d member no o delivers
    obtain ⟨log, entry, -, effect⟩ := entries.apply_entry ready member (.order delivers)
    have order := delivers.order
    rw [ready.order_key delivers] at order
    rw [rows, effect, order]
    generalize o.key = key at entry
    cases entry with
    | order delivers' =>
      obtain ⟨-, rfl⟩ := delivers.unique delivers'
      rfl
  · intro key other
    rw [rows]
    refine entries.apply_other fun d member log entry => ?_
    cases entry with
    | order delivers => exact other d member _ _ delivers rfl
  · intro d member no o delivers key ol row own
    obtain ⟨log, entry, logged, effect⟩ :=
      entries.apply_entry ready member (.line delivers row own 0)
    have window := delivered.dated key log logged
    rw [rows, effect, row]
    cases entry with
    | line _ row' _ date =>
      cases Option.some.inj (row.symm.trans row')
      exact ⟨date, window.1, window.2, rfl⟩
  · intro key other
    rw [rows]
    refine entries.apply_other fun d member log entry => ?_
    cases entry with
    | line delivers row own => exact other d member _ _ delivers _ row own
  · intro d member no o delivers
    obtain ⟨c, row⟩ := ready.exists_customer delivers
    refine ⟨c, row, ?_⟩
    rw [delivered.customer ready member delivers row,
      Nat.mod_eq_of_lt (counters d member no o c delivers row)]
  · intro key other
    rw [rows]
    refine entries.apply_other fun d member log entry => ?_
    cases entry with
    | customer delivers row => exact other d member _ _ delivers rfl
  · intro id quiet
    funext key
    rw [rows]
    refine entries.apply_other fun d member log entry => ?_
    cases entry <;> simp at quiet

theorem Delivered.counter_fits (effect : DeliveryEffect w carrier start clock world)
    {no : NewOrder} {o : Order} {c : Customer} (member : d ∈ ids distsPerWare)
    (delivers : Delivers start.rows w d no o)
    (row : start.rows .customer (CustomerKey.createKey w d o.oCId) = some c) :
    c.cDeliveryCnt + 1 < 2 ^ 16 := by
  obtain ⟨c', row', credited⟩ := effect.credited d member no o delivers
  cases Option.some.inj (row.symm.trans row')
  rw [delivered.customer ready member delivers row] at credited
  have same : (c.cDeliveryCnt + 1) % 2 ^ 16 = c.cDeliveryCnt + 1 :=
    congrArg Customer.cDeliveryCnt (Option.some.inj credited)
  rw [← same]
  exact Nat.mod_lt _ (by decide)

end Delivered

end Committed

/-! ## Every Delivery -/

section Run
variable {scale : Scale} {start : Database} {aborts : List Bool} {clock : Int} {user : Prop}
  {input : DeliveryInput} {beyond : Nat × NewOrder}

theorem Dates.initial (clean : start.Clean) :
    Dates clock none { db := start, aborts := aborts, clock := clock } :=
  ⟨clean.history, le_rfl, fun key log _ logged => by simp [clean.tables .orderLine] at logged⟩

/-- Whatever `end()` reads as, as long as no lookup takes it for a key of its district. -/
theorem deliveryTxUnchecked_exact (ready : Ready scale input.wId start)
    (unseen : ∀ d ∈ ids distsPerWare,
      (start.tables .newOrder).rows.lowerBound (NewOrderKey.createKey input.wId d 1) = none →
        beyond.1 / 2 ^ 32 % 2 ^ 24 ≠ NewOrderKey.createKey input.wId d 1 / 2 ^ 32 % 2 ^ 24) :
    Triple (fun world => Running start aborts Logs.empty world ∧ Dates clock none world)
      (deliveryTxUnchecked beyond input)
      (fun _ world => ∃ logs, Delivered start input.wId input.oCarrierId clock logs world)
      (Stopped start aborts user) := by
  unfold deliveryTxUnchecked
  have logged := deliverDistricts_exact input (nodup_ids distsPerWare)
    fun done logs d member notYet entries => (deliverDistrictUnchecked_exact ready member
      (unseen d member) notYet entries : Triple _ _ _ (Stopped start aborts user))
  have dated : Triple (Dates clock none)
      ((ids distsPerWare).forM (deliverDistrictUnchecked beyond input))
      (fun _ => Dates clock none) fun _ _ => True :=
    Triple.forM_keeps fun d _ => deliverDistrictUnchecked_dates beyond input d
  refine ((logged.and dated).conseq (fun _ holds => holds) (fun _ _ holds => holds)
    fun _ _ stopped => stopped.1).bind fun _ => ?_
  rintro world ⟨⟨logs, entries, running⟩, dates⟩
  refine ⟨logs, entries, (commit_spec : Triple _ _ _ (Stopped start aborts user)) world running,
    ?_, fun key log written => ?_⟩
  · change world.db.history ++ world.db.historyWs = start.history
    rw [dates.history, List.append_nil, running.history]
  · exact dates.dated key log nofun ((running.logs .orderLine key).trans written)

/-- What `end()` may read as: a `NewOrder` of the last district. -/
def missingNewOrder (w : Nat) : NewOrder := { noWId := w, noDId := distsPerWare, noOId := 1 }

theorem missingNewOrder_unseen {w d : Nat} (member : d ∈ ids 9) :
    (missingNewOrder w).key / 2 ^ 32 % 2 ^ 24 ≠ NewOrderKey.createKey w d 1 / 2 ^ 32 % 2 ^ 24 := by
  have bounds := mem_ids.mp member
  simp only [missingNewOrder, NewOrder.key, NewOrderKey.createKey, packKey_div, distsPerWare]
  omega

/-- The last district takes it for a row and fails to delete it. -/
theorem lastDistrict_throws {logs : Logs} {done : List Nat}
    (absent : ∀ key, NewOrderKey.createKey input.wId distsPerWare 1 ≤ key →
      start.rows .newOrder key = none)
    (entries : Entries start input.wId input.oCarrierId done logs) :
    Triple (Running start [] logs)
      (deliverDistrictUnchecked ((missingNewOrder input.wId).key, missingNewOrder input.wId) input
        distsPerWare)
      (fun _ _ => False) fun code _ => code = .exception "Record not found in db" := by
  intro world running
  have missing : start.rows .newOrder (missingNewOrder input.wId).key = none := absent _ le_rfl
  have nothing : (start.tables .newOrder).rows.lowerBound
      (NewOrderKey.createKey input.wId distsPerWare 1) = none := by
    cases found : (start.tables .newOrder).rows.lowerBound
        (NewOrderKey.createKey input.wId distsPerWare 1) with
    | none => rfl
    | some entry =>
      obtain ⟨present, above, -⟩ := OrderedMap.lowerBound_eq_some found
      exact absurd ((absent _ above).symm.trans present) (by simp)
  have unlogged : logs .newOrder (missingNewOrder input.wId).key = none := by
    by_contra logged
    obtain ⟨log, logged⟩ := Option.ne_none_iff_exists'.mp logged
    obtain ⟨d, -, entry⟩ := entries.sound _ _ log logged
    generalize (missingNewOrder input.wId).key = key at entry missing
    cases entry with
    | newOrder delivers => exact absurd (missing.symm.trans delivers.pending.row) (by simp)
  have fails : (world.db.tables .newOrder).applyDeleteToWriteset (missingNewOrder input.wId).key =
      .error "Record not found in db" := by
    have row : (world.db.tables .newOrder).rows.get? (missingNewOrder input.wId).key = none := by
      rw [running.rows]
      exact missing
    simp [Relation.applyDeleteToWriteset, running.logs, unlogged, row]
  have noDraws : world.aborts = [] := List.suffix_nil.mp running.aborts
  have sameGroup : (missingNewOrder input.wId).key / 2 ^ 32 % 2 ^ 24 =
      NewOrderKey.createKey input.wId distsPerWare 1 / 2 ^ 32 % 2 ^ 24 := rfl
  simp only [deliverDistrictUnchecked, getNeworderUnchecked, deliverOrder, orKill,
    prepareRecordForDelete, Program.result_bind, Program.result_get, Program.result_pure,
    Program.result_modify, Program.result_throw, running.rows .newOrder, nothing,
    Option.getD_none, sameGroup, if_true, noDraws, fails]

theorem deliveryTxUnchecked_throws (ready : Ready scale input.wId start)
    (noTail : ¬ HasTail start input.wId) :
    Triple (Running start [] Logs.empty)
      (deliveryTxUnchecked ((missingNewOrder input.wId).key, missingNewOrder input.wId) input)
      (fun _ _ => False) fun code _ => code = .exception "Record not found in db" := by
  have absent : ∀ key, NewOrderKey.createKey input.wId distsPerWare 1 ≤ key →
      start.rows .newOrder key = none := by
    intro key above
    by_contra present
    obtain ⟨no, row⟩ := Option.ne_none_iff_exists'.mp present
    exact noTail ⟨key, no, row, above⟩
  have lastOne : ids distsPerWare = ids 9 ++ [distsPerWare] := by decide
  have before := deliverDistricts_exact input (nodup_ids 9)
    fun done logs d member notYet entries => (deliverDistrictUnchecked_exact ready
      (mem_ids.mpr ⟨(mem_ids.mp member).1, (mem_ids.mp member).2.trans (by decide)⟩)
      (fun _ => missingNewOrder_unseen member) notYet entries :
        Triple _ (deliverDistrictUnchecked ((missingNewOrder input.wId).key,
          missingNewOrder input.wId) input d) _ (Stopped start [] False))
  unfold deliveryTxUnchecked
  rw [lastOne, List.forM_eq_forM, List.forM_append, bind_assoc]
  refine (before.conseq (fun _ running => running) (fun _ _ holds => holds)
    fun _ _ stopped => absurd (Stopped.injected stopped).2.2 List.not_mem_nil).bind fun _ =>
      Triple.of_exists fun logs => Triple.of_fact fun entries => ?_
  rw [List.forM_cons, bind_assoc]
  exact (lastDistrict_throws absent entries).bind fun _ _ impossible => impossible.elim

end Run

/-- A Delivery on a consistent database does what it says, whatever `end()` reads as, just when
a `NewOrder` is left at or above the first key of the warehouse's last district and the counters
of the customers it delivers to do not wrap. -/
theorem delivery_effect_iff {scale : Scale} {start : Database} {input : DeliveryInput}
    (ready : Ready scale input.wId start) :
    (∀ beyond aborts clock, DeliveryOutcome input.wId input.oCarrierId start clock
        ((deliveryTxUnchecked beyond input).result { db := start, aborts, clock })) ↔
      HasTail start input.wId ∧
        ∀ d ∈ ids distsPerWare, ∀ no o c, Delivers start.rows input.wId d no o →
          start.rows .customer (CustomerKey.createKey input.wId d o.oCId) = some c →
            c.cDeliveryCnt + 1 < 2 ^ 16 := by
  have exact' : HasTail start input.wId → ∀ beyond aborts clock, Triple
      (fun world => Running start aborts Logs.empty world ∧ Dates clock none world)
      (deliveryTxUnchecked beyond input)
      (fun _ world => ∃ logs, Delivered start input.wId input.oCarrierId clock logs world)
      (Stopped start aborts False) := fun tail beyond aborts clock =>
    deliveryTxUnchecked_exact ready fun d member none' =>
      absurd none' (tail.lowerBound_ne_none member)
  have initial : ∀ aborts clock, Running start aborts Logs.empty { db := start, aborts, clock } ∧
      Dates clock none { db := start, aborts, clock } := fun aborts clock =>
    ⟨Running.initial ready.clean, Dates.initial ready.clean⟩
  constructor
  · intro outcome
    have tail : HasTail start input.wId := by
      by_contra noTail
      have throws := deliveryTxUnchecked_throws ready noTail _ (initial [] 0).1
      have stops := outcome ((missingNewOrder input.wId).key, missingNewOrder input.wId) [] 0
      rcases result : (deliveryTxUnchecked ((missingNewOrder input.wId).key,
        missingNewOrder input.wId) input).result { db := start, aborts := [], clock := 0 } with
        ⟨_ | _, after⟩
      · rw [result] at throws stops
        cases throws.symm.trans stops.1
      · rw [result] at throws
        exact throws
    refine ⟨tail, fun d member no o c delivers row => ?_⟩
    have holds := exact' tail (0, default) [] 0 _ (initial [] 0)
    have effect := outcome (0, default) [] 0
    rcases result : (deliveryTxUnchecked (0, default) input).result
      { db := start, aborts := [], clock := 0 } with ⟨_ | _, after⟩
    · rw [result] at holds
      exact absurd (Stopped.injected holds).2.2 List.not_mem_nil
    · rw [result] at holds effect
      obtain ⟨logs, delivered⟩ := holds
      exact delivered.counter_fits ready effect member delivers row
  · rintro ⟨tail, counters⟩ beyond aborts clock
    have holds := exact' tail beyond aborts clock _ (initial aborts clock)
    rcases result : (deliveryTxUnchecked beyond input).result { db := start, aborts, clock } with
      ⟨code | _, after⟩
    · rw [result] at holds
      exact ⟨(Stopped.injected holds).1, (Stopped.injected holds).2.1⟩
    · rw [result] at holds
      obtain ⟨logs, delivered⟩ := holds
      exact delivered.effect ready counters

/-! ## Deliveries in a small database -/

def twoWarehouses : Scale :=
  { warehouses := 2, items := 1, customers := 1, orders := 1, delivered := 0 }

theorem twoWarehouses_valid : twoWarehouses.Valid :=
  ⟨by decide, by decide, by decide, by decide, by decide⟩

theorem plainDraws_valid_two : plainDraws.Valid twoWarehouses :=
  ⟨fun _ _ _ => ⟨le_rfl, (by decide : 5 ≤ 15)⟩, fun _ _ _ inRange => inRange,
    fun _ _ _ _ => ⟨le_rfl, le_rfl⟩⟩

def twoLoaded : Database := loadAllTables twoWarehouses plainDraws

theorem twoLoaded_inv : Inv twoWarehouses twoLoaded.rows :=
  inv_load twoWarehouses_valid plainDraws_valid_two

theorem twoLoaded_ready {w : Nat} (warehouse : 1 ≤ w ∧ w ≤ 2) :
    Ready twoWarehouses w twoLoaded :=
  ⟨clean_load _ _, twoWarehouses_valid, twoLoaded_inv.base, twoLoaded_inv.undelivered, warehouse⟩

/-- The Deliveries of the first warehouse. -/
theorem delivery_effect_first :
    ((deliveryTxUnchecked (0, default) { wId := 1, oCarrierId := 5 }).result
        { db := twoLoaded, aborts := [], clock := 0 }).1 = .ok () ∧
      ∀ beyond aborts clock, DeliveryOutcome 1 5 twoLoaded clock
        ((deliveryTxUnchecked beyond { wId := 1, oCarrierId := 5 }).result
          { db := twoLoaded, aborts, clock }) := by
  have ready : Ready twoWarehouses 1 twoLoaded := twoLoaded_ready (by decide)
  have tail : HasTail twoLoaded 1 := by
    refine ⟨NewOrderKey.createKey 2 1 1, { noWId := 2, noDId := 1, noOId := 1 }, ?_, by decide⟩
    decide +kernel
  refine ⟨by decide +kernel, (@delivery_effect_iff twoWarehouses twoLoaded
    { wId := 1, oCarrierId := 5 } ready).mpr ⟨tail, fun d _ no o c _ row => ?_⟩⟩
  have member := loaded_of_row row
  simp only [loadedRows, List.mem_flatMap, List.mem_map, Prod.mk.injEq] at member
  obtain ⟨_, _, _, _, _, rfl⟩ := member
  exact (by decide : 0 + 1 < 2 ^ 16)

def secondDelivery : DeliveryInput := { wId := 2, oCarrierId := 5 }

def strayNewOrder : Nat × NewOrder :=
  (NewOrderKey.createKey 2 1 1, { noWId := 1, noDId := 1, noOId := 1 })

/-- The second warehouse has been delivered and is delivered again: the lookup goes behind the
last `NewOrder`, and the Delivery removes what it finds there. -/
theorem delivery_reads_beyond : ∃ start after,
    Ready twoWarehouses 2 start ∧
      (deliveryTxUnchecked strayNewOrder secondDelivery).result
        { db := start, aborts := [], clock := 0 } = (.ok (), after) ∧
      (∀ d no o, ¬ Delivers start.rows 2 d no o) ∧
      ¬ DeliveryEffect 2 5 start 0 after := by
  have reached : (step twoLoaded
      [{ input := .delivery secondDelivery, aborts := [], clock := 0 }]).map (fun start =>
        (((deliveryTxUnchecked strayNewOrder secondDelivery).result
            { db := start, aborts := [], clock := 0 }).1,
          ((deliveryTxUnchecked strayNewOrder secondDelivery).result
            { db := start, aborts := [], clock := 0 }).2.db.rows .newOrder
              (NewOrderKey.createKey 1 1 1),
          (start.rows .newOrder (NewOrderKey.createKey 1 1 1)).isSome,
          (start.tables .newOrder).rows.entries.map fun entry => entry.2.noWId)) =
      some (.ok (), none, true, List.replicate 10 1) := by
    decide +kernel
  obtain ⟨start, taken, summary⟩ := Option.map_eq_some_iff.mp reached
  obtain ⟨commits, summary⟩ := Prod.mk.inj summary
  obtain ⟨removed, summary⟩ := Prod.mk.inj summary
  obtain ⟨present, left⟩ := Prod.mk.inj summary
  have admitted : Admitted twoWarehouses twoLoaded
      [{ input := .delivery secondDelivery, aborts := [], clock := 0 }] := by
    intro attempt member
    cases List.mem_singleton.mp member
    exact ⟨⟨(by decide : 1 ≤ 2 ∧ 2 ≤ 2)⟩, trivial⟩
  obtain ⟨clean, inv⟩ :=
    runWithRetry_inv (clean_load _ _) twoLoaded_inv twoWarehouses_valid admitted taken
  -- what is left belongs to the first warehouse
  have others : ∀ key no, start.rows .newOrder key = some no → no.noWId = 1 := by
    intro key no row
    have member : no.noWId ∈ (start.tables .newOrder).rows.entries.map fun e => e.2.noWId :=
      List.mem_map.mpr ⟨_, OrderedMap.get?_eq_some_iff.mp row, rfl⟩
    rw [left] at member
    exact List.eq_of_mem_replicate member
  have nothing : ∀ d no o, ¬ Delivers start.rows 2 d no o := fun d no o delivers =>
    absurd (others _ no delivers.pending.row ▸ delivers.pending.warehouse) (by decide)
  refine ⟨start, _, ⟨clean, twoWarehouses_valid, inv.base, inv.undelivered, by decide⟩,
    Prod.ext commits rfl, nothing, fun effect => ?_⟩
  have kept := effect.otherNewOrders (NewOrderKey.createKey 1 1 1)
    fun d _ no o delivers => absurd delivers (nothing d no o)
  rw [removed] at kept
  rw [← kept] at present
  cases present

end TpccRunner.Tpcc
