import TpccRunner.Tpcc.Transactions

/-!
# The History rows of Payments under MVTO and Silo

`Transaction` is the same text for both protocols, but for the timestamp that MVTO takes
after an abort.  Every table but one goes through the protocol; a History row is put at the
back of the thread's own table, which no abort touches.  The calls of the protocol are
parameters here, so that they may fail in any way.
-/

set_option autoImplicit false

namespace TpccRunner.Tpcc

open Lib
open Naive (TableId RecordOf Result Status)

/-- The calls of the protocol.  `store` is a write through the pointer that `update` handed
out, and `abort` includes `set_new_ts`. -/
structure Engine (σ : Type) where
  read : (id : TableId) → Nat → σ → Option (RecordOf id) × σ
  update : (id : TableId) → Nat → σ → Option (RecordOf id) × σ
  store : (id : TableId) → Nat → RecordOf id → σ → σ
  precommit : σ → Bool × σ
  abort : σ → σ

structure Thread (σ : Type) where
  protocol : σ
  /-- `get_history_table()`. -/
  history : List History

/-- `PaymentTx::AbortID`: the calls that are checked. -/
inductive PaymentAbort where
  | prepareUpdateWarehouse
  | finishUpdateWarehouse
  | prepareUpdateDistrict
  | finishUpdateDistrict
  | prepareUpdateCustomerByLastName
  | prepareUpdateCustomer
  | finishUpdateCustomer
  | prepareInsertHistory
  | finishInsertHistory
  | precommit
  deriving DecidableEq, Repr

/-- One turn of the loop of `run_with_retry`, with everything it draws: `injected` are the
calls after which `not_succeeded` makes an abort out of a success. -/
structure PaymentAttempt where
  input : PaymentInput
  injected : PaymentAbort → Bool
  now : Int

structure PaymentOutput where
  wId : Nat
  dId : Nat
  cId : Nat
  cDId : Nat
  cWId : Nat
  hAmount : ℚ
  deriving DecidableEq

/-- `Customer::MAX_FIRST`. -/
def maxFirst : Nat := 16

section Programs
variable {σ : Type} (engine : Engine σ)

abbrev PaymentProgram (σ α : Type) := Program (Thread σ) Status α

/-- `not_succeeded` followed by `kill`. -/
def checked (injected : Bool) (res : Result) : PaymentProgram σ Unit :=
  match if res = .success ∧ injected then .abort else res with
  | .success => pure ()
  | .fail => throw .bug
  | .abort => do
      modify fun thread => { thread with protocol := engine.abort thread.protocol }
      throw .systemAbort

def readRecord (id : TableId) (key : Nat) : PaymentProgram σ (Option (RecordOf id)) := do
  let thread ← get
  let (record, protocol) := engine.read id key thread.protocol
  modify fun thread => { thread with protocol }
  pure record

/-- `prepare_record_for_update`; a null pointer is an abort. -/
def updateRecord (id : TableId) (key : Nat) : PaymentProgram σ (Option (RecordOf id)) := do
  let thread ← get
  let (record, protocol) := engine.update id key thread.protocol
  modify fun thread => { thread with protocol }
  pure record

def resultOf {α : Type} (record : Option α) : Result :=
  if record.isSome then .success else .abort

def storeRecord (id : TableId) (key : Nat) (record : RecordOf id) : PaymentProgram σ Unit :=
  modify fun thread => { thread with protocol := engine.store id key record thread.protocol }

/-- The loop of `get_customer_by_last_name` over the keys of the name. -/
def readCustomers : List Nat → PaymentProgram σ (Option (List Customer))
  | [] => pure (some [])
  | key :: rest => do
      match ← readRecord engine .customer key with
      | some c => do
          let others ← readCustomers rest
          pure (others.map (c :: ·))
      | none => pure none

def middleCustomer (recs : List Customer) : Customer :=
  (recs.insertionSort fun one two =>
    one.cFirst.take maxFirst ≤ two.cFirst.take maxFirst).getD ((recs.length + 1) / 2 - 1) default

/-- `get_customer_by_last_name_and_prepare_for_update`; `keys` are the keys under the name in
the read-only secondary table.  The key of the record comes with it. -/
def customerByLastName (keys : List Nat) :
    PaymentProgram σ (Result × Nat × Customer) := do
  if keys.isEmpty then
    pure (.fail, 0, default)
  else
    match ← readCustomers engine keys with
    | none => pure (.abort, 0, default)
    | some recs => do
        let key := (middleCustomer recs).key
        let record ← updateRecord engine .customer key
        pure (resultOf record, key, record.getD default)

def payingCustomer (byLastName : Nat → Nat → CStr → List Nat) (attempt : PaymentAttempt) :
    PaymentProgram σ (Nat × Customer) := do
  let input := attempt.input
  if input.byLastName then
    let (res, key, c) ← customerByLastName engine (byLastName input.cWId input.cDId input.cLast)
    checked engine (attempt.injected .prepareUpdateCustomerByLastName) res
    pure (key, c)
  else
    let key := CustomerKey.createKey input.cWId input.cDId input.cId
    let record ← updateRecord engine .customer key
    checked engine (attempt.injected .prepareUpdateCustomer) (resultOf record)
    pure (key, record.getD default)

/-- `prepare_record_for_insert(History*&)`: a value-initialized row at the back. -/
def prepareHistory : PaymentProgram σ Unit :=
  modify fun thread => { thread with history := thread.history ++
    [{ hCWId := 0, hCDId := 0, hCId := 0, hWId := 0, hDId := 0, hDate := 0, hAmount := 0
       hData := [] }] }

/-- `create_history` fills in the row at the back. -/
def fillHistory (row : History) : PaymentProgram σ Unit :=
  modify fun thread => { thread with history := thread.history.dropLast ++ [row] }

/-- `TxHelper::commit`. -/
def commitTx : PaymentProgram σ Unit := do
  let thread ← get
  match engine.precommit thread.protocol with
  | (true, protocol) => modify fun thread => { thread with protocol }
  | (false, protocol) =>
    modify fun thread => { thread with protocol := engine.abort protocol }
    throw .systemAbort

def paymentUpdates (byLastName : Nat → Nat → CStr → List Nat) (attempt : PaymentAttempt) :
    PaymentProgram σ (Nat × CStr × CStr) := do
  let input := attempt.input
  let wKey := WarehouseKey.createKey input.wId
  let w ← updateRecord engine .warehouse wKey
  checked engine (attempt.injected .prepareUpdateWarehouse) (resultOf w)
  let w := w.getD default
  storeRecord engine .warehouse wKey { w with wYtd := w.wYtd + input.hAmount }
  checked engine (attempt.injected .finishUpdateWarehouse) .success
  let dKey := DistrictKey.createKey input.wId input.dId
  let d ← updateRecord engine .district dKey
  checked engine (attempt.injected .prepareUpdateDistrict) (resultOf d)
  let d := d.getD default
  storeRecord engine .district dKey { d with dYtd := d.dYtd + input.hAmount }
  checked engine (attempt.injected .finishUpdateDistrict) .success
  let (cKey, c) ← payingCustomer engine byLastName attempt
  storeRecord engine .customer cKey (payCustomer c input)
  checked engine (attempt.injected .finishUpdateCustomer) .success
  pure (c.cId, w.wName, d.dName)

def payment (byLastName : Nat → Nat → CStr → List Nat) (attempt : PaymentAttempt) :
    PaymentProgram σ PaymentOutput := do
  let input := attempt.input
  let (cId, wName, dName) ← paymentUpdates engine byLastName attempt
  prepareHistory
  checked engine (attempt.injected .prepareInsertHistory) .success
  fillHistory (createHistory input cId wName dName attempt.now)
  checked engine (attempt.injected .finishInsertHistory) .success
  commitTx engine
  pure { wId := input.wId, dId := input.dId, cId, cDId := input.cDId, cWId := input.cWId
         hAmount := input.hAmount }

/-- `run_with_retry<PaymentTx>`, which needs as many attempts as it takes; `none` when they do
not end it, or when one ends with a bug. -/
def payWithRetry (byLastName : Nat → Nat → CStr → List Nat) :
    List PaymentAttempt → Thread σ → Option (PaymentOutput × Thread σ)
  | [], _ => none
  | attempt :: rest, thread =>
    match (payment engine byLastName attempt).result thread with
    | (.ok out, after) => if rest.isEmpty then some (out, after) else none
    | (.error .systemAbort, after) => payWithRetry byLastName rest after
    | _ => none

def payments (byLastName : Nat → Nat → CStr → List Nat) :
    List (List PaymentAttempt) → Thread σ → Option (List PaymentOutput × Thread σ)
  | [], thread => some ([], thread)
  | attempts :: rest, thread => do
      let (out, thread) ← payWithRetry engine byLastName attempts thread
      let (outs, thread) ← payments byLastName rest thread
      some (out :: outs, thread)

end Programs

/-! ## What an attempt leaves in the table -/

def PaymentOutput.Matches (out : PaymentOutput) (row : History) : Prop :=
  row.hWId = out.wId ∧ row.hDId = out.dId ∧ row.hCId = out.cId ∧ row.hCDId = out.cDId ∧
    row.hCWId = out.cWId ∧ row.hAmount = out.hAmount

section Attempts
variable {σ : Type} {engine : Engine σ} {byLastName : Nat → Nat → CStr → List Nat}
  {attempt : PaymentAttempt} {rows : List History} {exit : Status → Thread σ → Prop}

/-- An attempt fails once its row is in the table: its updates succeed, and then an abort is
injected after one of the History calls, or `precommit` fails in the state they have left. -/
def FailsLate (engine : Engine σ) (byLastName : Nat → Nat → CStr → List Nat)
    (attempt : PaymentAttempt) (thread : Thread σ) : Prop :=
  ∃ found after, (paymentUpdates engine byLastName attempt).result thread = (.ok found, after) ∧
    (attempt.injected .prepareInsertHistory = true ∨
      attempt.injected .finishInsertHistory = true ∨
      (engine.precommit after.protocol).1 = false)

theorem checked_spec {injected : Bool} {res : Result}
    (stops : ∀ code thread, thread.history = rows → exit code thread) :
    Triple (fun thread => thread.history = rows) (checked engine injected res)
      (fun _ thread => thread.history = rows) exit := by
  intro thread holds
  cases res with
  | success =>
    cases injected with
    | false => exact holds
    | true => exact stops _ _ holds
  | fail => exact stops _ _ holds
  | abort => exact stops _ _ holds

theorem readRecord_spec (id : TableId) (key : Nat) :
    Triple (fun thread => thread.history = rows) (readRecord engine id key)
      (fun _ thread => thread.history = rows) exit := fun _ holds => holds

theorem updateRecord_spec (id : TableId) (key : Nat) :
    Triple (fun thread => thread.history = rows) (updateRecord engine id key)
      (fun _ thread => thread.history = rows) exit := fun _ holds => holds

theorem storeRecord_spec (id : TableId) (key : Nat) (record : RecordOf id) :
    Triple (fun thread => thread.history = rows) (storeRecord engine id key record)
      (fun _ thread => thread.history = rows) exit := fun _ holds => holds

theorem readCustomers_spec (keys : List Nat) :
    Triple (fun thread => thread.history = rows) (readCustomers engine keys)
      (fun _ thread => thread.history = rows) exit := by
  induction keys with
  | nil => exact .pure fun _ holds => holds
  | cons key rest ih =>
    refine (readRecord_spec _ _).bind fun found => ?_
    cases found with
    | some c => exact ih.bind fun _ => .pure fun _ holds => holds
    | none => exact .pure fun _ holds => holds

theorem customerByLastName_spec (keys : List Nat) :
    Triple (fun thread => thread.history = rows) (customerByLastName engine keys)
      (fun _ thread => thread.history = rows) exit := by
  unfold customerByLastName
  split
  · exact .pure fun _ holds => holds
  · refine (readCustomers_spec keys).bind fun found => ?_
    cases found with
    | none => exact .pure fun _ holds => holds
    | some recs => exact (updateRecord_spec _ _).bind fun _ => .pure fun _ holds => holds

theorem payingCustomer_spec (stops : ∀ code thread, thread.history = rows → exit code thread) :
    Triple (fun thread => thread.history = rows) (payingCustomer engine byLastName attempt)
      (fun _ thread => thread.history = rows) exit := by
  simp only [payingCustomer]
  split
  · refine (customerByLastName_spec _).bind fun found => ?_
    exact (checked_spec stops).bind fun _ => .pure fun _ holds => holds
  · refine (updateRecord_spec _ _).bind fun record => ?_
    exact (checked_spec stops).bind fun _ => .pure fun _ holds => holds

/-- Up to the History row the table is as it was, whatever fails. -/
theorem paymentUpdates_spec (stops : ∀ code thread, thread.history = rows → exit code thread) :
    Triple (fun thread => thread.history = rows) (paymentUpdates engine byLastName attempt)
      (fun _ thread => thread.history = rows) exit := by
  unfold paymentUpdates
  refine (updateRecord_spec _ _).bind fun w => (checked_spec stops).bind fun _ => ?_
  refine (storeRecord_spec _ _ _).bind fun _ => (checked_spec stops).bind fun _ => ?_
  refine (updateRecord_spec _ _).bind fun d => (checked_spec stops).bind fun _ => ?_
  refine (storeRecord_spec _ _ _).bind fun _ => (checked_spec stops).bind fun _ => ?_
  refine (payingCustomer_spec stops).bind fun found => ?_
  refine (storeRecord_spec _ _ _).bind fun _ => (checked_spec stops).bind fun _ => ?_
  exact .pure fun _ holds => holds

/-- An attempt that commits adds its row; one that fails adds one exactly if it fails late. -/
theorem payment_spec (engine : Engine σ) (byLastName : Nat → Nat → CStr → List Nat)
    (attempt : PaymentAttempt) (thread : Thread σ) :
    match (payment engine byLastName attempt).result thread with
    | (.ok out, after) => ¬ FailsLate engine byLastName attempt thread ∧
        ∃ row, out.Matches row ∧ after.history = thread.history ++ [row]
    | (.error _, after) => ∃ rows, after.history = thread.history ++ rows ∧
        (rows = [] ↔ ¬ FailsLate engine byLastName attempt thread) := by
  have kept := @paymentUpdates_spec σ engine byLastName attempt thread.history
    (fun _ after => after.history = thread.history) (fun _ _ holds => holds) thread rfl
  unfold payment
  rw [Program.result_bind]
  rcases updates : (paymentUpdates engine byLastName attempt).result thread with ⟨outcome, middle⟩
  rw [updates] at kept
  cases outcome with
  | error code =>
    refine ⟨[], by simpa using kept, iff_of_true rfl ?_⟩
    rintro ⟨found, after, succeeds, -⟩
    cases updates.symm.trans succeeds
  | ok found =>
    have late : FailsLate engine byLastName attempt thread ↔
        attempt.injected .prepareInsertHistory = true ∨
          attempt.injected .finishInsertHistory = true ∨
          (engine.precommit middle.protocol).1 = false := by
      unfold FailsLate
      simp [updates]
    rw [late]
    rcases commits : engine.precommit middle.protocol with ⟨committed, protocol⟩
    cases prepare : attempt.injected .prepareInsertHistory with
    | true => simp [prepareHistory, checked, kept]
    | false =>
      cases finish : attempt.injected .finishInsertHistory with
      | true => simp [prepareHistory, fillHistory, checked, kept]
      | false =>
        cases committed with
        | false => simp [prepareHistory, fillHistory, checked, commitTx, commits, kept]
        | true =>
          simp [prepareHistory, fillHistory, checked, commitTx, commits, kept,
            PaymentOutput.Matches, createHistory, -bind_pure_comp]

/-! ## Whole Payments -/

variable (engine byLastName)

/-- No attempt fails late in the state that it finds. -/
def NoneLate : List PaymentAttempt → Thread σ → Prop
  | [], _ => True
  | attempt :: rest, thread => ¬ FailsLate engine byLastName attempt thread ∧
      ∀ after, (payment engine byLastName attempt).result thread = (.error .systemAbort, after) →
        NoneLate rest after

def NoneLateIn : List (List PaymentAttempt) → Thread σ → Prop
  | [], _ => True
  | attempts :: rest, thread => NoneLate engine byLastName attempts thread ∧
      ∀ out after, payWithRetry engine byLastName attempts thread = some (out, after) →
        NoneLateIn rest after

variable {engine byLastName}

/-- The last row is that of the Payment; the others are left from attempts that failed late. -/
theorem payWithRetry_history {attempts : List PaymentAttempt} {thread after : Thread σ}
    {out : PaymentOutput}
    (paid : payWithRetry engine byLastName attempts thread = some (out, after)) :
    ∃ left row, after.history = thread.history ++ left ++ [row] ∧ out.Matches row ∧
      (left = [] ↔ NoneLate engine byLastName attempts thread) := by
  induction attempts generalizing thread with
  | nil => cases paid
  | cons attempt rest ih =>
    have spec := payment_spec engine byLastName attempt thread
    rw [payWithRetry] at paid
    rw [NoneLate]
    rcases result : (payment engine byLastName attempt).result thread with ⟨outcome, middle⟩
    rw [result] at spec paid
    cases outcome with
    | ok made =>
      obtain ⟨-, same⟩ := Option.ite_some_none_eq_some.mp paid
      cases same
      obtain ⟨early, row, holds, gained⟩ := spec
      exact ⟨[], row, by simpa using gained, holds, iff_of_true rfl ⟨early, nofun⟩⟩
    | error code =>
      obtain ⟨lost, middleRows, early⟩ := spec
      cases code with
      | systemAbort =>
        obtain ⟨left, row, gained, holds, later⟩ := ih paid
        refine ⟨lost ++ left, row, by simp [gained, middleRows], holds, ?_⟩
        rw [List.append_eq_nil_iff, early, later]
        exact and_congr_right fun _ => ⟨fun none' _ same => by cases same; exact none',
          fun all => all _ rfl⟩
      | success | userAbort | bug => cases paid

/-- A worker never gains fewer rows than it commits Payments. -/
theorem payments_gain {attempts : List (List PaymentAttempt)} {thread after : Thread σ}
    {outs : List PaymentOutput}
    (paid : payments engine byLastName attempts thread = some (outs, after)) :
    ∃ rows, after.history = thread.history ++ rows ∧ outs.length ≤ rows.length ∧
      (rows.length = outs.length → NoneLateIn engine byLastName attempts thread) ∧
      (NoneLateIn engine byLastName attempts thread → List.Forall₂ PaymentOutput.Matches outs rows)
      := by
  induction attempts generalizing thread outs with
  | nil =>
    cases paid
    exact ⟨[], by simp, le_rfl, fun _ => trivial, fun _ => .nil⟩
  | cons tries rest ih =>
    rw [payments] at paid
    obtain ⟨⟨out, middle⟩, first, paid⟩ := Option.bind_eq_some_iff.mp paid
    obtain ⟨⟨others, final⟩, remaining, same⟩ := Option.bind_eq_some_iff.mp paid
    cases same
    obtain ⟨left, row, gained, holds, early⟩ := payWithRetry_history first
    obtain ⟨rows, history, enough, exact', matched⟩ := ih remaining
    refine ⟨left ++ row :: rows, by simp [history, gained], ?_, fun same => ?_, fun none' => ?_⟩
    · simp only [List.length_append, List.length_cons]
      omega
    · simp only [List.length_append, List.length_cons] at same
      refine ⟨early.mp (List.length_eq_zero_iff.mp (by omega)), fun _ _ again => ?_⟩
      cases first.symm.trans again
      exact exact' (by omega)
    · rw [early.mpr none'.1]
      exact .cons holds (matched (none'.2 out middle first))

end Attempts

/-- A worker gains exactly the rows of the Payments that it commits, in their order, if and only
if no attempt fails after it has put its row into the table. -/
theorem payments_history_iff {σ : Type} {engine : Engine σ}
    {byLastName : Nat → Nat → CStr → List Nat} {attempts : List (List PaymentAttempt)}
    {thread after : Thread σ} {outs : List PaymentOutput}
    (paid : payments engine byLastName attempts thread = some (outs, after)) :
    (∃ rows, after.history = thread.history ++ rows ∧ rows.length = outs.length ∧
        List.Forall₂ PaymentOutput.Matches outs rows) ↔
      NoneLateIn engine byLastName attempts thread := by
  obtain ⟨rows, history, -, early, matched⟩ := payments_gain paid
  constructor
  · rintro ⟨rows', history', length, -⟩
    obtain rfl := List.append_cancel_left (history.symm.trans history')
    exact early length
  · intro none'
    exact ⟨rows, history, (matched none').length_eq.symm, matched none'⟩

/-! ## A Payment that is retried -/

/-- Every call succeeds, but `precommit` answers as the list says. -/
def scripted : Engine (List Bool) where
  read _ _ answers := (some default, answers)
  update _ _ answers := (some default, answers)
  store _ _ _ answers := answers
  precommit
    | [] => (true, [])
    | answer :: rest => (answer, rest)
  abort answers := answers

def plainPayment : PaymentAttempt where
  input := { wId := 1, dId := 1, cId := 1, cWId := 1, cDId := 1, hAmount := 100
             byLastName := false, cLast := [], chosen := 0 }
  injected _ := false
  now := 0

/-- The first attempt fails to validate and the second commits: one Payment, two rows. -/
theorem failedPrecommit_twoRows :
    ∃ out after, payments scripted (fun _ _ _ => []) [[plainPayment, plainPayment]]
        { protocol := [false], history := [] } = some ([out], after) ∧
      after.history.length = 2 := by
  have reached : (payments scripted (fun _ _ _ => []) [[plainPayment, plainPayment]]
      { protocol := [false], history := [] }).map (fun (outs, after) =>
        (outs.length, after.history.length)) = some (1, 2) := by
    decide +kernel
  obtain ⟨⟨outs, after⟩, paid, lengths⟩ := Option.map_eq_some_iff.mp reached
  obtain ⟨one, two⟩ := Prod.mk.inj lengths
  obtain ⟨out, rfl⟩ := List.length_eq_one_iff.mp one
  exact ⟨out, after, paid, two⟩

def abortedEarly : PaymentAttempt :=
  { plainPayment with injected := (· = .finishUpdateWarehouse) }

/-- One attempt is aborted at the warehouse, and the `precommit` that would fail is not called. -/
theorem earlyAbort_twoRows :
    ∃ outs after, payments scripted (fun _ _ _ => [])
        [[abortedEarly, plainPayment], [plainPayment]]
        { protocol := [true, true, false], history := [] } = some (outs, after) ∧
      outs.length = 2 ∧ ∃ rows, after.history = [] ++ rows ∧ rows.length = outs.length ∧
        List.Forall₂ PaymentOutput.Matches outs rows := by
  have reached : (payments scripted (fun _ _ _ => [])
      [[abortedEarly, plainPayment], [plainPayment]]
      { protocol := [true, true, false], history := [] }).map (fun (outs, after) =>
        (outs.length, after.history.length)) = some (2, 2) := by
    decide +kernel
  obtain ⟨⟨outs, after⟩, paid, lengths⟩ := Option.map_eq_some_iff.mp reached
  obtain ⟨two, both⟩ := Prod.mk.inj lengths
  obtain ⟨rows, history, -, early, -⟩ := payments_gain paid
  have gained : rows.length = outs.length := by
    rw [two, ← both, history, List.nil_append]
  exact ⟨outs, after, paid, two, (payments_history_iff paid).mpr (early gained)⟩

end TpccRunner.Tpcc
