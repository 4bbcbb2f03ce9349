import TpccRunner.Silo.Sets

/-!
# What a step of Silo does

`Move state i after` lists the changes that a step of transaction `i` can make, with what the
step has seen.  Steps of the operations that leave the sets alone are taken together.
-/

set_option autoImplicit false

namespace TpccRunner.Silo

open Lib Masstree

variable {I K R : Type}

def Label.actor : Label I K R → Option I
  | .advanceEpoch => none
  | .call i _ _ | .access i _ | .insertKey i _ _ | .store i _ _ | .scan i _ _ _ | .scanLeaf i
  | .visit i _ | .precommit i | .lockNext i | .loadEpoch i _ | .validateNext i | .verifyNext i
  | .writeNext i | .removeNext i | .unlockNext i | .abort i | .abortNext i | .unlinkNext i => some i

variable [LinearOrder K]

section Updates
variable (state : State I K R) (val other : Nat) (lock : Bool)

theorem setValue_congr {β : Type} (field : Value R → β) {value : Value R}
    (same : field value = field (state.value val)) :
    field ((state.setValue val value).value other) = field (state.value other) := by
  change field (Function.update state.value val value other) = _
  by_cases equal : other = val
  · subst equal
    rw [Function.update_self, same]
  · rw [Function.update_of_ne equal]

@[simp] theorem setValue_value_self (value : Value R) :
    (state.setValue val value).value val = value :=
  Function.update_self ..

theorem setLock_value_of_ne {other : Nat} (different : other ≠ val) :
    (state.setLock val lock).value other = state.value other :=
  Function.update_of_ne different ..

@[simp] theorem setLock_value_self :
    (state.setLock val lock).value val =
      { state.value val with tidword := { (state.value val).tidword with lock } } :=
  Function.update_self ..

@[simp] theorem setLock_tx : (state.setLock val lock).tx = state.tx := rfl

@[simp] theorem setLock_isReadable :
    ((state.setLock val lock).value other).tidword.isReadable =
      (state.value other).tidword.isReadable :=
  setValue_congr state val other (·.tidword.isReadable) rfl

end Updates

structure Inserts (state : State I K R) (i : I) (op : Operation) (key : K) (fresh : R)
    (tx' : Tx K R) (index : Index K) : Prop where
  absent : state.index.find key = none
  missing : (state.tx i).phase = .missing op key
  find : ∀ other, index.find other = if other = key then some state.nextVal
    else state.index.find other
  rws : tx'.rws = ((state.tx i).settle key (Outcome.inserted op key state.nextVal fresh)).rws
  touched : tx'.touched =
    ((state.tx i).settle key (Outcome.inserted op key state.nextVal fresh)).touched
  ws : tx'.ws = (state.tx i).ws ++ [key]
  log : tx'.log = (state.tx i).log ++ (Outcome.inserted op key state.nextVal fresh).events
  serial : tx'.serial = (state.tx i).serial
  phase : tx'.phase = .running

variable [DecidableEq I]

inductive Move (state : State I K R) (i : I) : State I K R → Prop where
  | think {tx' : Tx K R} (early : (state.tx i).Early) (early' : tx'.Early)
      (rws : tx'.rws = (state.tx i).rws) (touched : tx'.touched = (state.tx i).touched)
      (ws : tx'.ws = (state.tx i).ws) (log : tx'.log = (state.tx i).log)
      (serial : tx'.serial = (state.tx i).serial) (listed : tx'.Listed)
      (refers : ∀ key val, tx'.Refers key val →
        (state.tx i).Refers key val ∨ state.index.find key = some val) :
      Move state i (state.setTx i tx')
  | access {op : Operation} {key : K} {val : Nat} {fresh : R} {outcome : Outcome K R}
      {phase : Phase K R} (early : (state.tx i).Early)
      (found : (state.tx i).rws key = none → (state.tx i).Refers key val)
      (unlocked : (state.value ((state.tx i).target key val)).tidword.lock = false)
      (done : (state.tx i).access op key val (state.value ((state.tx i).target key val)) fresh =
        some outcome)
      (early' : (((state.tx i).settle key outcome).moveTo phase).Early)
      (listed : (((state.tx i).settle key outcome).moveTo phase).Listed)
      (refers : ∀ key' val', (((state.tx i).settle key outcome).moveTo phase).Refers key' val' →
        (state.tx i).Refers key' val') :
      Move state i (state.setTx i (((state.tx i).settle key outcome).moveTo phase))
  | insert {op : Operation} {key : K} {fresh : R} {tx' : Tx K R} {index : Index K}
      (inserts : Inserts state i op key fresh tx' index) :
      Move state i { (state.setValue state.nextVal Value.placeholder).setTx i tx' with
        index, nextVal := state.nextVal + 1 }
  | store {key : K} {element : ReadWriteElement R} {record : R}
      (running : (state.tx i).phase = .running) (own : (state.tx i).rws key = some element)
      (writable : element.rwt = .update ∨ element.rwt = .insert) :
      Move state i (state.setTx i ((state.tx i).settle key
        ⟨{ element with record := some record }, false, none, [.write key (some record)]⟩))
  | precommit (running : (state.tx i).phase = .running) :
      Move state i (state.setTx i { state.tx i with
        ws := (state.tx i).ws.insertionSort (· ≤ ·)
        phase := .locking [] ((state.tx i).ws.insertionSort (· ≤ ·)) 0 })
  | lock {locked rest : List K} {key : K} {tid : Nat} {element : ReadWriteElement R}
      (phase : (state.tx i).phase = .locking locked (key :: rest) tid)
      (own : (state.tx i).rws key = some element)
      (unlocked : (state.value element.val).tidword.lock = false)
      (usable : element.isNew = true ∨ (state.value element.val).tidword.isReadable = true) :
      Move state i ((state.setLock element.val true).setPhase i
        (.locking (locked ++ [key]) rest (max tid (state.value element.val).tidword.tid)))
  | lockFails {locked rest : List K} {key : K} {tid : Nat} {element : ReadWriteElement R}
      (phase : (state.tx i).phase = .locking locked (key :: rest) tid)
      (own : (state.tx i).rws key = some element)
      (unlocked : (state.value element.val).tidword.lock = false)
      (old : element.isNew = false)
      (unreadable : (state.value element.val).tidword.isReadable = false) :
      Move state i ((state.setLock element.val true).setPhase i
        (.unlocking (unlockWriteset (some key) (state.tx i).ws)))
  | loadEpoch {locked order : List K} {tid : Nat}
      (phase : (state.tx i).phase = .locking locked [] tid)
      (perm : order.Perm (state.tx i).touched) :
      Move state i { state.setTx i { state.tx i with
          phase := .validating state.globalEpoch tid order
          serial := state.order.length + 1 } with
        order := state.order ++ [i] }
  | skip {epoch tid : Nat} {key : K} {rest : List K} {element : ReadWriteElement R}
      (phase : (state.tx i).phase = .validating epoch tid (key :: rest))
      (own : (state.tx i).rws key = some element) (blind : element.rwt = .insert) :
      Move state i (state.setPhase i (.validating epoch tid rest))
  | validate {epoch tid : Nat} {key : K} {rest : List K} {element : ReadWriteElement R}
      (phase : (state.tx i).phase = .validating epoch tid (key :: rest))
      (own : (state.tx i).rws key = some element) (checked : element.rwt ≠ .insert)
      (valid : (state.value element.val).tidword.isValid element.tw = true)
      (unlocked : element.rwt = .read → (state.value element.val).tidword.lock = false) :
      Move state i (state.setPhase i
        (.validating epoch (max tid (state.value element.val).tidword.tid) rest))
  | validated {epoch tid : Nat} (phase : (state.tx i).phase = .validating epoch tid []) :
      Move state i (state.setPhase i (.verifying epoch ((tid + 1) % 2 ^ 29) (state.tx i).ns))
  | verify {epoch tid : Nat} {node : Nat × Nat} {rest : NodeMap}
      (phase : (state.tx i).phase = .verifying epoch tid (node :: rest)) :
      Move state i (state.setPhase i (.verifying epoch tid rest))
  | decide {epoch tid : Nat} (phase : (state.tx i).phase = .verifying epoch tid []) :
      Move state i (state.setPhase i (.writing epoch tid (state.tx i).ws))
  | fail {epoch tid : Nat}
      (phase : (∃ rest, (state.tx i).phase = .validating epoch tid rest) ∨
        ∃ rest, (state.tx i).phase = .verifying epoch tid rest) :
      Move state i (state.setPhase i (.unlocking (unlockWriteset none (state.tx i).ws)))
  | write {epoch tid : Nat} {key : K} {rest : List K} {element : ReadWriteElement R}
      (phase : (state.tx i).phase = .writing epoch tid (key :: rest))
      (own : (state.tx i).rws key = some element) :
      Move state i ((state.setValue element.val
        (element.installed epoch tid (state.tx i).serial)).setPhase i
          (if element.rwt = .delete then .removing epoch tid key rest
          else .writing epoch tid rest))
  | written {epoch tid : Nat} (phase : (state.tx i).phase = .writing epoch tid []) :
      Move state i (state.setPhase i .committed)
  | remove {epoch tid : Nat} {key : K} {rest : List K}
      (phase : (state.tx i).phase = .removing epoch tid key rest) :
      Move state i ({ state with index := state.index.remove key }.setPhase i
        (.writing epoch tid rest))
  | unlock {key : K} {rest : List K} {element : ReadWriteElement R}
      (phase : (state.tx i).phase = .unlocking (key :: rest))
      (own : (state.tx i).rws key = some element) :
      Move state i ((state.setLock element.val false).setPhase i (.unlocking rest))
  | unlocked (phase : (state.tx i).phase = .unlocking []) :
      Move state i (state.setPhase i .failed)
  | abort (phase : (state.tx i).phase = .running ∨ (state.tx i).phase = .failed) :
      Move state i (state.setPhase i (.aborting (state.tx i).ws))
  | retire {key : K} {rest : List K} {element : ReadWriteElement R}
      (phase : (state.tx i).phase = .aborting (key :: rest))
      (own : (state.tx i).rws key = some element) (isNew : element.isNew = true)
      (unlocked : (state.value element.val).tidword.lock = false) :
      Move state i ((state.setValue element.val (state.value element.val).retired).setPhase i
        (.retired key rest))
  | keep {key : K} {rest : List K} {element : ReadWriteElement R}
      (phase : (state.tx i).phase = .aborting (key :: rest))
      (own : (state.tx i).rws key = some element) (old : element.isNew = false) :
      Move state i (state.setPhase i (.aborting rest))
  | aborted (phase : (state.tx i).phase = .aborting []) :
      Move state i (state.setTx i { state.tx i with
        phase := .aborted
        rws := fun _ => none
        touched := []
        ws := []
        ns := [] })
  | unlink {key : K} {rest : List K} (phase : (state.tx i).phase = .retired key rest) :
      Move state i ({ state with index := state.index.remove key }.setPhase i (.aborting rest))

section Steps
variable {state after : State I K R} {i : I}

@[simp] theorem setTx_tx_self (state : State I K R) (i : I) (tx : Tx K R) :
    (state.setTx i tx).tx i = tx :=
  Function.update_self ..

@[simp] theorem setPhase_value (state : State I K R) (i : I) (phase : Phase K R) :
    (state.setPhase i phase).value = state.value := rfl

theorem setTx_tx_of_ne (state : State I K R) (tx : Tx K R) {i j : I} (different : j ≠ i) :
    (state.setTx i tx).tx j = state.tx j :=
  Function.update_of_ne different ..

theorem Move.tx_of_ne (move : Move state i after) {j : I} (different : j ≠ i) :
    after.tx j = state.tx j := by
  cases move <;> exact Function.update_of_ne different ..

theorem setTx_self (state : State I K R) (i : I) : state.setTx i (state.tx i) = state := by
  simp [State.setTx]

theorem Move.phase {phase : Phase K R} {ns : NodeMap} {scans : List (Scan K R)}
    (early : (state.tx i).Early) (early' : { state.tx i with phase, ns, scans }.Early)
    (listed : { state.tx i with phase, ns, scans }.Listed)
    (refers : ∀ key val, { state.tx i with phase, ns, scans }.Refers key val →
      (state.tx i).Refers key val ∨ state.index.find key = some val) :
    Move state i (state.setTx i { state.tx i with phase, ns, scans }) :=
  .think early early' rfl rfl rfl rfl rfl listed refers

theorem Move.returns {ns : NodeMap} {scans : List (Scan K R)} (early : (state.tx i).Early) :
    Move state i (state.setTx i { state.tx i with phase := .running, ns, scans }) :=
  .phase early (by simp [Tx.Early]) (by simp [Tx.Listed]) fun _ _ refers => by
    simp [Tx.Refers] at refers

theorem Move.stay (running : (state.tx i).phase = .running) : Move state i state := by
  have early : (state.tx i).Early := by simp [Tx.Early, running]
  have move : Move state i (state.setTx i (state.tx i)) :=
    .think early early rfl rfl rfl rfl rfl (by simp [Tx.Listed, running])
      fun _ _ refers => .inl refers
  rwa [setTx_self] at move

theorem move_of_call {op : Operation} {key : K} (taken : state.call i op key = some after) :
    Move state i after := by
  unfold State.call at taken
  dsimp only at taken
  split at taken
  · rename_i element running own
    have early : (state.tx i).Early := by simp [Tx.Early, running]
    split at taken <;> cases taken
    · exact .stay running
    · refine .phase early (by simp [Tx.Early]) (by simp [Tx.Listed]) fun key' val' refers => ?_
      obtain ⟨rfl, -, absent⟩ := refers
      simp [own] at absent
  · rename_i running own
    have early : (state.tx i).Early := by simp [Tx.Early, running]
    split at taken <;> cases taken
    case h_1 => exact .stay running
    case h_2 val found _ =>
      refine .phase early (by simp [Tx.Early]) (by simp [Tx.Listed]) fun key' val' refers => ?_
      obtain ⟨rfl, rfl, -⟩ := refers
      exact .inr found
    case h_6 =>
      refine .phase early ?_ ?_ fun _ _ refers => .inl refers
      · simp [Tx.Early, running]
      · simp [Tx.Listed, running]
    case h_7 => exact .stay running
    case h_8 => exact .stay running
    all_goals
      exact .phase early (by simp [Tx.Early]) own fun _ _ refers => by simp [Tx.Refers] at refers
  · cases taken

theorem move_of_access {fresh : R} (taken : state.access i fresh = some after) :
    Move state i after := by
  unfold State.access at taken
  dsimp only at taken
  split at taken
  · rename_i op key val found
    have early : (state.tx i).Early := by simp [Tx.Early, found]
    split at taken
    · cases taken
    · rename_i unlocked
      split at taken <;> cases taken
      · exact .returns early
      · rename_i outcome done
        exact .access early (fun absent => by simp [Tx.Refers, found, absent])
          (by simpa using unlocked) done (by simp [Tx.Early]) (by simp [Tx.Listed])
          fun _ _ refers => by simp [Tx.Refers] at refers
  · cases taken

theorem move_of_insertKey {fresh : R} {fence : Option K}
    (taken : state.insertKey i fresh fence = some after) : Move state i after := by
  unfold State.insertKey at taken
  dsimp only at taken
  split at taken
  · rename_i op key missing
    have early : (state.tx i).Early := by simp [Tx.Early, missing]
    split at taken
    · cases taken
      exact .returns early
    · rename_i absent
      obtain ⟨room, made, rfl⟩ := Option.map_eq_some_iff.mp taken
      refine .insert (?_ : Inserts state i op key fresh _ _)
      exact {
        absent
        missing
        find := fun other => by rw [Index.find_add, Index.find_makeRoom made]
        rws := rfl
        touched := rfl
        ws := by simp [Tx.settle, Outcome.inserted]
        log := rfl
        serial := rfl
        phase := rfl }
  · cases taken

theorem move_of_store {key : K} {record : R} (taken : state.store i key record = some after) :
    Move state i after := by
  unfold State.store at taken
  dsimp only at taken
  split at taken
  · rename_i element running own
    obtain ⟨writable, taken⟩ := Option.ite_none_right_eq_some.mp taken
    cases taken
    exact .store running own writable
  · cases taken

theorem move_of_scan {op : Operation} {low up : K} (taken : state.scan i op low up = some after) :
    Move state i after := by
  unfold State.scan at taken
  split at taken
  · rename_i running
    cases taken
    exact .phase (by simp [Tx.Early, running]) (by simp [Tx.Early]) (by simp [Tx.Listed])
      fun _ _ refers => by simp [Tx.Refers] at refers
  · rename_i running
    cases taken
    exact .phase (by simp [Tx.Early, running]) (by simp [Tx.Early]) (by simp [Tx.Listed])
      fun _ _ refers => by simp [Tx.Refers] at refers
  · cases taken

theorem move_of_scanLeaf (taken : state.scanLeaf i = some after) : Move state i after := by
  unfold State.scanLeaf at taken
  dsimp only at taken
  split at taken
  · rename_i op low up cursor listed scanning
    have early : (state.tx i).Early := by simp [Tx.Early, scanning]
    -- what a leaf adds to the list is in the index
    have refers : ∀ key val bound, (key, val) ∈ listed ++ state.index.entries.range cursor bound →
        (state.tx i).Refers key val ∨ state.index.find key = some val := by
      intro key val bound member
      obtain old | new := List.mem_append.mp member
      · exact .inl (by simpa [Tx.Refers, scanning] using old)
      · exact .inr (OrderedMap.mem_range.mp new).1
    split at taken <;> cases taken
    · exact .returns early
    · split
      · exact .phase early (by simp [Tx.Early]) (by simp [Tx.Listed]) fun key val member =>
          refers key val _ member
      · exact .phase early (by simp [Tx.Early]) (by simp [Tx.Listed]) fun key val member =>
          refers key val _ member
  · cases taken

theorem move_of_visit {fresh : R} (taken : state.visit i fresh = some after) :
    Move state i after := by
  unfold State.visit at taken
  dsimp only at taken
  split at taken
  · rename_i op low up key val rest rows visiting
    have early : (state.tx i).Early := by simp [Tx.Early, visiting]
    split at taken
    · cases taken
      exact .returns early
    · split at taken
      · cases taken
      · rename_i unlocked
        split at taken <;> cases taken
        · exact .returns early
        · rename_i outcome done
          refine .access early (fun absent => by simp [Tx.Refers, visiting])
            (by simpa using unlocked) done (by simp [Tx.Early]) (by simp [Tx.Listed])
            fun key' val' member => ?_
          simp only [Tx.Refers, visiting]
          exact List.mem_cons_of_mem _ member
  · rename_i visiting
    cases taken
    exact .returns (by simp [Tx.Early, visiting])
  · cases taken

theorem move_of_precommit (taken : state.precommit i = some after) : Move state i after := by
  unfold State.precommit at taken
  dsimp only at taken
  split at taken
  · rename_i running
    cases taken
    exact .precommit running
  · cases taken

theorem move_of_lockNext (taken : state.lockNext i = some after) : Move state i after := by
  unfold State.lockNext at taken
  dsimp only at taken
  split at taken
  · rename_i locked key rest tid phase
    obtain ⟨element, own, taken⟩ := Option.bind_eq_some_iff.mp taken
    obtain ⟨unlocked, taken⟩ := Option.ite_none_left_eq_some.mp taken
    cases taken
    split
    · rename_i refused
      obtain ⟨old, unreadable⟩ := Bool.and_eq_true_iff.mp refused
      exact .lockFails phase own (by simpa using unlocked) (by simpa using old)
        (by simpa using unreadable)
    · rename_i usable
      exact .lock phase own (by simpa using unlocked) (by
        simp only [Bool.and_eq_true, Bool.not_eq_true'] at usable
        cases new : element.isNew <;> simp_all)
  · cases taken

theorem move_of_loadEpoch {order : List K} (taken : state.loadEpoch i order = some after) :
    Move state i after := by
  unfold State.loadEpoch at taken
  dsimp only at taken
  split at taken
  · rename_i locked tid phase
    obtain ⟨perm, taken⟩ := Option.ite_none_right_eq_some.mp taken
    cases taken
    exact .loadEpoch phase (List.isPerm_iff.mp perm)
  · cases taken

theorem move_of_validateNext (taken : state.validateNext i = some after) : Move state i after := by
  unfold State.validateNext at taken
  dsimp only at taken
  split at taken
  · rename_i epoch tid key rest phase
    obtain ⟨element, own, rfl⟩ := Option.map_eq_some_iff.mp taken
    split
    · rename_i blind
      exact .skip phase own blind
    · rename_i checked
      split
      · exact .fail (.inl ⟨_, phase⟩)
      · rename_i passed
        simp only [Bool.or_eq_true, Bool.not_eq_true', Bool.and_eq_true, decide_eq_true_eq,
          not_or, not_and, Bool.not_eq_false] at passed
        refine .validate phase own checked passed.1 fun read => ?_
        cases lock : (state.value element.val).tidword.lock with
        | false => rfl
        | true => exact absurd read (passed.2 lock)
  · rename_i epoch tid phase
    cases taken
    exact .validated phase
  · cases taken

theorem move_of_verifyNext (taken : state.verifyNext i = some after) : Move state i after := by
  unfold State.verifyNext at taken
  dsimp only at taken
  split at taken
  · rename_i phase
    cases taken
    split
    · exact .verify phase
    · exact .fail (.inr ⟨_, phase⟩)
  · rename_i phase
    cases taken
    exact .decide phase
  · cases taken

theorem move_of_writeNext (taken : state.writeNext i = some after) : Move state i after := by
  unfold State.writeNext at taken
  dsimp only at taken
  split at taken
  · rename_i phase
    obtain ⟨element, own, rfl⟩ := Option.map_eq_some_iff.mp taken
    exact .write phase own
  · rename_i phase
    cases taken
    exact .written phase
  · cases taken

theorem move_of_removeNext (taken : state.removeNext i = some after) : Move state i after := by
  unfold State.removeNext at taken
  split at taken <;> cases taken
  rename_i phase
  exact .remove phase

theorem move_of_unlockNext (taken : state.unlockNext i = some after) : Move state i after := by
  unfold State.unlockNext at taken
  dsimp only at taken
  split at taken
  · rename_i phase
    obtain ⟨element, own, rfl⟩ := Option.map_eq_some_iff.mp taken
    exact .unlock phase own
  · rename_i phase
    cases taken
    exact .unlocked phase
  · cases taken

theorem move_of_abort (taken : state.abort i = some after) : Move state i after := by
  unfold State.abort at taken
  split at taken <;> cases taken
  · exact .abort (.inl (by assumption))
  · exact .abort (.inr (by assumption))

theorem move_of_abortNext (taken : state.abortNext i = some after) : Move state i after := by
  unfold State.abortNext at taken
  dsimp only at taken
  split at taken
  · rename_i phase
    obtain ⟨element, own, taken⟩ := Option.bind_eq_some_iff.mp taken
    split at taken
    · rename_i isNew
      obtain ⟨unlocked, taken⟩ := Option.ite_none_left_eq_some.mp taken
      cases taken
      exact .retire phase own isNew (by simpa using unlocked)
    · rename_i old
      cases taken
      exact .keep phase own (by simpa using old)
  · rename_i phase
    cases taken
    exact .aborted phase
  · cases taken

theorem move_of_unlinkNext (taken : state.unlinkNext i = some after) : Move state i after := by
  unfold State.unlinkNext at taken
  split at taken <;> cases taken
  rename_i phase
  exact .unlink phase

/-- Every step is one of the epoch thread or a move of its transaction. -/
theorem step_cases {label : Label I K R} (taken : step state label = some after) :
    (label.actor = none ∧
        after = { state with globalEpoch := (state.globalEpoch + 1) % 2 ^ 32 }) ∨
      ∃ i, label.actor = some i ∧ Move state i after := by
  cases label with
  | advanceEpoch => exact .inl ⟨rfl, (Option.some.inj taken).symm⟩
  | call i => exact .inr ⟨i, rfl, move_of_call taken⟩
  | access i => exact .inr ⟨i, rfl, move_of_access taken⟩
  | insertKey i => exact .inr ⟨i, rfl, move_of_insertKey taken⟩
  | store i => exact .inr ⟨i, rfl, move_of_store taken⟩
  | scan i => exact .inr ⟨i, rfl, move_of_scan taken⟩
  | scanLeaf i => exact .inr ⟨i, rfl, move_of_scanLeaf taken⟩
  | visit i => exact .inr ⟨i, rfl, move_of_visit taken⟩
  | precommit i => exact .inr ⟨i, rfl, move_of_precommit taken⟩
  | lockNext i => exact .inr ⟨i, rfl, move_of_lockNext taken⟩
  | loadEpoch i => exact .inr ⟨i, rfl, move_of_loadEpoch taken⟩
  | validateNext i => exact .inr ⟨i, rfl, move_of_validateNext taken⟩
  | verifyNext i => exact .inr ⟨i, rfl, move_of_verifyNext taken⟩
  | writeNext i => exact .inr ⟨i, rfl, move_of_writeNext taken⟩
  | removeNext i => exact .inr ⟨i, rfl, move_of_removeNext taken⟩
  | unlockNext i => exact .inr ⟨i, rfl, move_of_unlockNext taken⟩
  | abort i => exact .inr ⟨i, rfl, move_of_abort taken⟩
  | abortNext i => exact .inr ⟨i, rfl, move_of_abortNext taken⟩
  | unlinkNext i => exact .inr ⟨i, rfl, move_of_unlinkNext taken⟩

end Steps

end TpccRunner.Silo
