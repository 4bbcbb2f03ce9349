import TpccRunner.Silo.Placement

/-!
# Every step keeps the places and the locks

One lemma for each kind of move, then the rule for all of them and for whole runs.
-/

set_option autoImplicit false

namespace TpccRunner.Silo

open Lib Masstree

variable {I K R : Type} [LinearOrder K]

namespace Placed

variable {state after : State I K R} {place : Nat → Option (K × Life I)} {i : I} {key : K}
  {element : ReadWriteElement R} {tx' : Tx K R}

/-! ## One value moves on -/

section OneValue
variable {val : Nat} {life life' : Life I}

theorem allocated_at (placed : Placed state place) (here : place val = some (key, life)) :
    ∀ other entry, Function.update place val (some (key, life')) other = some entry →
      other < state.nextVal := by
  intro other entry there
  by_cases same : other = val
  · subst same
    exact placed.allocated other _ here
  · rw [Function.update_of_ne same] at there
    exact placed.allocated other entry there

omit [LinearOrder K] in
theorem kept_at (here : place val = some (key, life)) :
    ∀ other key' life₀, place other = some (key', life₀) →
      ∃ life₁, Function.update place val (some (key, life')) other = some (key', life₁) := by
  intro other key' life₀ there
  by_cases same : other = val
  · subst same
    rw [Function.update_self]
    rw [here] at there
    obtain ⟨rfl, -⟩ := Prod.mk.inj (Option.some.inj there)
    exact ⟨life', rfl⟩
  · exact ⟨life₀, by rwa [Function.update_of_ne same]⟩

theorem find_at (placed : Placed state place) (here : place val = some (key, life))
    (alive : life' = .dead ↔ life = .dead) (key' : K) (other : Nat) :
    state.index.find key' = some other ↔
      ∃ life₀, Function.update place val (some (key, life')) other = some (key', life₀) ∧
        life₀ ≠ .dead := by
  rw [placed.find]
  by_cases same : other = val
  · subst same
    rw [Function.update_self, here]
    simp [alive]
  · rw [Function.update_of_ne same]

theorem find_removed (placed : Placed state place) (here : place val = some (key, life))
    (alive : life ≠ .dead) (key' : K) (other : Nat) :
    (state.index.remove key).find key' = some other ↔
      ∃ life₀, Function.update place val (some (key, .dead)) other = some (key', life₀) ∧
        life₀ ≠ .dead := by
  rw [Index.find_remove]
  by_cases same : other = val
  · subst same
    rw [Function.update_self]
    have found := (placed.find key other).mpr ⟨life, here, alive⟩
    split
    · simp
    · rename_i different
      constructor
      · intro there
        obtain ⟨life₀, there, -⟩ := (placed.find key' other).mp there
        rw [here] at there
        exact absurd (Prod.mk.inj (Option.some.inj there)).1.symm different
      · rintro ⟨life₀, dead, alive⟩
        exact absurd (Prod.mk.inj (Option.some.inj dead)).2.symm alive
  · rw [Function.update_of_ne same]
    split
    · rename_i equal
      subst equal
      constructor
      · intro none'
        cases none'
      · intro there
        have found := (placed.find key' val).mpr ⟨life, here, alive⟩
        rw [(placed.find key' other).mpr there] at found
        exact absurd (Option.some.inj found) same
    · exact placed.find key' other

theorem not_held (placed : Placed state place) (own : (state.tx i).rws key = some element)
    (held : key ∈ (state.tx i).held) {j : I} (different : j ≠ i) {element' : ReadWriteElement R}
    (own' : (state.tx j).rws key = some element') (same : element'.val = element.val) :
    key ∉ (state.tx j).held := fun member =>
  different (placed.exclusive j i key element' element member held own' own same)

variable [DecidableEq I]

theorem onValue (placed : Placed state place) (own : (state.tx i).rws key = some element)
    (here : place element.val = some (key, life))
    (tx : after.tx = Function.update state.tx i tx') (rws : tx'.rws = (state.tx i).rws)
    (nextVal : after.nextVal = state.nextVal)
    (value : ∀ val ≠ element.val, after.value val = state.value val)
    (find : ∀ key' val, after.index.find key' = some val ↔
      ∃ life₀, Function.update place element.val (some (key, life')) val = some (key', life₀) ∧
        life₀ ≠ .dead)
    (readable : (after.value element.val).tidword.isReadable = true ↔ life' = .live)
    (proper : tx'.Proper) (narrows : ∀ other ≠ key, (state.tx i).Narrows tx' other)
    (refers : ∀ val, ¬ tx'.Refers key val)
    (points : Points (after.value element.val) (some (key, life')) i tx' key element)
    (others : ∀ j ≠ i, ∀ element', (state.tx j).rws key = some element' →
      element'.val = element.val →
        Points (state.value element.val) (some (key, life)) j (state.tx j) key element' →
          Points (after.value element.val) (some (key, life')) j (state.tx j) key element')
    (exclusive : ∀ j ≠ i, ∀ element', (state.tx j).rws key = some element' →
      element'.val = element.val → key ∈ tx'.held → key ∉ (state.tx j).held) :
    Placed after (Function.update place element.val (some (key, life'))) := by
  refine placed.update tx ?_ find ?_ (kept_at here) proper ?_ ?_ ?_ ?_
  · rw [nextVal]
    exact placed.allocated_at here
  · intro key' val life₀ there
    by_cases same : val = element.val
    · subst same
      rw [Function.update_self] at there
      obtain ⟨-, rfl⟩ := Prod.mk.inj (Option.some.inj there)
      exact readable
    · rw [Function.update_of_ne same] at there
      rw [value val same]
      exact placed.readable key' val life₀ there
  · intro other element' own'
    rw [rws] at own'
    by_cases same : other = key
    · subst same
      cases own.symm.trans own'
      rwa [Function.update_self]
    · have apart : element'.val ≠ element.val := fun equal =>
        same (placed.key_eq own' own equal)
      rw [value _ apart, Function.update_of_ne apart]
      exact (placed.points i other element' own').narrow (narrows other same)
  · intro other val found
    by_cases same : other = key
    · subst same
      exact absurd found (refers val)
    · exact absurd found ((narrows other same).refers val)
  · intro j different other element' own'
    by_cases same : element'.val = element.val
    · obtain rfl := placed.key_eq own' own same
      have theirs := placed.points j other element' own'
      rw [same, here] at theirs
      rw [same, Function.update_self]
      exact others j different element' own' same theirs
    · rw [value _ same, Function.update_of_ne same]
      exact placed.points j other element' own'
  · intro j different other element₁ element₂ member member' own₁ own₂ same
    rw [rws] at own₁
    by_cases equal : other = key
    · subst equal
      cases own.symm.trans own₁
      exact exclusive j different element₂ own₂ same.symm member member'
    · exact different (placed.exclusive i j other element₁ element₂
        ((narrows other equal).held member) member' own₁ own₂ same).symm

end OneValue

/-! ## Operations -/

theorem points_early (placed : Placed state place) (early : (state.tx i).Early)
    (early' : tx'.Early) {old : ReadWriteElement R} (own : (state.tx i).rws key = some old)
    (same : old.SameRead element) :
    Points (state.value element.val) (place element.val) i tx' key element := by
  have points := placed.points i key old own
  rw [same.val]
  refine .of_early early' ?_ ?_
  · rw [same.isNew]
    exact points.placed
  · rw [same.isNew]
    exact fun isNew => points.created isNew early.unsettled

variable [DecidableEq I]

theorem think (placed : Placed state place) (early : (state.tx i).Early) (early' : tx'.Early)
    (rws : tx'.rws = (state.tx i).rws) (touched : tx'.touched = (state.tx i).touched)
    (ws : tx'.ws = (state.tx i).ws) (listed : tx'.Listed)
    (refers : ∀ key val, tx'.Refers key val →
      (state.tx i).Refers key val ∨ state.index.find key = some val) :
    Placed (state.setTx i tx') place := by
  have proper := placed.proper i
  refine placed.local' rfl rfl rfl rfl
    ⟨ws ▸ proper.nodup, fun key => ?_, fun key => ?_, listed⟩ ?_ ?_ ?_
  · rw [ws, rws]
    exact proper.written key
  · rw [touched, rws]
    exact proper.touched key
  · intro key element own
    rw [rws] at own
    exact placed.points_early early early' own (.refl element)
  · intro key val found
    obtain old | found := refers key val found
    · exact placed.refers i key val old
    · obtain ⟨life, here, -⟩ := (placed.find key val).mp found
      exact ⟨life, here⟩
  · simp [early'.held_eq]

theorem access (placed : Placed state place) {op : Operation} {val : Nat} {fresh : R}
    {outcome : Outcome K R} {phase : Phase K R} (early : (state.tx i).Early)
    (found : (state.tx i).rws key = none → (state.tx i).Refers key val)
    (done : (state.tx i).access op key val (state.value ((state.tx i).target key val)) fresh =
      some outcome)
    (early' : (((state.tx i).settle key outcome).moveTo phase).Early)
    (listed : (((state.tx i).settle key outcome).moveTo phase).Listed)
    (refers : ∀ key' val', (((state.tx i).settle key outcome).moveTo phase).Refers key' val' →
      (state.tx i).Refers key' val') :
    Placed (state.setTx i (((state.tx i).settle key outcome).moveTo phase)) place := by
  refine placed.local' rfl rfl rfl rfl ((placed.proper i).access done rfl rfl rfl listed) ?_
    (fun key' val' member => placed.refers i key' val' (refers key' val' member))
    (by simp [early'.held_eq])
  intro other element own
  by_cases same : other = key
  · subst same
    simp only [Tx.moveTo_rws, Tx.settle, Function.update_self, Option.some.injEq] at own
    subst own
    obtain ⟨absent, first, -⟩ | ⟨old, own, -, done⟩ := Tx.access_cases done
    · -- a value that can be read is live
      have target : (state.tx i).target other val = val := by simp [Tx.target, absent]
      obtain ⟨life, here⟩ := placed.refers i other val (found absent)
      rw [target] at first
      have live := (placed.readable other val life here).mp first.readable
      subst live
      rw [first.val]
      exact .of_early early' ⟨.live, here, by simp⟩ fun isNew => by
        simp [first.isNew] at isNew
    · exact placed.points_early early early' own (perform_sameRead done)
  · simp only [Tx.moveTo_rws, Tx.settle, Function.update_of_ne same] at own
    exact placed.points_early early early' own (.refl element)

theorem store (placed : Placed state place) {record : R}
    (running : (state.tx i).phase = .running) (own : (state.tx i).rws key = some element)
    (writable : element.rwt = .update ∨ element.rwt = .insert) :
    Placed (state.setTx i ((state.tx i).settle key
      ⟨{ element with record := some record }, false, none, [.write key (some record)]⟩))
      place := by
  have early : (state.tx i).Early := by simp [Tx.Early, running]
  have proper := placed.proper i
  have write : element.rwt ≠ .read := by rintro read; simp [read] at writable
  have member := (proper.mem_ws_iff own).mpr write
  refine placed.local' rfl rfl rfl rfl
    (proper.settle (by simp [member]) (fun _ => write) rfl rfl rfl
      (by simp [Tx.Listed, Tx.settle, running])) ?_ ?_ ?_
  · intro other new own'
    by_cases same : other = key
    · subst same
      simp only [Tx.settle, Function.update_self, Option.some.injEq] at own'
      subst own'
      exact placed.points_early early early own ⟨rfl, rfl, rfl, rfl, rfl⟩
    · simp only [Tx.settle, Function.update_of_ne same] at own'
      exact placed.points_early early early own' (.refl new)
  · intro other val refers
    simp [Tx.Refers, Tx.settle, running] at refers
  · simp [Tx.held, Tx.secured, Tx.settle, running]

theorem insert (placed : Placed state place) {op : Operation} {fresh : R} {index : Index K}
    (inserts : Inserts state i op key fresh tx' index) :
    Placed { (state.setValue state.nextVal Value.placeholder).setTx i tx' with
        index, nextVal := state.nextVal + 1 }
      (Function.update place state.nextVal (some (key, .fresh i))) := by
  have early : (state.tx i).Early := by simp [Tx.Early, inserts.missing]
  have early' : tx'.Early := by simp [Tx.Early, inserts.phase]
  have proper := placed.proper i
  have absent : (state.tx i).rws key = none := by
    simpa [Tx.Listed, inserts.missing] using proper.listed
  -- the new value is not one of the old ones
  have unplaced : place state.nextVal = none := by
    by_contra some'
    obtain ⟨entry, here⟩ := Option.ne_none_iff_exists'.mp some'
    exact lt_irrefl _ (placed.allocated _ _ here)
  have old : ∀ val key life, place val = some (key, life) → val ≠ state.nextVal := by
    rintro val key life here rfl
    simp [unplaced] at here
  have apart : ∀ j key element, (state.tx j).rws key = some element →
      element.val ≠ state.nextVal := by
    intro j key element own
    obtain ⟨life, here, -⟩ := (placed.points j key element own).placed
    exact old _ _ _ here
  refine placed.update rfl ?_ ?_ ?_ ?_ (proper.settle ?_ ?_ inserts.rws inserts.touched ?_ ?_)
    ?_ ?_ ?_ ?_
  · intro val entry here
    by_cases same : val = state.nextVal
    · simp [same]
    · rw [Function.update_of_ne same] at here
      exact Nat.lt_succ_of_lt (placed.allocated val entry here)
  · intro other val
    rw [inserts.find]
    by_cases new : val = state.nextVal
    · subst new
      rw [Function.update_self]
      have unfound : state.index.find other ≠ some state.nextVal := by
        rw [Ne, placed.find, unplaced]
        simp
      by_cases same : other = key
      · simp [same]
      · simp [same, unfound, Ne.symm same]
    · rw [Function.update_of_ne new, ← placed.find]
      by_cases same : other = key
      · subst same
        simp [inserts.absent, Ne.symm new]
      · simp [same]
  · intro key' val life there
    change (Function.update state.value _ _ val).tidword.isReadable = true ↔ _
    by_cases same : val = state.nextVal
    · subst same
      rw [Function.update_self] at there ⊢
      obtain ⟨-, rfl⟩ := Prod.mk.inj (Option.some.inj there)
      simp [Value.placeholder, TidWord.isReadable]
    · rw [Function.update_of_ne same] at there ⊢
      exact placed.readable key' val life there
  · intro val key' life here
    exact ⟨life, by rwa [Function.update_of_ne (old val key' life here)]⟩
  · simp [Outcome.inserted, proper.not_mem_ws absent]
  · simp [Outcome.inserted]
  · simp [inserts.ws, Tx.settle, Outcome.inserted]
  · simp [Tx.Listed, inserts.phase]
  · intro other element own
    rw [inserts.rws] at own
    by_cases same : other = key
    · subst same
      simp only [Tx.settle, Function.update_self, Option.some.injEq] at own
      subst own
      exact .of_early early' ⟨.fresh i, by simp [Outcome.inserted], fun j fresh => by
        simpa [Outcome.inserted, eq_comm] using fresh⟩ fun _ => by simp [Outcome.inserted]
    · simp only [Tx.settle, Function.update_of_ne same] at own
      have points := placed.points_early early early' own (.refl element)
      change Points (Function.update state.value state.nextVal Value.placeholder element.val)
        _ _ _ _ _
      rwa [Function.update_of_ne (apart i other element own),
        Function.update_of_ne (apart i other element own)]
  · intro other val refers
    simp [Tx.Refers, inserts.phase] at refers
  · intro j _ other element own
    change Points (Function.update state.value state.nextVal Value.placeholder element.val)
      _ _ _ _ _
    rw [Function.update_of_ne (apart j other element own),
      Function.update_of_ne (apart j other element own)]
    exact placed.points j other element own
  · simp [early'.held_eq]

/-! ## `precommit` -/

theorem precommit (placed : Placed state place) (running : (state.tx i).phase = .running) :
    Placed (state.setTx i { state.tx i with
      ws := (state.tx i).ws.insertionSort (· ≤ ·)
      phase := .locking [] ((state.tx i).ws.insertionSort (· ≤ ·)) 0 }) place := by
  have proper := placed.proper i
  have perm := List.perm_insertionSort (· ≤ ·) (state.tx i).ws
  refine placed.goOn rfl rfl rfl rfl
    ⟨perm.nodup_iff.mpr proper.nodup, fun key => ?_, proper.touched, rfl⟩ rfl fun key => ?_
  · exact perm.mem_iff.trans (proper.written key)
  · constructor <;> simp [Tx.Unsettled, Tx.secured, Tx.held, Tx.unlinking, Tx.Refers, running]

theorem lockAt (placed : Placed state place) {locked rest : List K} {tid : Nat}
    {phase : Phase K R} (locking : (state.tx i).phase = .locking locked (key :: rest) tid)
    (own : (state.tx i).rws key = some element)
    (unlocked : (state.value element.val).tidword.lock = false)
    (listed : ((state.tx i).moveTo phase).Listed)
    (narrows : ∀ other ≠ key, (state.tx i).Narrows ((state.tx i).moveTo phase) other)
    (usable : key ∈ ((state.tx i).moveTo phase).secured →
      element.isNew = true ∨ (state.value element.val).tidword.isReadable = true)
    (unlinking : ((state.tx i).moveTo phase).unlinking = none)
    (refers : ∀ val, ¬ ((state.tx i).moveTo phase).Refers key val) :
    ∃ place', Placed ((state.setLock element.val true).setPhase i phase) place' := by
  have proper := placed.proper i
  have points := placed.points i key element own
  obtain ⟨life, here, mine⟩ := points.placed
  refine ⟨_, placed.onValue own here rfl rfl rfl
    (fun val => setLock_value_of_ne state element.val true) (placed.find_at here Iff.rfl) ?_
    ⟨proper.nodup, proper.written, proper.touched, listed⟩ narrows refers ?_ ?_ ?_⟩
  · rw [setPhase_value, setLock_isReadable]
    exact placed.readable key _ life here
  · rw [setPhase_value, setLock_value_self]
    exact {
      placed := ⟨life, rfl, mine⟩
      created := fun isNew _ => here ▸ points.created isNew (by simp [Tx.Unsettled, locking])
      usable := usable
      locked := fun _ => rfl
      unlinks := fun there => by simp [unlinking] at there }
  · intro j _ element' _ _ points
    rw [setPhase_value, setLock_value_self]
    exact points.lock
  · intro j _ element' own' same _ held
    have locked := (placed.points j key element' own').locked held
    rw [same, unlocked] at locked
    cases locked

theorem lock (placed : Placed state place) {locked rest : List K} {tid tid' : Nat}
    (locking : (state.tx i).phase = .locking locked (key :: rest) tid)
    (own : (state.tx i).rws key = some element)
    (unlocked : (state.value element.val).tidword.lock = false)
    (usable : element.isNew = true ∨ (state.value element.val).tidword.isReadable = true) :
    ∃ place', Placed ((state.setLock element.val true).setPhase i
      (.locking (locked ++ [key]) rest tid')) place' := by
  have listed := (placed.proper i).listed
  simp only [Tx.Listed, locking] at listed
  refine placed.lockAt locking own unlocked (by simpa [Tx.Listed] using listed)
    (fun other different => ?_) (fun _ => usable) rfl fun _ => id
  constructor <;>
    simp [Tx.Unsettled, Tx.secured, Tx.held, Tx.unlinking, Tx.Refers, locking, different]

theorem lockFails (placed : Placed state place) {locked rest : List K} {tid : Nat}
    (locking : (state.tx i).phase = .locking locked (key :: rest) tid)
    (own : (state.tx i).rws key = some element)
    (unlocked : (state.value element.val).tidword.lock = false) :
    ∃ place', Placed ((state.setLock element.val true).setPhase i
      (.unlocking (unlockWriteset (some key) (state.tx i).ws))) place' := by
  have listed := (placed.proper i).listed
  simp only [Tx.Listed, locking] at listed
  have nodup := (placed.proper i).nodup
  rw [listed] at nodup
  have absent : key ∉ locked := fun member =>
    (List.nodup_append.mp nodup).2.2 key member key List.mem_cons_self rfl
  rw [listed, unlockWriteset_append absent]
  refine placed.lockAt locking own unlocked ?_ (fun other different => ?_) ?_ rfl fun _ => id
  · change (locked ++ [key]).Sublist (state.tx i).ws
    rw [listed]
    exact (List.append_sublist_append_left locked).mpr (by simp)
  · constructor <;>
      simp [Tx.Unsettled, Tx.secured, Tx.held, Tx.unlinking, Tx.Refers, locking, different]
  · simp [Tx.secured]

theorem loadEpoch (placed : Placed state place) {locked order : List K} {tid epoch serial : Nat}
    {serials : List I} (locking : (state.tx i).phase = .locking locked [] tid)
    (perm : order.Perm (state.tx i).touched) :
    Placed { state.setTx i { state.tx i with
        phase := .validating epoch tid order
        serial } with
      order := serials } place := by
  have proper := placed.proper i
  have listed := proper.listed
  simp only [Tx.Listed, locking, List.append_nil] at listed
  refine placed.goOn rfl rfl rfl rfl ⟨proper.nodup, proper.written, proper.touched, ?_⟩ rfl
    fun key => ?_
  · exact fun key member => perm.mem_iff.mp member
  · constructor <;>
      simp [Tx.Unsettled, Tx.secured, Tx.held, Tx.unlinking, Tx.Refers, locking, listed]

theorem passes (placed : Placed state place) {epoch tid tid' : Nat} {rest : List K}
    (validating : (state.tx i).phase = .validating epoch tid (key :: rest)) :
    Placed (state.setPhase i (.validating epoch tid' rest)) place := by
  have listed := (placed.proper i).listed
  simp only [Tx.Listed, validating] at listed
  refine placed.setPhase (fun key member => listed key (List.mem_cons_of_mem _ member))
    fun key => ?_
  constructor <;> simp [Tx.Unsettled, Tx.secured, Tx.held, Tx.unlinking, Tx.Refers, validating]

theorem fail (placed : Placed state place) {epoch tid : Nat}
    (phase : (∃ rest, (state.tx i).phase = .validating epoch tid rest) ∨
      ∃ rest, (state.tx i).phase = .verifying epoch tid rest) :
    Placed (state.setPhase i (.unlocking (unlockWriteset none (state.tx i).ws))) place := by
  rw [unlockWriteset_none]
  refine placed.setPhase (List.Sublist.refl _) fun key => ?_
  obtain ⟨rest, phase⟩ | ⟨rest, phase⟩ := phase <;> constructor <;>
    simp [Tx.Unsettled, Tx.secured, Tx.held, Tx.unlinking, Tx.Refers, phase]

theorem write (placed : Placed state place) {epoch tid serial : Nat} {rest : List K}
    (writing : (state.tx i).phase = .writing epoch tid (key :: rest))
    (own : (state.tx i).rws key = some element) :
    Placed ((state.setValue element.val (element.installed epoch tid serial)).setPhase i
        (if element.rwt = .delete then .removing epoch tid key rest else .writing epoch tid rest))
      (Function.update place element.val
        (some (key, if element.rwt = .delete then .dying i else .live))) := by
  have proper := placed.proper i
  have listed := proper.listed
  simp only [Tx.Listed, writing] at listed
  have fresh : key ∉ rest := (List.nodup_cons.mp (listed.sublist.nodup proper.nodup)).1
  have held : key ∈ (state.tx i).held := by simp [Tx.held, Tx.secured, writing]
  obtain ⟨life, here, alive, notMine⟩ : ∃ life, place element.val = some (key, life) ∧
      life ≠ .dead ∧ ∀ j ≠ i, life ≠ .fresh j ∧ life ≠ .dying j := by
    obtain live | ⟨-, new⟩ := placed.life_of_secured own (by simp [Tx.secured, writing])
      (by simp [Tx.Unsettled, writing])
    · exact ⟨.live, live, by simp⟩
    · exact ⟨.fresh i, new, by simp, fun j different => by simpa using different.symm⟩
  refine placed.onValue own here rfl rfl rfl (fun val => (Function.update_of_ne · ..))
    (placed.find_at here ?_) ?_ ⟨proper.nodup, proper.written, proper.touched, ?_⟩ ?_ ?_ ?_ ?_ ?_
  · split <;> simp [alive]
  · rw [setPhase_value, setValue_value_self]
    by_cases deleted : element.rwt = .delete <;>
      simp [ReadWriteElement.installed, TidWord.isReadable, deleted]
  · split
    · exact listed
    · exact (List.suffix_cons key rest).trans listed
  · intro other different
    have apart := Ne.symm different
    constructor <;> split <;> simp_all [Tx.Unsettled, Tx.secured, Tx.held, Tx.unlinking, Tx.Refers]
  · intro val refers
    split at refers <;> simp [Tx.Refers] at refers
  · refine ⟨⟨_, rfl, fun j => ?_⟩, ?_, ?_, ?_, ?_⟩
    · split <;> simp
    · intro _ unsettled
      split at unsettled <;> exact absurd unsettled fresh
    · intro member
      split at member <;> exact absurd member fresh
    · intro member
      split at member <;> exact absurd member fresh
    · intro unlinking
      split at unlinking
      · rename_i deleted
        simp [deleted]
      · simp [Tx.unlinking] at unlinking
  · intro j different element' own' same points
    obtain ⟨notFresh, notDying⟩ := notMine j different
    refine (points.of_not_held (placed.not_held own held different own' same)).of_moved rfl
      notFresh notDying fun k => ?_
    split <;> simp
  · exact fun j different element' own' same _ => placed.not_held own held different own' same

theorem unlinkAt (placed : Placed state place) {phase : Phase K R}
    (unlinking : (state.tx i).unlinking = some key) (member : key ∈ (state.tx i).ws)
    (listed : ((state.tx i).moveTo phase).Listed)
    (narrows : ∀ other ≠ key, (state.tx i).Narrows ((state.tx i).moveTo phase) other)
    (settled : ¬ ((state.tx i).moveTo phase).Unsettled key)
    (released : key ∉ ((state.tx i).moveTo phase).held)
    (unlinked : ((state.tx i).moveTo phase).unlinking = none)
    (refers : ∀ val, ¬ ((state.tx i).moveTo phase).Refers key val) :
    ∃ place', Placed ({ state with index := state.index.remove key }.setPhase i phase) place' := by
  have proper := placed.proper i
  obtain ⟨element, own, -⟩ := proper.element_of_ws member
  have here := (placed.points i key element own).unlinks unlinking
  refine ⟨_, placed.onValue own here rfl rfl rfl (fun _ _ => rfl)
    (placed.find_removed here (by simp)) ?_
    ⟨proper.nodup, proper.written, proper.touched, listed⟩ narrows refers ?_ ?_ ?_⟩
  · simpa using placed.readable key _ _ here
  · exact {
      placed := ⟨.dead, rfl, by simp⟩
      created := fun _ left => absurd left settled
      usable := fun member => absurd (Tx.mem_held_of_secured member) released
      locked := fun member => absurd member released
      unlinks := fun there => by
        rw [show Tx.unlinking _ = none from unlinked] at there
        cases there }
  · intro j different element' own' same points
    exact points.of_moved rfl (by simp) (by simpa using different.symm) (by simp)
  · exact fun j _ element' _ _ member => absurd member released

theorem remove (placed : Placed state place) {epoch tid : Nat} {rest : List K}
    (removing : (state.tx i).phase = .removing epoch tid key rest) :
    ∃ place', Placed ({ state with index := state.index.remove key }.setPhase i
      (.writing epoch tid rest)) place' := by
  have proper := placed.proper i
  have listed := proper.listed
  simp only [Tx.Listed, removing] at listed
  have fresh : key ∉ rest := (List.nodup_cons.mp (listed.sublist.nodup proper.nodup)).1
  refine placed.unlinkAt (by simp [Tx.unlinking, removing]) (listed.subset List.mem_cons_self)
    ((List.suffix_cons key rest).trans listed) (fun other _ => ?_) fresh fresh rfl fun _ => id
  constructor <;> simp [Tx.Unsettled, Tx.secured, Tx.held, Tx.unlinking, Tx.Refers, removing]

theorem unlock (placed : Placed state place) {rest : List K}
    (unlocking : (state.tx i).phase = .unlocking (key :: rest))
    (own : (state.tx i).rws key = some element) :
    ∃ place', Placed ((state.setLock element.val false).setPhase i (.unlocking rest)) place' := by
  have proper := placed.proper i
  have listed := proper.listed
  simp only [Tx.Listed, unlocking] at listed
  have fresh : key ∉ rest := (List.nodup_cons.mp (listed.nodup proper.nodup)).1
  have held : key ∈ (state.tx i).held := by simp [Tx.held, unlocking]
  have points := placed.points i key element own
  obtain ⟨life, here, mine⟩ := points.placed
  refine ⟨_, placed.onValue own here rfl rfl rfl
    (fun val => setLock_value_of_ne state element.val false) (placed.find_at here Iff.rfl) ?_
    ⟨proper.nodup, proper.written, proper.touched, (List.sublist_cons_self key rest).trans listed⟩
    (fun other different => ?_) (fun _ => id) ?_ ?_ ?_⟩
  · rw [setPhase_value, setLock_isReadable]
    exact placed.readable key _ life here
  · constructor <;>
      simp [Tx.Unsettled, Tx.secured, Tx.held, Tx.unlinking, Tx.Refers, unlocking, different]
  · exact {
      placed := ⟨life, rfl, mine⟩
      created := fun isNew _ => here ▸ points.created isNew (by simp [Tx.Unsettled, unlocking])
      usable := by simp [Tx.secured]
      locked := fun member => absurd member fresh
      unlinks := by simp [Tx.unlinking] }
  · exact fun j different element' own' same points =>
      points.of_not_held (placed.not_held own held different own' same)
  · exact fun j different element' own' same _ => placed.not_held own held different own' same

/-! ## `abort` -/

theorem abort (placed : Placed state place)
    (phase : (state.tx i).phase = .running ∨ (state.tx i).phase = .failed) :
    Placed (state.setPhase i (.aborting (state.tx i).ws)) place := by
  refine placed.setPhase (List.suffix_refl _) fun key => ?_
  obtain phase | phase := phase <;> constructor <;>
    simp [Tx.Unsettled, Tx.secured, Tx.held, Tx.unlinking, Tx.Refers, phase]

theorem keep (placed : Placed state place) {rest : List K}
    (aborting : (state.tx i).phase = .aborting (key :: rest)) :
    Placed (state.setPhase i (.aborting rest)) place := by
  have listed := (placed.proper i).listed
  simp only [Tx.Listed, aborting] at listed
  refine placed.setPhase ((List.suffix_cons key rest).trans listed) fun other => ?_
  constructor <;>
    simp +contextual [Tx.Unsettled, Tx.secured, Tx.held, Tx.unlinking, Tx.Refers, aborting]

theorem retire (placed : Placed state place) {rest : List K}
    (aborting : (state.tx i).phase = .aborting (key :: rest))
    (own : (state.tx i).rws key = some element) (isNew : element.isNew = true) :
    Placed ((state.setValue element.val (state.value element.val).retired).setPhase i
        (.retired key rest))
      (Function.update place element.val (some (key, .dying i))) := by
  have proper := placed.proper i
  have listed := proper.listed
  simp only [Tx.Listed, aborting] at listed
  have fresh : key ∉ rest := (List.nodup_cons.mp (listed.sublist.nodup proper.nodup)).1
  have here := (placed.points i key element own).created isNew (by simp [Tx.Unsettled, aborting])
  refine placed.onValue own here rfl rfl rfl (fun val => (Function.update_of_ne · ..))
    (placed.find_at here (by simp)) ?_ ⟨proper.nodup, proper.written, proper.touched, listed⟩
    (fun other different => ?_) (fun _ => id) ?_ ?_ ?_
  · rw [setPhase_value, setValue_value_self]
    simp [Value.retired, TidWord.isReadable]
  · have apart := Ne.symm different
    constructor <;> simp +contextual [Tx.Unsettled, Tx.secured, Tx.held, Tx.unlinking, Tx.Refers,
      aborting, apart]
  · exact {
      placed := ⟨_, rfl, by simp⟩
      created := fun _ unsettled => absurd unsettled fresh
      usable := by simp [Tx.secured]
      locked := by simp [Tx.held, Tx.secured]
      unlinks := fun _ => rfl }
  · intro j different element' own' _ points
    -- nobody else has an element for a placeholder
    obtain ⟨life, there, mine⟩ := points.placed
    obtain ⟨-, rfl⟩ := Prod.mk.inj (Option.some.inj there)
    exact absurd (mine i rfl).1.symm different
  · exact fun j _ element' _ _ member => absurd member List.not_mem_nil

theorem aborted (placed : Placed state place) {ns : NodeMap} :
    Placed (state.setTx i { state.tx i with
      phase := .aborted
      rws := fun _ => none
      touched := []
      ws := []
      ns }) place := by
  refine placed.local' rfl rfl rfl rfl ⟨List.nodup_nil, ?_, ?_, ?_⟩ ?_ ?_ ?_ <;>
    simp [Tx.Listed, Tx.Refers, Tx.held, Tx.secured]

theorem unlink (placed : Placed state place) {rest : List K}
    (retired : (state.tx i).phase = .retired key rest) :
    ∃ place', Placed ({ state with index := state.index.remove key }.setPhase i
      (.aborting rest)) place' := by
  have proper := placed.proper i
  have listed := proper.listed
  simp only [Tx.Listed, retired] at listed
  have fresh : key ∉ rest := (List.nodup_cons.mp (listed.sublist.nodup proper.nodup)).1
  refine placed.unlinkAt (by simp [Tx.unlinking, retired]) (listed.subset List.mem_cons_self)
    ((List.suffix_cons key rest).trans listed) (fun other _ => ?_) fresh List.not_mem_nil rfl
    fun _ => id
  constructor <;> simp [Tx.Unsettled, Tx.secured, Tx.held, Tx.unlinking, Tx.Refers, retired]

/-! ## All steps -/

theorem move (placed : Placed state place) (move : Move state i after) :
    ∃ place', Placed after place' := by
  cases move with
  | think early early' rws touched ws _ _ listed refers =>
    exact ⟨_, placed.think early early' rws touched ws listed refers⟩
  | access early found _ done early' listed refers =>
    exact ⟨_, placed.access early found done early' listed refers⟩
  | insert inserts => exact ⟨_, placed.insert inserts⟩
  | store running own writable => exact ⟨_, placed.store running own writable⟩
  | precommit running => exact ⟨_, placed.precommit running⟩
  | lock phase own unlocked usable => exact placed.lock phase own unlocked usable
  | lockFails phase own unlocked => exact placed.lockFails phase own unlocked
  | loadEpoch phase perm => exact ⟨_, placed.loadEpoch phase perm⟩
  | skip phase | validate phase => exact ⟨_, placed.passes phase⟩
  | validated phase | verify phase | decide phase | written phase | unlocked phase =>
    refine ⟨_, placed.setPhase (by simp [Tx.Listed]) fun key => ?_⟩
    constructor <;> simp [Tx.Unsettled, Tx.secured, Tx.held, Tx.unlinking, Tx.Refers, phase]
  | fail phase => exact ⟨_, placed.fail phase⟩
  | write phase own => exact ⟨_, placed.write phase own⟩
  | remove phase => exact placed.remove phase
  | unlock phase own => exact placed.unlock phase own
  | abort phase => exact ⟨_, placed.abort phase⟩
  | retire phase own isNew => exact ⟨_, placed.retire phase own isNew⟩
  | keep phase => exact ⟨_, placed.keep phase⟩
  | aborted => exact ⟨_, placed.aborted⟩
  | unlink phase => exact placed.unlink phase

omit [DecidableEq I] in
theorem start (contents : Contents K R) : ∃ place, Placed (start contents : State I K R) place := by
  refine ⟨fun val => (contents.index.entries.entries.find? fun entry => entry.2 = val).map
    fun entry => (entry.1, .live), ?_, ?_, ?_, ?_, ?_, ?_, ?_⟩
  · intro val entry here
    obtain ⟨⟨key, val'⟩, found, -⟩ := Option.map_eq_some_iff.mp here
    have member := List.mem_of_find?_eq_some found
    obtain rfl : val' = val := by simpa using List.find?_some found
    exact contents.bounded key val' (OrderedMap.get?_eq_some_iff.mpr member)
  · intro key val
    constructor
    · intro found
      have member := OrderedMap.get?_eq_some_iff.mp found
      cases first : contents.index.entries.entries.find? fun entry => entry.2 = val with
      | none => simpa using List.find?_eq_none.mp first _ member
      | some entry =>
        obtain ⟨key', val'⟩ := entry
        obtain rfl : val' = val := by simpa using List.find?_some first
        have found' := OrderedMap.get?_eq_some_iff.mpr (List.mem_of_find?_eq_some first)
        obtain rfl := contents.injective key key' val' found found'
        exact ⟨.live, by simp, by simp⟩
    · rintro ⟨life, here, -⟩
      obtain ⟨⟨key', val'⟩, found, equal⟩ := Option.map_eq_some_iff.mp here
      obtain ⟨rfl, -⟩ := Prod.mk.inj equal
      obtain rfl : val' = val := by simpa using List.find?_some found
      exact OrderedMap.get?_eq_some_iff.mpr (List.mem_of_find?_eq_some found)
  · intro key val life here
    obtain ⟨entry, -, equal⟩ := Option.map_eq_some_iff.mp here
    obtain ⟨-, rfl⟩ := Prod.mk.inj equal
    simp [Silo.start, Value.loaded, TidWord.isReadable]
  · intro i
    refine ⟨List.nodup_nil, ?_, ?_, ?_⟩ <;> simp [Silo.start, Tx.new, Tx.Listed]
  · intro i key element own
    cases own
  · intro i key val refers
    cases refers
  · intro i j key element element' held
    cases held

theorem step (placed : Placed state place) {label : Label I K R}
    (taken : Silo.step state label = some after) : ∃ place', Placed after place' := by
  obtain ⟨-, rfl⟩ | ⟨i, -, move⟩ := step_cases taken
  · exact ⟨place, ⟨placed.allocated, placed.find, placed.readable, placed.proper, placed.points,
      placed.refers, placed.exclusive⟩⟩
  · exact placed.move move

end Placed

end TpccRunner.Silo
