import TpccRunner.Silo.PlacementSteps

/-!
# Tids grow

As long as no commit tid wraps to 0, every write of a value has a greater tid than the one
before it.  So an element whose tid is still that of its value has read the record that the
value holds.
-/

set_option autoImplicit false

namespace TpccRunner.Silo

open Lib Masstree

variable {I K R : Type}

/-- How far `commit_tw.tid` has come: it covers the locked values and the validated reads, and
from the increment on it is above them, unless it has wrapped. -/
def Tx.Counted (tx : Tx K R) (current : Nat) (key : K) (element : ReadWriteElement R) : Prop :=
  match tx.phase with
  | .locking locked _ tid => key ∈ locked → current ≤ tid
  | .validating _ tid rest => (key ∈ tx.ws → current ≤ tid) ∧ (key ∉ rest → element.tw.tid ≤ tid)
  | .verifying _ tid _ => tid ≠ 0 → (key ∈ tx.ws → current < tid) ∧ element.tw.tid < tid
  | .writing _ tid rest | .removing _ tid _ rest =>
    tid ≠ 0 → (key ∈ rest → current < tid) ∧ element.tw.tid < tid
  | _ => True

def Tx.TidFits (tx : Tx K R) : Prop :=
  match tx.phase with
  | .locking _ _ tid | .validating _ tid _ | .verifying _ tid _ | .writing _ tid _
  | .removing _ tid _ _ => tid < 2 ^ 29
  | _ => True

theorem Tx.Early.tidFits {tx : Tx K R} (early : tx.Early) : tx.TidFits := by
  unfold Tx.Early at early
  unfold Tx.TidFits
  split <;> simp_all

def Value.version (v : Value R) : Nat × Option R × Nat := (v.tidword.tid, v.record, v.writer)

structure Grown (v : Value R) (tx : Tx K R) (key : K) (element : ReadWriteElement R) : Prop where
  known : element.tw.tid ≤ v.tidword.tid
  same : element.tw.tid = v.tidword.tid → v.writer = element.seen ∧ v.record = element.base
  counted : tx.Counted v.tidword.tid key element

namespace Grown

variable {v v' : Value R} {tx tx' : Tx K R} {key : K} {element element' : ReadWriteElement R}

theorem congr (grown : Grown v tx key element) (same : v'.version = v.version) :
    Grown v' tx key element := by
  obtain ⟨tid, record, writer⟩ : _ ∧ _ ∧ _ := by
    simpa only [Value.version, Prod.mk.injEq] using same
  refine ⟨tid ▸ grown.known, ?_, tid ▸ grown.counted⟩
  rw [tid, record, writer]
  exact grown.same

theorem of_early (early : tx.Early) (known : element.tw.tid ≤ v.tidword.tid)
    (same : element.tw.tid = v.tidword.tid → v.writer = element.seen ∧ v.record = element.base) :
    Grown v tx key element where
  known := known
  same := same
  counted := by
    unfold Tx.Early at early
    unfold Tx.Counted
    split <;> simp_all

theorem sameRead (grown : Grown v tx key element) (early : tx'.Early)
    (same : element.SameRead element') : Grown v tx' key element' := by
  refine .of_early early ?_ ?_
  · rw [same.tw]
    exact grown.known
  · rw [same.tw, same.seen, same.base]
    exact grown.same

theorem moveTo (grown : Grown v tx key element)
    (counted : tx.Counted v.tidword.tid key element → tx'.Counted v.tidword.tid key element) :
    Grown v tx' key element :=
  ⟨grown.known, grown.same, counted grown.counted⟩

theorem overwritten (grown : Grown v tx key element) (notHeld : key ∉ tx.held)
    (greater : v.tidword.tid < v'.tidword.tid) : Grown v' tx key element where
  known := grown.known.trans greater.le
  same equal := by
    have := grown.known
    omega
  counted := by
    have counted := grown.counted
    unfold Tx.Counted at counted ⊢
    unfold Tx.held Tx.secured at notHeld
    split <;> simp_all

end Grown

variable [LinearOrder K]

structure Grows (state : State I K R) : Prop where
  bounded : ∀ val, (state.value val).tidword.tid < 2 ^ 29
  fits : ∀ i, (state.tx i).TidFits
  grown : ∀ i key element, (state.tx i).rws key = some element →
    Grown (state.value element.val) (state.tx i) key element

namespace Grows

variable {state after : State I K R} {place : Nat → Option (K × Life I)} {i : I} {key : K}
  {element : ReadWriteElement R} {tx' : Tx K R} [DecidableEq I]

theorem update (grows : Grows state) (tx : after.tx = Function.update state.tx i tx')
    (bounded : ∀ val, (after.value val).tidword.tid < 2 ^ 29) (fits : tx'.TidFits)
    (grown : ∀ key element, tx'.rws key = some element →
      Grown (after.value element.val) tx' key element)
    (others : ∀ j ≠ i, ∀ key element, (state.tx j).rws key = some element →
      Grown (state.value element.val) (state.tx j) key element →
        Grown (after.value element.val) (state.tx j) key element) : Grows after where
  bounded := bounded
  fits j := by
    rw [tx]
    by_cases same : j = i
    · subst same
      rwa [Function.update_self]
    · rw [Function.update_of_ne same]
      exact grows.fits j
  grown j key element own := by
    rw [tx] at own ⊢
    by_cases same : j = i
    · subst same
      rw [Function.update_self] at own ⊢
      exact grown key element own
    · rw [Function.update_of_ne same] at own ⊢
      exact others j same key element own (grows.grown j key element own)

theorem local' (grows : Grows state) (tx : after.tx = Function.update state.tx i tx')
    (same : ∀ val, (after.value val).version = (state.value val).version) (fits : tx'.TidFits)
    (grown : ∀ key element, tx'.rws key = some element →
      Grown (state.value element.val) tx' key element) : Grows after := by
  refine grows.update tx (fun val => ?_) fits (fun key element own => ?_) ?_
  · rw [(Prod.mk.inj (same val)).1]
    exact grows.bounded val
  · exact (grown key element own).congr (same _)
  · exact fun j _ key element _ grown => grown.congr (same _)

theorem setPhase (grows : Grows state) {phase : Phase K R}
    (tx : after.tx = Function.update state.tx i ((state.tx i).moveTo phase))
    (same : ∀ val, (after.value val).version = (state.value val).version)
    (fits : ((state.tx i).moveTo phase).TidFits)
    (counted : ∀ key element, (state.tx i).rws key = some element →
      (state.tx i).Counted (state.value element.val).tidword.tid key element →
        ((state.tx i).moveTo phase).Counted (state.value element.val).tidword.tid key element) :
    Grows after :=
  grows.local' tx same fits fun key element own =>
    (grows.grown i key element own).moveTo (counted key element own)

theorem access (grows : Grows state) {op : Operation} {val : Nat} {fresh : R}
    {outcome : Outcome K R} {phase : Phase K R}
    (done : (state.tx i).access op key val (state.value ((state.tx i).target key val)) fresh =
      some outcome)
    (early' : (((state.tx i).settle key outcome).moveTo phase).Early) :
    Grows (state.setTx i (((state.tx i).settle key outcome).moveTo phase)) := by
  refine grows.local' rfl (fun _ => rfl) early'.tidFits ?_
  intro other element own
  simp only [Tx.moveTo_rws, Tx.settle] at own
  by_cases same : other = key
  · subst same
    rw [Function.update_self] at own
    cases own
    obtain ⟨absent, first, -⟩ | ⟨old, own, -, done⟩ := Tx.access_cases done
    · have target : (state.tx i).target other val = val := by simp [Tx.target, absent]
      rw [target] at first
      rw [first.val]
      exact .of_early early' (by rw [first.tw]) fun _ => ⟨first.seen.symm, first.base.symm⟩
    · have same := perform_sameRead done
      rw [same.val]
      exact (grows.grown i other old own).sameRead early' same
  · rw [Function.update_of_ne same] at own
    exact (grows.grown i other element own).sameRead early' (.refl element)

theorem store (grows : Grows state) {record : R} (running : (state.tx i).phase = .running)
    (own : (state.tx i).rws key = some element) :
    Grows (state.setTx i ((state.tx i).settle key
      ⟨{ element with record := some record }, false, none, [.write key (some record)]⟩)) := by
  have early : (state.tx i).Early := by simp [Tx.Early, running]
  refine grows.local' rfl (fun _ => rfl) early.tidFits ?_
  intro other new own'
  simp only [Tx.settle] at own'
  by_cases same : other = key
  · subst same
    rw [Function.update_self] at own'
    cases own'
    exact (grows.grown i other element own).sameRead early ⟨rfl, rfl, rfl, rfl, rfl⟩
  · rw [Function.update_of_ne same] at own'
    exact (grows.grown i other new own').sameRead early (.refl new)

theorem insert (grows : Grows state) (placed : Placed state place) {op : Operation} {fresh : R}
    {index : Index K} (inserts : Inserts state i op key fresh tx' index) :
    Grows { (state.setValue state.nextVal Value.placeholder).setTx i tx' with
      index, nextVal := state.nextVal + 1 } := by
  have early : tx'.Early := by simp [Tx.Early, inserts.phase]
  have apart : ∀ j key element, (state.tx j).rws key = some element →
      element.val ≠ state.nextVal := by
    intro j key element own equal
    obtain ⟨life, here, -⟩ := (placed.points j key element own).placed
    have := placed.allocated _ _ here
    omega
  refine grows.update rfl (fun val => ?_) early.tidFits (fun other element own => ?_)
    fun j _ other element own grown => ?_
  · change (Function.update state.value state.nextVal Value.placeholder val).tidword.tid < _
    by_cases same : val = state.nextVal
    · subst same
      simp [Value.placeholder]
    · rw [Function.update_of_ne same]
      exact grows.bounded val
  · change Grown (Function.update state.value state.nextVal Value.placeholder element.val) _ _ _
    rw [inserts.rws] at own
    simp only [Tx.settle] at own
    by_cases same : other = key
    · subst same
      rw [Function.update_self] at own
      cases own
      simp only [Outcome.inserted, Function.update_self]
      exact .of_early early le_rfl fun _ => ⟨rfl, rfl⟩
    · rw [Function.update_of_ne same] at own
      rw [Function.update_of_ne (apart i other element own)]
      exact (grows.grown i other element own).sameRead early (.refl element)
  · change Grown (Function.update state.value state.nextVal Value.placeholder element.val) _ _ _
    rwa [Function.update_of_ne (apart j other element own)]

theorem write (grows : Grows state) (placed : Placed state place) {epoch tid serial : Nat}
    {rest : List K} (writing : (state.tx i).phase = .writing epoch tid (key :: rest))
    (own : (state.tx i).rws key = some element) (noWrap : tid ≠ 0) {phase : Phase K R}
    (next : phase = .removing epoch tid key rest ∨ phase = .writing epoch tid rest) :
    Grows ((state.setValue element.val (element.installed epoch tid serial)).setPhase i phase) := by
  have fresh := placed.fresh_of_writing writing
  have fits := grows.fits i
  simp only [Tx.TidFits, writing] at fits
  have counted := (grows.grown i key element own).counted
  simp only [Tx.Counted, writing] at counted
  have greater : (state.value element.val).tidword.tid < tid :=
    (counted noWrap).1 List.mem_cons_self
  refine grows.update rfl (fun val => ?_) ?_ (fun other element' own' => ?_)
    fun j different other element' own' grown => ?_
  · change (Function.update state.value element.val _ val).tidword.tid < _
    by_cases same : val = element.val
    · subst same
      rwa [Function.update_self]
    · rw [Function.update_of_ne same]
      exact grows.bounded val
  · obtain rfl | rfl := next <;> exact fits
  · change Grown (Function.update state.value element.val _ element'.val) _ _ _
    have grown := grows.grown i other element' own'
    by_cases same : other = key
    · subst same
      cases own.symm.trans own'
      have smaller := (counted noWrap).2
      rw [Function.update_self]
      refine ⟨smaller.le, fun equal => absurd equal smaller.ne, ?_⟩
      obtain rfl | rfl := next <;>
        exact fun _ => ⟨fun member => absurd member fresh, smaller⟩
    · have apart : element'.val ≠ element.val := fun equal =>
        same (placed.key_eq own' own equal)
      rw [Function.update_of_ne apart]
      refine grown.moveTo fun counted => ?_
      simp only [Tx.Counted, writing] at counted
      obtain rfl | rfl := next <;>
        exact fun noWrap => ⟨fun member => (counted noWrap).1 (List.mem_cons_of_mem _ member),
          (counted noWrap).2⟩
  · change Grown (Function.update state.value element.val _ element'.val) _ _ _
    by_cases same : element'.val = element.val
    · obtain rfl := placed.key_eq own' own same
      have held : other ∈ (state.tx i).held := by simp [Tx.held, Tx.secured, writing]
      have notHeld : other ∉ (state.tx j).held := fun member =>
        different (placed.exclusive j i other element' element member held own' own same)
      rw [same, Function.update_self]
      rw [same] at grown
      exact grown.overwritten notHeld greater
    · rwa [Function.update_of_ne same]

theorem move (grows : Grows state) (placed : Placed state place) (move : Move state i after)
    (noWrap : ∀ epoch tid key rest, (state.tx i).phase = .writing epoch tid (key :: rest) →
      tid ≠ 0) : Grows after := by
  have fits := grows.fits i
  cases move with
  | think early early' rws =>
    refine grows.local' rfl (fun _ => rfl) early'.tidFits ?_
    intro key element own
    rw [rws] at own
    exact (grows.grown i key element own).sameRead early' (.refl element)
  | access _ _ _ done early' => exact grows.access done early'
  | insert inserts => exact grows.insert placed inserts
  | store running own => exact grows.store running own
  | precommit running =>
    refine grows.local' rfl (fun _ => rfl) (by simp [Tx.TidFits]) ?_
    intro key element own
    exact (grows.grown i key element own).moveTo fun _ => by simp [Tx.Counted]
  | @lock locked rest key tid element phase own =>
    simp only [Tx.TidFits, phase] at fits
    refine grows.setPhase rfl (setValue_congr state _ · Value.version rfl)
      (max_lt fits (grows.bounded element.val)) ?_
    intro other element' own' counted
    simp only [Tx.Counted, phase] at counted
    simp only [Tx.Counted, Tx.moveTo_phase]
    intro member
    obtain member | last := List.mem_append.mp member
    · exact (counted member).trans (le_max_left _ _)
    · rw [List.mem_singleton] at last
      subst last
      cases own.symm.trans own'
      exact le_max_right _ _
  | lockFails | unlock | retire =>
    exact grows.setPhase rfl (setValue_congr state _ · Value.version rfl) trivial
      fun _ _ _ _ => trivial
  | loadEpoch phase perm =>
    have listed := (placed.proper i).listed
    simp only [Tx.Listed, phase, List.append_nil] at listed
    simp only [Tx.TidFits, phase] at fits
    refine grows.local' rfl (fun _ => rfl) fits ?_
    intro key element own
    refine (grows.grown i key element own).moveTo fun counted => ?_
    simp only [Tx.Counted, phase] at counted
    refine ⟨fun member => counted (listed ▸ member), fun unseen => ?_⟩
    have touched := ((placed.proper i).touched key).mpr
      (Option.isSome_iff_exists.mpr ⟨element, own⟩)
    exact absurd (perm.mem_iff.mpr touched) unseen
  | @skip epoch tid key rest element phase own blind =>
    simp only [Tx.TidFits, phase] at fits
    refine grows.setPhase rfl (fun _ => rfl) fits ?_
    intro other element' own' counted
    simp only [Tx.Counted, phase] at counted
    refine ⟨counted.1, fun unseen => ?_⟩
    by_cases same : other = key
    · subst same
      cases own.symm.trans own'
      have member := ((placed.proper i).mem_ws_iff own).mpr (by simp [blind])
      exact (grows.grown i other element own).known.trans (counted.1 member)
    · exact counted.2 (by simp [same, unseen])
  | @validate epoch tid key rest element phase own _ valid =>
    simp only [Tx.TidFits, phase] at fits
    refine grows.setPhase rfl (fun _ => rfl)
      (max_lt fits (grows.bounded element.val)) ?_
    intro other element' own' counted
    simp only [Tx.Counted, phase] at counted
    refine ⟨fun member => (counted.1 member).trans (le_max_left _ _), fun unseen => ?_⟩
    by_cases same : other = key
    · subst same
      cases own.symm.trans own'
      exact (grows.grown i other element own).known.trans (le_max_right _ _)
    · exact (counted.2 (by simp [same, unseen])).trans (le_max_left _ _)
  | @validated epoch tid phase =>
    simp only [Tx.TidFits, phase] at fits
    refine grows.setPhase rfl (fun _ => rfl)
      (Nat.mod_lt _ (by norm_num)) ?_
    intro key element own counted
    simp only [Tx.Counted, phase] at counted
    simp only [Tx.Counted, Tx.moveTo_phase]
    intro noWrap
    have exact' : (tid + 1) % 2 ^ 29 = tid + 1 := by omega
    rw [exact']
    exact ⟨fun member => Nat.lt_succ_of_le (counted.1 member),
      Nat.lt_succ_of_le (counted.2 List.not_mem_nil)⟩
  | verify phase | decide phase | remove phase =>
    simp only [Tx.TidFits, phase] at fits
    refine grows.setPhase rfl (fun _ => rfl) fits ?_
    intro key element own counted
    simp only [Tx.Counted, phase] at counted
    exact counted
  | write phase own =>
    refine grows.write placed phase own (noWrap _ _ _ _ phase) ?_
    split
    · exact .inl rfl
    · exact .inr rfl
  | aborted =>
    exact grows.local' rfl (fun _ => rfl) trivial
      fun key element own => by cases own
  | fail | written | unlocked | abort | keep | unlink =>
    exact grows.setPhase rfl (fun _ => rfl) trivial
      fun _ _ _ _ => trivial

omit [DecidableEq I] in
theorem start (contents : Contents K R) : Grows (Silo.start contents : State I K R) where
  bounded val := by simp [Silo.start, Value.loaded]
  fits i := trivial
  grown i key element own := by cases own

end Grows

end TpccRunner.Silo
