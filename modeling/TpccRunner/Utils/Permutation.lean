import Mathlib

/-!
# The shuffle of the initializers

`Permutation(min, max)` fills a vector with `min .. max` and shuffles it in place: turn `i`
swaps `perm[i]` with `perm[i + j]` for a drawn `j`.  The numbers of the generator are an
input, `size_t` arithmetic is modulo `2 ^ 64`, and a failing assertion, a division by zero
and an index outside of the vector are faults.
-/

set_option autoImplicit false

namespace TpccRunner.Utils.Permutation

inductive Fault where
  | assertion
  | divisionByZero
  | outOfRange
  | noDraw
  deriving DecidableEq, Repr

def add (a b : Nat) : Nat := (a + b) % 2 ^ 64

def sub (a b : Nat) : Nat := (a + 2 ^ 64 - b) % 2 ^ 64

/-- `urand_int`, given the number of the generator. -/
def urandInt (drawn min max : Nat) : Except Fault Nat :=
  if add (sub max min) 1 = 0 then .error .divisionByZero
  else .ok (add (drawn % add (sub max min) 1) min)

/-- `std::swap(perm[i], perm[k])`. -/
def swap (perm : List Nat) (i k : Nat) : Except Fault (List Nat) :=
  match perm[i]?, perm[k]? with
  | some a, some b => .ok ((perm.set i b).set k a)
  | _, _ => .error .outOfRange

def fill : Nat → Nat → List Nat × Nat
  | 0, i => ([], i)
  | n + 1, i => (i :: (fill n (add i 1)).1, (fill n (add i 1)).2)

def shuffle : List Nat → Nat → List Nat → Except Fault (List Nat)
  | [], i, perm => if i < sub perm.length 1 then .error .noDraw else .ok perm
  | drawn :: draws, i, perm =>
    if i < sub perm.length 1 then do
      let j ← urandInt drawn 0 (sub (sub perm.length i) 1)
      if add i j < perm.length then
        (if j ≠ 0 then swap perm i (add i j) else .ok perm) >>= shuffle draws (add i 1)
      else .error .assertion
    else .ok perm

def construct (min max : Nat) (draws : List Nat) : Except Fault (List Nat) :=
  let filled := fill (add (sub max min) 1) min
  if min ≤ max ∧ sub filled.2 1 = max then shuffle draws 0 filled.1 else .error .assertion

/-- `operator[]`. -/
def get (perm : List Nat) (i : Nat) : Except Fault Nat :=
  match perm[i]? with
  | some val => .ok val
  | none => .error .assertion

def Draws : Nat → List Nat → Prop
  | n + 2, j :: draws => j ≤ n + 1 ∧ Draws (n + 1) draws
  | _ + 2, [] => False
  | _, draws => draws = []

/-- `i ↦ perm[i]` maps `0 .. max - min` one to one onto `min .. max`. -/
structure Arrangement (min max : Nat) (perm : List Nat) : Prop where
  size : perm.length = max - min + 1
  bijective : Set.BijOn (get perm) (Set.Icc 0 (max - min)) (Except.ok '' Set.Icc min max)

/-! ## Arrangements -/

section Arrangement
variable {min max i : Nat} {perm : List Nat}

theorem get_eq (inside : i < perm.length) : get perm i = .ok perm[i] := by
  simp [get, inside]

theorem mem_values (ordered : min ≤ max) {val : Nat} :
    val ∈ List.range' min (max - min + 1) ↔ val ∈ Set.Icc min max := by
  rw [List.mem_range'_1, Set.mem_Icc]
  omega

theorem arrangement_iff (ordered : min ≤ max) :
    Arrangement min max perm ↔ perm.Perm (List.range' min (max - min + 1)) := by
  constructor
  · intro ⟨size, maps, injective, onto⟩
    have distinct : perm.Nodup := by
      refine List.nodup_iff_injective_getElem.mpr fun a b same => Fin.ext ?_
      refine injective ⟨Nat.zero_le _, by omega⟩ ⟨Nat.zero_le _, by omega⟩ ?_
      rw [get_eq a.isLt, get_eq b.isLt]
      exact congrArg _ same
    refine (List.perm_ext_iff_of_nodup distinct List.nodup_range').mpr fun val => ?_
    rw [mem_values ordered]
    constructor
    · intro member
      obtain ⟨i, inside, rfl⟩ := List.mem_iff_getElem.mp member
      have below : i ∈ Set.Icc 0 (max - min) := ⟨Nat.zero_le _, by omega⟩
      obtain ⟨val, within, same⟩ := maps below
      rw [get_eq inside] at same
      exact Except.ok.inj same ▸ within
    · intro within
      obtain ⟨i, below, same⟩ := onto ⟨val, within, rfl⟩
      have inside : i < perm.length := by
        have := below.2
        omega
      rw [get_eq inside] at same
      exact Except.ok.inj same ▸ List.getElem_mem inside
  · intro same
    have size : perm.length = max - min + 1 := by simpa using same.length_eq
    have distinct : perm.Nodup := same.nodup_iff.mpr List.nodup_range'
    have inside : ∀ {i}, i ∈ Set.Icc 0 (max - min) → i < perm.length := by
      intro i below
      have := below.2
      omega
    refine ⟨size, fun i below => ?_, fun a first b second equal => ?_, ?_⟩
    · rw [get_eq (inside below)]
      exact ⟨_, (mem_values ordered).mp (same.mem_iff.mp (List.getElem_mem _)), rfl⟩
    · rw [get_eq (inside first), get_eq (inside second)] at equal
      exact distinct.getElem_inj_iff.mp (Except.ok.inj equal)
    · rintro _ ⟨val, within, rfl⟩
      have member := same.mem_iff.mpr ((mem_values ordered).mpr within)
      obtain ⟨i, lt, rfl⟩ := List.mem_iff_getElem.mp member
      exact ⟨i, ⟨Nat.zero_le _, by omega⟩, get_eq lt⟩

theorem ncard_arrangements (ordered : min ≤ max) :
    {perm | Arrangement min max perm}.ncard = (max - min + 1).factorial := by
  have listed : {perm | Arrangement min max perm} =
      ((List.range' min (max - min + 1)).permutations.toFinset : Set (List Nat)) := by
    ext perm
    simp [arrangement_iff ordered]
  rw [listed, Set.ncard_coe_finset, List.toFinset_card_of_nodup
    (List.nodup_permutations _ List.nodup_range'), List.length_permutations, List.length_range']

end Arrangement

/-! ## One turn -/

theorem fill_eq (n i : Nat) (fits : i + n ≤ 2 ^ 64) :
    (fill n i).1 = List.range' i n ∧ (0 < n → (fill n i).2 = (i + n) % 2 ^ 64) := by
  induction n generalizing i with
  | zero => exact ⟨rfl, fun positive => absurd positive (lt_irrefl 0)⟩
  | succ n ih =>
    cases n with
    | zero => exact ⟨rfl, fun _ => rfl⟩
    | succ n =>
      have next : add i 1 = i + 1 := Nat.mod_eq_of_lt (by omega)
      obtain ⟨values, last⟩ := ih (i + 1) (by omega)
      rw [fill, next]
      refine ⟨by rw [values]; rfl, fun _ => ?_⟩
      rw [last (by omega)]
      congr 1
      omega

/-- The values that are left after a turn: the drawn one is gone, the first one in its place. -/
def others (rest : List Nat) (j : Nat) : List Nat :=
  match rest with
  | [] => []
  | x :: rest => if j = 0 then rest else rest.set (j - 1) x

theorem add_eq {a b : Nat} (fits : a + b < 2 ^ 64) : add a b = a + b := Nat.mod_eq_of_lt fits

theorem sub_eq {a b : Nat} (le : b ≤ a) (fits : a < 2 ^ 64) : sub a b = a - b := by
  unfold sub
  omega

theorem urandInt_eq {j n : Nat} (inside : j < n) (fits : n < 2 ^ 64) :
    urandInt j 0 (n - 1) = .ok j := by
  have width : add (sub (n - 1) 0) 1 = n := by
    rw [sub_eq (Nat.zero_le _) (by omega), add_eq (by omega)]
    omega
  rw [urandInt, width, if_neg (by omega), Nat.mod_eq_of_lt inside]
  exact congrArg _ (add_eq (by omega))

section Turn
variable {done rest draws : List Nat} {j : Nat}

theorem perm_others (inside : j < rest.length) : (rest[j] :: others rest j).Perm rest := by
  cases rest with
  | nil => simp at inside
  | cons x rest =>
    cases j with
    | zero => exact .refl _
    | succ j =>
      have below : j < rest.length := Nat.lt_of_succ_lt_succ inside
      have moved := List.getD_set_perm_cons rest j x
      rwa [List.getElem?_eq_getElem below] at moved

theorem length_others (inside : j < rest.length) : (others rest j).length + 1 = rest.length := by
  simpa using (perm_others inside).length_eq

theorem length_turn (inside : j < rest.length) :
    (done ++ [rest[j]] ++ others rest j).length = (done ++ rest).length := by
  have size := length_others inside
  simp only [List.length_append, List.length_singleton]
  omega

theorem swap_others (inside : j < rest.length) :
    (if j ≠ 0 then swap (done ++ rest) done.length (done.length + j) else .ok (done ++ rest)) =
      .ok (done ++ [rest[j]] ++ others rest j) := by
  cases rest with
  | nil => simp at inside
  | cons x rest =>
    cases j with
    | zero => simp [others]
    | succ j =>
      have below : j < rest.length := Nat.lt_of_succ_lt_succ inside
      have first : (done ++ x :: rest)[done.length]? = some x := by simp
      have second : (done ++ x :: rest)[done.length + (j + 1)]? = some rest[j] := by
        simp [below]
      rw [if_pos (Nat.succ_ne_zero j), swap, first, second]
      simp [others, List.set_append_right]

theorem shuffle_turn (several : 2 ≤ rest.length) (fits : (done ++ rest).length < 2 ^ 64)
    (inside : j < rest.length) :
    shuffle (j :: draws) done.length (done ++ rest) =
      shuffle draws (done ++ [rest[j]]).length (done ++ [rest[j]] ++ others rest j) := by
  have size : (done ++ rest).length = done.length + rest.length := List.length_append
  rw [size] at fits
  have left : sub (sub (done ++ rest).length done.length) 1 = rest.length - 1 := by
    rw [size, sub_eq (a := done.length + rest.length) (by omega) fits,
      sub_eq (by omega) (by omega)]
    omega
  have turns : done.length < sub (done ++ rest).length 1 := by
    rw [size, sub_eq (by omega) fits]
    omega
  rw [shuffle, if_pos turns, left, urandInt_eq inside (by omega)]
  simp only [bind, Except.bind]
  rw [add_eq (by omega), if_pos (by omega), swap_others inside, add_eq (by omega)]
  simp

theorem shuffle_end {last : Nat} (fits : (done ++ [last]).length < 2 ^ 64) :
    shuffle draws done.length (done ++ [last]) = .ok (done ++ [last]) := by
  have ended : ¬ done.length < sub (done ++ [last]).length 1 := by
    rw [sub_eq (by simp) fits]
    simp
  cases draws <;> rw [shuffle, if_neg ended]

theorem draws_cons {n : Nat} (several : 2 ≤ n) :
    Draws n (j :: draws) ↔ j < n ∧ Draws (n - 1) draws := by
  obtain ⟨n, rfl⟩ := Nat.exists_eq_add_of_le' several
  exact and_congr_left' Nat.lt_succ_iff.symm

theorem not_draws_nil {n : Nat} (several : 2 ≤ n) : ¬ Draws n [] := by
  obtain ⟨n, rfl⟩ := Nat.exists_eq_add_of_le' several
  exact id

end Turn

/-! ## The whole loop -/

section Loop

/-- A shuffle ends without a fault, with the values it started with. -/
theorem shuffle_runs (draws done rest : List Nat) (nonempty : rest ≠ [])
    (fits : (done ++ rest).length < 2 ^ 64) (drawn : Draws rest.length draws) :
    ∃ vals, shuffle draws done.length (done ++ rest) = .ok (done ++ vals) ∧ vals.Perm rest := by
  induction draws generalizing done rest with
  | nil =>
    match rest, drawn with
    | [last], _ => exact ⟨[last], shuffle_end fits, .refl _⟩
  | cons j draws ih =>
    have several : 2 ≤ rest.length := by
      match rest, drawn with
      | _ :: _ :: _, _ => simp
    obtain ⟨inside, later⟩ := (draws_cons several).mp drawn
    have size := length_others inside
    obtain ⟨vals, ran, same⟩ := ih (done ++ [rest[j]]) (others rest j)
      (List.ne_nil_of_length_pos (by omega)) (length_turn inside ▸ fits)
      (by rwa [← size, Nat.add_sub_cancel] at later)
    refine ⟨rest[j] :: vals, ?_, (same.cons _).trans (perm_others inside)⟩
    rw [shuffle_turn several fits inside, ran, List.append_assoc]
    rfl

/-- Every order of distinct values is the result of one sequence of draws. -/
theorem shuffle_unique (vals done rest : List Nat) (nonempty : rest ≠ [])
    (fits : (done ++ rest).length < 2 ^ 64) (distinct : rest.Nodup) (same : vals.Perm rest) :
    ∃! draws, Draws rest.length draws ∧
      shuffle draws done.length (done ++ rest) = .ok (done ++ vals) := by
  induction vals generalizing done rest with
  | nil => exact absurd same.symm.eq_nil nonempty
  | cons val vals ih =>
    cases vals with
    | nil =>
      obtain rfl := List.perm_singleton.mp same.symm
      exact ⟨[], ⟨rfl, shuffle_end fits⟩, fun draws other => other.1⟩
    | cons next vals =>
      have several : 2 ≤ rest.length := by simp [← same.length_eq]
      -- the first draw is the place of the first value, the others are those of the rest
      obtain ⟨j, inside, rfl⟩ := List.mem_iff_getElem.mp (same.mem_iff.mp List.mem_cons_self)
      have whole := perm_others inside
      have size := length_others inside
      obtain ⟨draws, ⟨drawn, ran⟩, unique⟩ := ih (done ++ [rest[j]]) (others rest j)
        (List.ne_nil_of_length_pos (by omega)) (length_turn inside ▸ fits)
        (List.nodup_cons.mp (whole.nodup_iff.mpr distinct)).2
        (List.perm_cons _ |>.mp (same.trans whole.symm))
      have left : rest.length - 1 = (others rest j).length := by omega
      refine ⟨j :: draws, ⟨(draws_cons several).mpr ⟨inside, left ▸ drawn⟩, ?_⟩, ?_⟩
      · rw [shuffle_turn several fits inside, ran, List.append_assoc]
        rfl
      · intro draws' ⟨drawn', ran'⟩
        cases draws' with
        | nil => exact absurd drawn' (not_draws_nil several)
        | cons j' draws' =>
          obtain ⟨inside', later⟩ := (draws_cons several).mp drawn'
          rw [shuffle_turn several fits inside'] at ran'
          have size' := length_others inside'
          obtain ⟨vals', ran'', -⟩ := shuffle_runs draws' (done ++ [rest[j']]) (others rest j')
            (List.ne_nil_of_length_pos (by omega)) (length_turn inside' ▸ fits)
            (by rwa [← size', Nat.add_sub_cancel] at later)
          have ends := Except.ok.inj (ran''.symm.trans ran')
          rw [List.append_assoc, List.append_cancel_left_eq] at ends
          obtain rfl := distinct.getElem_inj_iff.mp (List.cons.inj ends).1
          have rest' := unique draws' ⟨left ▸ later, by rw [ran', List.append_assoc]; rfl⟩
          rw [rest']

end Loop

/-! ## The constructor -/

section Construct
variable {min max : Nat}

theorem construct_eq (ordered : min ≤ max) (representable : max < 2 ^ 64)
    (fits : max - min + 1 < 2 ^ 64) (draws : List Nat) :
    construct min max draws = shuffle draws 0 (List.range' min (max - min + 1)) := by
  have size : add (sub max min) 1 = max - min + 1 := by
    rw [sub_eq ordered representable, add_eq fits]
  obtain ⟨values, last⟩ := fill_eq (max - min + 1) min (by omega)
  have counted : sub (fill (max - min + 1) min).2 1 = max := by
    rw [last (Nat.succ_pos _), sub]
    omega
  simp only [construct, size, values]
  rw [if_pos ⟨ordered, counted⟩]

/-- The vector is an arrangement of `min .. max`, and each arrangement comes from exactly one
sequence of draws. -/
theorem permutation_exact (ordered : min ≤ max) (representable : max < 2 ^ 64)
    (fits : max - min + 1 < 2 ^ 64) :
    (∀ draws, Draws (max - min + 1) draws →
      ∃ perm, construct min max draws = .ok perm ∧ Arrangement min max perm) ∧
    {perm | Arrangement min max perm}.ncard = (max - min + 1).factorial ∧
    ∀ perm, Arrangement min max perm →
      ∃! draws, Draws (max - min + 1) draws ∧ construct min max draws = .ok perm := by
  have size : (List.range' min (max - min + 1)).length = max - min + 1 := List.length_range'
  have nonempty : List.range' min (max - min + 1) ≠ [] := by simp
  have small : ([] ++ List.range' min (max - min + 1)).length < 2 ^ 64 := by
    rwa [List.nil_append, size]
  simp only [construct_eq ordered representable fits, arrangement_iff ordered]
  refine ⟨fun draws drawn => ?_, ?_, fun perm arranged => ?_⟩
  · rw [← size] at drawn
    exact shuffle_runs draws [] _ nonempty small drawn
  · simpa only [arrangement_iff ordered] using ncard_arrangements ordered
  · have unique := shuffle_unique perm [] _ nonempty small List.nodup_range' arranged
    rwa [size] at unique

end Construct

/-- Swaps in both turns, and then in none. -/
theorem permutation_exact_three :
    construct 1 3 [2, 1] = .ok [3, 1, 2] ∧
    (∃! draws, Draws 3 draws ∧ construct 1 3 draws = .ok [3, 1, 2]) ∧
    ∃ perm, construct 1 3 [0, 0] = .ok perm ∧ Arrangement 1 3 perm := by
  have ran : construct 1 3 [2, 1] = .ok [3, 1, 2] := by decide
  obtain ⟨runs, -, unique⟩ := @permutation_exact 1 3 (by decide) (by decide) (by decide)
  refine ⟨ran, unique _ ?_, runs [0, 0] ⟨by decide, by decide, rfl⟩⟩
  obtain ⟨perm, same, arranged⟩ := runs [2, 1] ⟨by decide, by decide, rfl⟩
  exact Except.ok.inj (ran.symm.trans same) ▸ arranged

/-- `max - min + 1` is 0 for the whole range of `size_t`: the vector is empty, and the first
draw divides by 0. -/
theorem permutation_of_all_sizes :
    (0 ≤ 2 ^ 64 - 1) ∧ construct 0 (2 ^ 64 - 1) [0] = .error .divisionByZero ∧
    ∀ draws perm, construct 0 (2 ^ 64 - 1) draws ≠ .ok perm := by
  have filled : fill (add (sub (2 ^ 64 - 1) 0) 1) 0 = ([], 0) := by decide
  have shuffled : ∀ draws, construct 0 (2 ^ 64 - 1) draws = shuffle draws 0 [] := by
    intro draws
    simp only [construct, filled]
    exact if_pos (by decide)
  refine ⟨Nat.zero_le _, by decide, fun draws perm => ?_⟩
  rw [shuffled]
  cases draws with
  | nil => simp [shuffle, sub]
  | cons drawn draws =>
    have divided : shuffle (drawn :: draws) 0 [] = .error .divisionByZero := rfl
    simp [divided]

end TpccRunner.Utils.Permutation
