import Mathlib

/-!
# Bit fields

A struct of bit fields read as one unsigned integer, its first field the most significant.
A field keeps the low bits of what is stored into it.  Where the values fit their fields, the
integers are ordered as the lists of the values are.
-/

set_option autoImplicit false

namespace TpccRunner.Lib

def totalWidth (widths : List Nat) : Nat := widths.sum

def pack : List Nat → List Nat → Nat
  | width :: widths, value :: values =>
    value % 2 ^ width * 2 ^ totalWidth widths + pack widths values
  | _, _ => 0

def unpack : List Nat → Nat → List Nat
  | [], _ => []
  | width :: widths, x => x / 2 ^ totalWidth widths % 2 ^ width :: unpack widths x

def Fits (widths values : List Nat) : Prop :=
  List.Forall₂ (fun width value => value < 2 ^ width) widths values

theorem pack_lt (widths values : List Nat) : pack widths values < 2 ^ totalWidth widths := by
  induction widths generalizing values with
  | nil => simp [pack, totalWidth]
  | cons width widths ih =>
    cases values with
    | nil => exact Nat.two_pow_pos _
    | cons value values =>
      have low := ih values
      have high : value % 2 ^ width + 1 ≤ 2 ^ width := Nat.mod_lt _ (Nat.two_pow_pos _)
      calc pack (width :: widths) (value :: values)
          < (value % 2 ^ width + 1) * 2 ^ totalWidth widths := by
            rw [pack, Nat.succ_mul]
            omega
        _ ≤ 2 ^ width * 2 ^ totalWidth widths := Nat.mul_le_mul_right _ high
        _ = 2 ^ totalWidth (width :: widths) := by
            rw [← Nat.pow_add, totalWidth, totalWidth, List.sum_cons]

theorem digit_lt_iff {base a b p q : Nat} (low : p < base) (low' : q < base) :
    a * base + p < b * base + q ↔ a < b ∨ a = b ∧ p < q := by
  obtain less | rfl | greater := Nat.lt_trichotomy a b
  · have : (a + 1) * base ≤ b * base := Nat.mul_le_mul_right _ less
    rw [Nat.succ_mul] at this
    exact ⟨fun _ => .inl less, fun _ => by omega⟩
  · simp
  · have : (b + 1) * base ≤ a * base := Nat.mul_le_mul_right _ greater
    rw [Nat.succ_mul] at this
    constructor <;> omega

theorem pack_lt_pack_iff {widths values others : List Nat} (fits : Fits widths values)
    (fits' : Fits widths others) : pack widths values < pack widths others ↔ values < others := by
  induction fits generalizing others with
  | nil =>
    cases fits'
    simp [pack]
  | @cons width value widths values bound rest ih =>
    obtain _ | @⟨_, other, _, others, bound', rest'⟩ := fits'
    rw [pack, pack, Nat.mod_eq_of_lt bound, Nat.mod_eq_of_lt bound',
      digit_lt_iff (pack_lt widths values) (pack_lt widths others), ih rest',
      List.cons_lt_cons_iff]

theorem pack_le_pack_iff {widths values others : List Nat} (fits : Fits widths values)
    (fits' : Fits widths others) : pack widths values ≤ pack widths others ↔ values ≤ others := by
  rw [← not_lt, pack_lt_pack_iff fits' fits, not_lt]

theorem pack_inj {widths values others : List Nat} (fits : Fits widths values)
    (fits' : Fits widths others) : pack widths values = pack widths others ↔ values = others := by
  rw [le_antisymm_iff, le_antisymm_iff, pack_le_pack_iff fits fits', pack_le_pack_iff fits' fits]

theorem fits_unpack (widths : List Nat) (x : Nat) : Fits widths (unpack widths x) := by
  induction widths with
  | nil => exact .nil
  | cons width widths ih => exact .cons (Nat.mod_lt _ (Nat.two_pow_pos _)) ih

theorem pack_unpack (widths : List Nat) (x : Nat) :
    pack widths (unpack widths x) = x % 2 ^ totalWidth widths := by
  induction widths with
  | nil => simp [pack, totalWidth, Nat.mod_one]
  | cons width widths ih =>
    have total : totalWidth (width :: widths) = totalWidth widths + width := by
      rw [totalWidth, List.sum_cons, Nat.add_comm, totalWidth]
    rw [unpack, pack, ih, Nat.mod_mod, total, Nat.pow_add, Nat.mod_mul, Nat.add_comm,
      Nat.mul_comm]

theorem unpack_pack {widths values : List Nat} (fits : Fits widths values) :
    unpack widths (pack widths values) = values := by
  rw [← pack_inj (fits_unpack widths _) fits, pack_unpack, Nat.mod_eq_of_lt (pack_lt widths values)]

end TpccRunner.Lib
