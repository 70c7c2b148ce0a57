import Mathlib.Algebra.Group.Nat.Defs
import ValueSchema.Double.Basic

/-!
Rounding goes to the nearest double. A magnitude is a significand of at most 53 bits times a power
of two, so rounding is choosing a multiple of the power that is left after 53 bits. Doubles with a
smaller power are all below the least of the multiples that can be chosen.
-/

set_option autoImplicit false
set_option relaxedAutoImplicit false

namespace ValueSchema

namespace Double

def apart (a b : Int) : Nat := (a - b).natAbs

/-- The double nearest to a number of units: every other finite one is further away from it, or as
far away, and then the nearest one is even. -/
def IsNearest (x : Double) (units : Int) : Prop :=
  x.isFinite = true ∧ ∀ y : Double, y.isFinite = true → y.signedUnits ≠ x.signedUnits →
    apart x.signedUnits units < apart y.signedUnits units ∨
      (apart x.signedUnits units = apart y.signedUnits units ∧ x.bits % 2 = 0)

theorem isNearest_signedUnits {x : Double} (finite : x.isFinite = true) :
    x.IsNearest x.signedUnits := by
  refine ⟨finite, fun y _ differs => .inl ?_⟩
  unfold apart
  omega

section Rounding

variable {num den other : Nat}

private theorem roundHalfEven_cases (num den : Nat) :
    (roundHalfEven num den = num / den ∧ (2 * (num % den) < den ∨
      (2 * (num % den) = den ∧ num / den % 2 = 0))) ∨
    (roundHalfEven num den = num / den + 1 ∧ (den < 2 * (num % den) ∨
      (2 * (num % den) = den ∧ num / den % 2 = 1))) := by
  simp only [roundHalfEven]
  split
  · omega
  · split
    · omega
    · omega

private theorem add_le_mul_of_lt {a b : Nat} (below : a < b) (den : Nat) :
    a * den + den ≤ b * den := by
  rw [← Nat.succ_mul]
  exact Nat.mul_le_mul_right den below

private theorem roundHalfEven_closest (pos : 0 < den) (differs : other ≠ roundHalfEven num den) :
    apart (roundHalfEven num den * den : Nat) num < apart (other * den : Nat) num ∨
      (apart (roundHalfEven num den * den : Nat) num = apart (other * den : Nat) num ∧
        roundHalfEven num den % 2 = 0) := by
  have whole : num / den * den + num % den = num := by
    rw [Nat.mul_comm]
    exact Nat.div_add_mod num den
  have low : num % den < den := Nat.mod_lt num pos
  have next : (num / den + 1) * den = num / den * den + den := Nat.succ_mul _ _
  -- the rounded multiple is one of the two around `num`, and any other one is on its far side
  have sides : other * den + den ≤ num / den * den ∨ other = num / den ∨ other = num / den + 1 ∨
      num / den * den + 2 * den ≤ other * den := by
    rcases Nat.lt_or_ge other (num / den) with below | least
    · exact .inl (add_le_mul_of_lt below den)
    · rcases Nat.lt_or_ge (num / den + 1) other with above | most
      · have far := add_le_mul_of_lt above den
        omega
      · omega
  unfold apart
  rcases roundHalfEven_cases num den with ⟨down, near⟩ | ⟨up, near⟩
  · rw [down] at differs ⊢
    rcases sides with below | same | rfl | above
    · omega
    · exact (differs same).elim
    · rw [next]
      omega
    · omega
  · rw [up] at differs ⊢
    rw [next]
    rcases sides with below | rfl | same | above
    · omega
    · omega
    · exact (differs same).elim
    · omega

end Rounding

section Magnitudes

variable {bits k m n : Nat}

private theorem unitsOf_of_normal (normal : 2 ^ 52 ≤ bits) :
    unitsOf bits = (2 ^ 52 + bits % 2 ^ 52) * 2 ^ (bits / 2 ^ 52 - 1) := by
  have large : ¬bits < 1 <<< 52 := Nat.not_lt.2 normal
  rw [unitsOf, if_neg large]
  simp only [Nat.shiftLeft_eq, Nat.shiftRight_eq_div_pow, Nat.one_mul]

private theorem unitsOf_scaled (least : k = 0 ∨ 2 ^ 52 ≤ m) (most : m ≤ 2 ^ 53) :
    unitsOf (k * 2 ^ 52 + m) = m * 2 ^ k := by
  rcases Nat.lt_or_ge (k * 2 ^ 52 + m) (2 ^ 52) with small | normal
  · obtain rfl : k = 0 := by omega
    have value : unitsOf (0 * 2 ^ 52 + m) = 0 * 2 ^ 52 + m := if_pos small
    rw [value]
    omega
  · rw [unitsOf_of_normal normal]
    rcases Nat.lt_or_ge m (2 ^ 53) with short | carry
    · have field : (k * 2 ^ 52 + m) / 2 ^ 52 - 1 = k := by omega
      have place : 2 ^ 52 + (k * 2 ^ 52 + m) % 2 ^ 52 = m := by omega
      rw [field, place]
    · obtain rfl : m = 2 ^ 53 := Nat.le_antisymm most carry
      have field : (k * 2 ^ 52 + 2 ^ 53) / 2 ^ 52 - 1 = 1 + k := by omega
      have place : 2 ^ 52 + (k * 2 ^ 52 + 2 ^ 53) % 2 ^ 52 = 2 ^ 52 := by omega
      rw [field, place, Nat.pow_add, ← Nat.mul_assoc]
      rfl

private theorem exists_scaled (bits : Nat) :
    ∃ k m, bits = k * 2 ^ 52 + m ∧ (k = 0 ∨ 2 ^ 52 ≤ m) ∧ m < 2 ^ 53 := by
  rcases Nat.lt_or_ge bits (2 ^ 52) with small | normal
  · exact ⟨0, bits, by omega, .inl rfl, by omega⟩
  · exact ⟨bits / 2 ^ 52 - 1, 2 ^ 52 + bits % 2 ^ 52, by omega, .inr (by omega), by omega⟩

private theorem kept_bounds (n : Nat) :
    (n.log2 - 52 = 0 ∨ 2 ^ 52 * 2 ^ (n.log2 - 52) ≤ n) ∧
      (n.log2 - 52 = 0 ∨ 2 ^ 52 ≤ roundHalfEven n (2 ^ (n.log2 - 52))) ∧
      roundHalfEven n (2 ^ (n.log2 - 52)) ≤ 2 ^ 53 := by
  have pos : 0 < 2 ^ (n.log2 - 52) := Nat.two_pow_pos _
  have lower : n.log2 - 52 = 0 ∨ 2 ^ 52 * 2 ^ (n.log2 - 52) ≤ n := by
    rcases Nat.eq_zero_or_pos (n.log2 - 52) with none | some
    · exact .inl none
    · have nonzero : n ≠ 0 := by
        rintro rfl
        simp at some
      refine .inr ?_
      rw [← Nat.pow_add, show 52 + (n.log2 - 52) = n.log2 by omega]
      exact Nat.log2_self_le nonzero
  have upper : n / 2 ^ (n.log2 - 52) < 2 ^ 53 := by
    rw [Nat.div_lt_iff_lt_mul pos, ← Nat.pow_add]
    exact Nat.lt_of_lt_of_le Nat.lt_log2_self (Nat.pow_le_pow_right (by decide) (by omega))
  refine ⟨lower, lower.imp id fun least => ?_, ?_⟩
  · have kept := (Nat.le_div_iff_mul_le pos).2 least
    rcases roundHalfEven_cases n (2 ^ (n.log2 - 52)) with ⟨down, -⟩ | ⟨up, -⟩
    · omega
    · omega
  · rcases roundHalfEven_cases n (2 ^ (n.log2 - 52)) with ⟨down, -⟩ | ⟨up, -⟩
    · omega
    · omega

private theorem nearestBits_one (n : Nat) :
    nearestBits n 1 =
      min infinityBits ((n.log2 - 52) * 2 ^ 52 + roundHalfEven n (2 ^ (n.log2 - 52))) := by
  simp only [nearestBits, Nat.div_one, Nat.shiftLeft_eq, Nat.one_mul]

private theorem scaled_lt_of_finer {k' : Nat} (short : m < 2 ^ 53) (finer : k' < k) :
    m * 2 ^ k' < 2 ^ 52 * 2 ^ k := by
  have shorter : m * 2 ^ k' < 2 ^ 53 * 2 ^ k' :=
    Nat.mul_lt_mul_of_pos_right short (Nat.two_pow_pos k')
  have doubled : 2 ^ 53 * 2 ^ k' ≤ 2 ^ 52 * 2 ^ k := by
    rw [← Nat.pow_add, ← Nat.pow_add]
    exact Nat.pow_le_pow_right (by decide) (by omega)
  exact Nat.lt_of_lt_of_le shorter doubled

private theorem nearestBits_lt_infinityBits (places : n.log2 < 2000) :
    nearestBits n 1 < infinityBits := by
  have largest : infinityBits = 2047 * 2 ^ 52 := rfl
  obtain ⟨-, -, most⟩ := kept_bounds n
  rw [nearestBits_one]
  omega

/-- No magnitude is nearer to a whole number than the rounded one, and if one is as near, the
rounded bits are even. -/
private theorem nearestBits_closest {other : Nat} (finite : nearestBits n 1 < infinityBits)
    (differs : unitsOf other ≠ unitsOf (nearestBits n 1)) :
    apart (unitsOf (nearestBits n 1)) n < apart (unitsOf other) n ∨
      (apart (unitsOf (nearestBits n 1)) n = apart (unitsOf other) n ∧
        nearestBits n 1 % 2 = 0) := by
  obtain ⟨reached, least, most⟩ := kept_bounds n
  have rounded := nearestBits_one n
  rw [Nat.min_eq_right (by omega)] at rounded
  rw [rounded] at differs ⊢
  have pos : 0 < 2 ^ (n.log2 - 52) := Nat.two_pow_pos _
  have closest := fun a => @roundHalfEven_closest n (2 ^ (n.log2 - 52)) a pos
  generalize roundHalfEven n (2 ^ (n.log2 - 52)) = kept at *
  generalize n.log2 - 52 = k at *
  obtain ⟨k', m, rfl, least', short⟩ := exists_scaled other
  rw [unitsOf_scaled least most, unitsOf_scaled least' (Nat.le_of_lt short)] at *
  have even : (k * 2 ^ 52 + kept) % 2 = kept % 2 := by omega
  rw [even]
  rcases Nat.lt_or_ge k' k with finer | coarser
  · -- the least multiple that can be chosen is between the other magnitude and the number
    have below := scaled_lt_of_finer short finer
    have reached : 2 ^ 52 * 2 ^ k ≤ n := reached.resolve_left (by omega)
    left
    unfold apart at *
    by_cases least : 2 ^ 52 = kept
    · subst least
      omega
    · have between := closest (2 ^ 52) least
      omega
  · have multiple : m * 2 ^ k' = m * 2 ^ (k' - k) * 2 ^ k := by
      rw [Nat.mul_assoc, ← Nat.pow_add, Nat.sub_add_cancel coarser]
    rw [multiple] at differs ⊢
    exact closest _ fun same => differs (by rw [same])

end Magnitudes

section Signed

variable {x : Double} {n : Nat} {i : Int}

private theorem isNearest_of_bits (rounded : x.bits = nearestBits n 1)
    (finite : x.isFinite = true) : x.IsNearest (if x.negative then -(n : Int) else n) := by
  refine ⟨finite, fun y _ differs => ?_⟩
  have bound : nearestBits n 1 < infinityBits := by
    rw [← rounded]
    simpa [isFinite] using finite
  have same := @nearestBits_closest n y.bits bound
  have zero := @nearestBits_closest n 0 bound
  have none : unitsOf 0 = 0 := rfl
  rw [← rounded] at same zero
  rw [none] at zero
  unfold signedUnits units at *
  unfold apart at *
  generalize unitsOf x.bits = a at *
  generalize unitsOf y.bits = b at *
  cases sign : x.negative <;> cases sign' : y.negative <;>
    simp only [sign, sign', if_true, if_false, Bool.false_eq_true] at * <;> omega

private theorem unitsPerOne_pos : 0 < unitsPerOne := by
  rw [unitsPerOne, Nat.one_shiftLeft]
  exact Nat.two_pow_pos 1074

private theorem log2_mul_unitsPerOne_lt {k : Nat} (size : n < 2 ^ k) :
    (n * unitsPerOne).log2 < k + 1074 := by
  rcases Nat.eq_zero_or_pos n with rfl | some
  · simp
  · have nonzero : n * unitsPerOne ≠ 0 := Nat.pos_iff_ne_zero.1 (Nat.mul_pos some unitsPerOne_pos)
    apply (Nat.log2_lt nonzero).2
    calc n * unitsPerOne
        < 2 ^ k * unitsPerOne := Nat.mul_lt_mul_of_pos_right size unitsPerOne_pos
      _ = 2 ^ (k + 1074) := by rw [Nat.pow_add, unitsPerOne, Nat.one_shiftLeft]

/-- An integer of 64 bits is far below the largest double, so its double is the nearest one. -/
theorem isNearest_ofInt (size : i.natAbs < 2 ^ 64) : (ofInt i).IsNearest (i * unitsPerOne) := by
  have places := log2_mul_unitsPerOne_lt size
  have bits : (ofInt i).bits = nearestBits (i.natAbs * unitsPerOne) 1 := rfl
  have finite : (ofInt i).isFinite = true := by
    simpa [isFinite, bits] using nearestBits_lt_infinityBits (by omega)
  have nearest := isNearest_of_bits bits finite
  have sign : (ofInt i).negative = decide (i < 0) := rfl
  have target : (if (ofInt i).negative then -((i.natAbs * unitsPerOne : Nat) : Int)
      else (i.natAbs * unitsPerOne : Nat)) = i * unitsPerOne := by
    rw [sign, Int.natCast_mul]
    by_cases below : i < 0
    · rw [if_pos (decide_eq_true below), Int.ofNat_natAbs_of_nonpos (Int.le_of_lt below),
        Int.neg_mul, Int.neg_neg]
    · rw [if_neg (by simpa using below), Int.natAbs_of_nonneg (Int.not_lt.1 below)]
  rwa [target] at nearest

end Signed

section Whole

variable {x : Double} {i : Int}

def unsignedZero (x : Double) : Double := if x.isZero then 0 else x

private theorem units_eq_zero_iff (finite : x.isFinite = true) : x.units = 0 ↔ x.isZero = true := by
  have back := @nearestBits_unitsOf x.bits (by simpa [isFinite] using finite)
  rw [isZero, beq_iff_eq, units]
  constructor
  · intro none
    rw [none] at back
    exact back.symm
  · intro zero
    rw [zero]
    rfl

private theorem eq_of_parts {y : Double} (sign : x.negative = y.negative) (bits : x.bits = y.bits) :
    x = y := by
  cases x
  cases y
  cases sign
  cases bits
  rfl

private theorem exists_of_toInt? (whole : x.toInt? = some i) :
    ∃ q : Nat, x.isFinite = true ∧ x.units = q * unitsPerOne ∧
      i = if x.negative then -(q : Int) else q := by
  unfold toInt? at whole
  split at whole
  next conditions =>
    obtain ⟨finite, multiple⟩ : x.isFinite = true ∧ x.units % unitsPerOne = 0 := by
      simpa using conditions
    refine ⟨x.units / unitsPerOne, finite, ?_, (Option.some.inj whole).symm⟩
    exact (Nat.div_mul_cancel (Nat.dvd_of_mod_eq_zero multiple)).symm
  next => cases whole

theorem signedUnits_of_toInt? (whole : x.toInt? = some i) :
    x.signedUnits = i * unitsPerOne := by
  obtain ⟨q, -, units, rfl⟩ := exists_of_toInt? whole
  rw [signedUnits, units, Int.natCast_mul]
  split
  · exact (Int.neg_mul _ _).symm
  · rfl

theorem ofInt_of_toInt? (whole : x.toInt? = some i) : ofInt i = x.unsignedZero := by
  obtain ⟨q, finite, units, rfl⟩ := exists_of_toInt? whole
  have zero : q = 0 ↔ x.isZero = true := by
    rw [← units_eq_zero_iff finite, units, Nat.mul_eq_zero]
    exact (or_iff_left (Nat.pos_iff_ne_zero.1 unitsPerOne_pos)).symm
  rw [unsignedZero]
  by_cases none : x.isZero = true
  · rw [if_pos none, zero.2 none, Int.natCast_zero, Int.neg_zero, ite_self]
    rfl
  · have some : q ≠ 0 := fun same => none (zero.1 same)
    have back : nearestBits x.units 1 = x.bits :=
      nearestBits_unitsOf (by simpa [isFinite] using finite)
    rw [if_neg none]
    apply eq_of_parts
    · change decide ((if x.negative then -(q : Int) else q) < 0) = x.negative
      cases x.negative
      · simp
      · simpa using Nat.pos_iff_ne_zero.2 some
    · change nearestBits ((if x.negative then -(q : Int) else q).natAbs * unitsPerOne) 1 = x.bits
      have size : (if x.negative then -(q : Int) else q).natAbs = q := by
        split
        · rw [Int.natAbs_neg, Int.natAbs_natCast]
        · exact Int.natAbs_natCast q
      rw [size, ← units, back]

private theorem isFinite_of_isZero (zero : x.isZero = true) : x.isFinite = true := by
  rw [isFinite, beq_iff_eq.1 zero]
  rfl

theorem toInt?_of_isZero (zero : x.isZero = true) : x.toInt? = some 0 := by
  have finite := isFinite_of_isZero zero
  have none : x.units = 0 := (units_eq_zero_iff finite).2 zero
  rw [toInt?, finite, none, Nat.zero_mod, Nat.zero_div, Int.natCast_zero, Int.neg_zero, ite_self]
  rfl

theorem isFinite_of_toInt? (whole : x.toInt? = some i) : x.isFinite = true := by
  obtain ⟨-, finite, -, -⟩ := exists_of_toInt? whole
  exact finite

theorem unsignedZero_cases (x : Double) :
    (x.isZero = true ∧ x.unsignedZero = 0) ∨ (x.isZero = false ∧ x.unsignedZero = x) := by
  rw [unsignedZero]
  cases x.isZero with
  | true => exact .inl ⟨rfl, rfl⟩
  | false => exact .inr ⟨rfl, rfl⟩

theorem isFinite_unsignedZero (x : Double) : x.unsignedZero.isFinite = x.isFinite := by
  rcases x.unsignedZero_cases with ⟨zero, same⟩ | ⟨-, same⟩
  · rw [same, isFinite_of_isZero zero]
    rfl
  · rw [same]

theorem unsignedZero_unsignedZero (x : Double) : x.unsignedZero.unsignedZero = x.unsignedZero := by
  rcases x.unsignedZero_cases with ⟨-, same⟩ | ⟨-, same⟩
  · rw [same]
    rfl
  · rw [same, same]

end Whole

end Double

end ValueSchema
