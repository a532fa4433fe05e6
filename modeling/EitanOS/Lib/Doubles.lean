import Mathlib.Data.Nat.Log
import Mathlib.Tactic.Positivity

/-!
# Integers as doubles

`Float.Model` is binary64, bit by bit. An integer below `2 ^ 53` is a double without a rounding, and what
programs do with it is then as for integers.

* **`unpack_ofInt`**: the double of an integer, as sign, mantissa and exponent.
* `beq_zero`, `lt_zero`, `neg_ofInt`: comparisons and negation.
* `toLong`: the conversion to a 64-bit integer; **`toLong_ofInt`**: it gives the integer back.
-/

namespace Doubles

open Float.Model Float.Model.UnpackedFloat

variable {s : Sign} {m n : ℕ} {e : ℤ}

/-! ## Rounding -/

theorem shiftToTargetExponent_exact (hm : m < 2 ^ 53) (he : -1074 ≤ e) :
    shiftToTargetExponent Format.binary64 m e .exact = (⟨m, false, false⟩, e) := by
  have hlog : m.log2 ≤ 52 := by
    rcases Nat.eq_zero_or_pos m with rfl | h
    · simp
    · have := (Nat.log2_lt h.ne').mpr hm
      omega
  have ht : (Format.binary64.targetExponent (totalExponent m e) - e).toNat = 0 := by
    unfold Format.targetExponent totalExponent Format.minExponent Format.mantissaBits
    simp
    omega
  unfold shiftToTargetExponent shiftToExponent
  simp only [ht, Nat.cast_zero, Int.add_zero]
  rfl

theorem roundWithAccuracy_exact (h₀ : 0 < m) (hm : m < 2 ^ 53) (he : -1074 ≤ e) :
    roundWithAccuracy Format.binary64 s m e .exact = .finite s m e h₀ := by
  have hr : (⟨m, false, false⟩ : ExtendedMantissa).roundedMantissa = m := rfl
  unfold roundWithAccuracy
  rw [shiftToTargetExponent_exact hm he]
  dsimp only
  rw [hr, shiftToTargetExponent_exact hm he]
  exact dif_neg h₀.ne'

/-- The exponent of a number below `2 ^ 53` is `-scale n`. -/
def scale (n : ℕ) : ℕ := 52 - n.log2

theorem scale_le : scale n ≤ 52 := Nat.sub_le _ _

theorem log2_scaled (h₀ : 0 < n) (hn : n < 2 ^ 53) : (n * 2 ^ scale n).log2 = 52 := by
  have hlog := (Nat.log2_lt h₀.ne').mpr hn
  have hpow : ∀ k, (n * 2 ^ k).log2 = n.log2 + k := fun k => by
    induction k with
    | zero => simp
    | succ k ih =>
      rw [Nat.pow_succ, ← Nat.mul_assoc, Nat.log2_eq_log_two, Nat.log_mul_base (by omega) (by positivity),
        ← Nat.log2_eq_log_two, ih, Nat.add_assoc]
  rw [hpow, scale]
  omega

/-- **A natural number below `2 ^ 53` is not rounded.** -/
theorem round_natCast (h₀ : 0 < n) (hn : n < 2 ^ 53) : UnpackedFloat.round Format.binary64 s n 0 =
    .finite s (n * 2 ^ scale n) (-(scale n : ℤ)) (Nat.mul_pos h₀ (Nat.two_pow_pos _)) := by
  have hlog := (Nat.log2_lt h₀.ne').mpr hn
  have hscale : (scale n : ℤ) = 52 - n.log2 := by
    unfold scale
    omega
  have ht : Format.binary64.targetExponent (totalExponent n 0) = -(scale n : ℤ) := by
    unfold Format.targetExponent totalExponent Format.minExponent Format.mantissaBits
    simp
    omega
  have hs : ((0 : ℤ) - -(scale n : ℤ)).toNat = scale n := by omega
  unfold UnpackedFloat.round decreaseExponent
  dsimp only
  rw [ht, hs, Nat.shiftLeft_eq, Int.zero_sub]
  refine roundWithAccuracy_exact (by positivity) ?_ (by omega)
  rw [← Nat.log2_lt (by positivity), log2_scaled h₀ hn]
  omega

/-! ## Bits -/

theorem ofBitVec_unpackSign (s : Sign) (x : BitVec 11) (y : BitVec 52) :
    Sign.ofBitVec (unpackSign (packComponents Format.binary64 s x y)) = s := by
  have h : unpackSign (packComponents Format.binary64 s x y) = s.toBitVec := by
    apply BitVec.eq_of_getLsbD_eq
    intro i hi
    obtain rfl : i = 0 := by omega
    delta unpackSign packComponents
    simp only [BitVec.getLsbD_cast, BitVec.getLsbD_extractLsb, BitVec.getLsbD_append]
    simp
  rw [h]
  cases s <;> rfl

/-- **Packing a normal number loses nothing.** -/
theorem unpack_pack (h₀ : 0 < m) (hm : m.log2 = 52) (he : -1074 ≤ e) (he' : e ≤ 971) :
    (Float.Model.pack (.finite s m e h₀)).unpack = .finite s m e h₀ := by
  have hlt : m < 2 ^ 53 := (Nat.log2_lt h₀.ne').mp (by omega)
  have hge : 2 ^ 52 ≤ m := hm ▸ Nat.log2_self_le h₀.ne'
  -- the exponent field
  obtain ⟨k, hk⟩ : ∃ k : ℕ, e = k - 1075 := ⟨(e + 1075).toNat, by omega⟩
  subst hk
  have hfield : (k - 1075 + (Format.binary64.exponentBias : ℤ) +
      (Format.binary64.mantissaBitsWithoutImplicit : ℤ)).toNat = k := by
    show ((k : ℤ) - 1075 + 1023 + 52).toNat = k
    omega
  have hpack : UnpackedFloat.pack Format.binary64 (.finite s m (k - 1075) h₀) =
      packComponents Format.binary64 s (BitVec.ofNat 11 k) (BitVec.ofNat 52 m) := by
    unfold UnpackedFloat.pack
    dsimp only
    rw [hfield, hm, if_neg (by show ¬ 2 ^ 11 ≤ k + 1; omega)]
    exact if_pos rfl
  have hk : (BitVec.ofNat 11 k).toNat = k := by
    rw [BitVec.toNat_ofNat]
    omega
  have hne : BitVec.ofNat 11 k ≠ -1#11 := fun h => by
    have := congrArg BitVec.toNat h
    rw [hk] at this
    simp at this
    omega
  have hne' : BitVec.ofNat 11 k ≠ 0#11 := fun h => by
    have := congrArg BitVec.toNat h
    rw [hk] at this
    simp at this
    omega
  have hmant : (1#1 ++ BitVec.ofNat 52 m).toNat = m := by
    have hmod : (BitVec.ofNat 52 m).toNat < 2 ^ 52 := (BitVec.ofNat 52 m).isLt
    rw [BitVec.toNat_append, ← Nat.shiftLeft_add_eq_or_of_lt hmod, BitVec.toNat_ofNat, BitVec.toNat_ofNat,
      Nat.shiftLeft_eq]
    omega
  show UnpackedFloat.unpack Format.binary64 (UnpackedFloat.pack Format.binary64 _) = _
  rw [hpack]
  have hexp : unpackExponent (packComponents Format.binary64 s (BitVec.ofNat 11 k) (BitVec.ofNat 52 m)) =
      BitVec.ofNat 11 k := unpackExponent_packComponents ..
  unfold UnpackedFloat.unpack
  dsimp only
  rw [if_neg (hexp.trans_ne hne), if_neg (hexp.trans_ne hne'), finite.injEq, hexp,
    unpackMantissa_packComponents, ofBitVec_unpackSign]
  refine ⟨rfl, hmant, ?_⟩
  rw [hk]
  show (k : ℤ) - (1023 + 52) = k - 1075
  omega

/-! ## Integers -/

/-- The sign of a number other than zero. -/
def signOf (n : ℤ) : Sign := if n < 0 then .negative else .positive

theorem signOf_neg {n : ℤ} (h₀ : n ≠ 0) : signOf (-n) = -signOf n := by
  unfold signOf
  rcases lt_or_gt_of_ne h₀ with hlt | hgt
  · rw [if_neg (by omega), if_pos hlt]
    rfl
  · rw [if_pos (by omega), if_neg (by omega)]
    rfl

theorem mantissa_pos {n : ℤ} (h₀ : n ≠ 0) : 0 < n.natAbs * 2 ^ scale n.natAbs := by
  have := Int.natAbs_pos.mpr h₀
  positivity

theorem ofInt_eq_pack {n : ℤ} (h₀ : n ≠ 0) (hn : n.natAbs < 2 ^ 53) : Float.Model.ofInt n = Float.Model.pack
    (.finite (signOf n) (n.natAbs * 2 ^ scale n.natAbs) (-(scale n.natAbs : ℤ)) (mantissa_pos h₀)) := by
  have hround : UnpackedFloat.ofInt Format.binary64 n =
      UnpackedFloat.round Format.binary64 (signOf n) n.natAbs 0 := by
    unfold UnpackedFloat.ofInt UnpackedFloat.normalize signOf
    rcases lt_or_gt_of_ne h₀ with hlt | hgt
    · rw [if_pos hlt, Std.compare_eq_lt.mpr hlt]
      dsimp only
      congr 1
      omega
    · rw [if_neg (by omega), Std.compare_eq_gt.mpr hgt]
      dsimp only
      congr 1
      omega
  unfold Float.Model.ofInt
  rw [hround, round_natCast (Int.natAbs_pos.mpr h₀) hn]

/-- **An integer below `2 ^ 53`** as a double. -/
theorem unpack_ofInt {n : ℤ} (h₀ : n ≠ 0) (hn : n.natAbs < 2 ^ 53) : (Float.Model.ofInt n).unpack =
    .finite (signOf n) (n.natAbs * 2 ^ scale n.natAbs) (-(scale n.natAbs : ℤ)) (mantissa_pos h₀) := by
  have hle := scale_le (n := n.natAbs)
  rw [ofInt_eq_pack h₀ hn, unpack_pack _ (log2_scaled (Int.natAbs_pos.mpr h₀) hn) (by omega) (by omega)]

theorem unpack_ofInt_zero : (Float.Model.ofInt 0).unpack = .zero .positive := rfl

variable {n : ℤ}

theorem beq_self (hn : n.natAbs < 2 ^ 53) : Float.Model.beq (.ofInt n) (.ofInt n) = true := by
  unfold Float.Model.beq UnpackedFloat.beq
  by_cases h₀ : n = 0
  · rw [h₀, unpack_ofInt_zero]
    rfl
  · rw [unpack_ofInt h₀ hn]
    unfold UnpackedFloat.compare
    cases signOf n
    all_goals
      dsimp only
      simp

theorem beq_zero (hn : n.natAbs < 2 ^ 53) : Float.Model.beq (.ofInt n) (.ofInt 0) = decide (n = 0) := by
  by_cases h₀ : n = 0
  · rw [h₀, beq_self (by decide)]
    rfl
  · unfold Float.Model.beq UnpackedFloat.beq
    rw [unpack_ofInt h₀ hn, unpack_ofInt_zero, decide_eq_false h₀]
    cases signOf n <;> rfl

theorem lt_zero (hn : n.natAbs < 2 ^ 53) : Float.Model.lt (.ofInt n) (.ofInt 0) = decide (n < 0) := by
  unfold Float.Model.lt UnpackedFloat.lt
  by_cases h₀ : n = 0
  · rw [h₀, unpack_ofInt_zero]
    rfl
  · rw [unpack_ofInt h₀ hn, unpack_ofInt_zero]
    by_cases hlt : n < 0
    · rw [decide_eq_true hlt, signOf, if_pos hlt]
      rfl
    · rw [decide_eq_false hlt, signOf, if_neg hlt]
      rfl

theorem neg_ofInt (h₀ : n ≠ 0) (hn : n.natAbs < 2 ^ 53) : Float.Model.neg (.ofInt n) = .ofInt (-n) := by
  rw [ofInt_eq_pack (neg_ne_zero.mpr h₀) (by rwa [Int.natAbs_neg])]
  unfold Float.Model.neg
  rw [unpack_ofInt h₀ hn]
  exact congrArg Float.Model.pack ((finite.injEq ..).mpr
    ⟨(signOf_neg h₀).symm, by rw [Int.natAbs_neg], by rw [Int.natAbs_neg]⟩)

/-- The conversion to a 64-bit integer, towards zero, as the processor makes it: what does not fit becomes the
least one. -/
def toLong (x : Float.Model) : ℤ :=
  match x.unpack with
  | .finite s m e _ =>
    let v := roundToInt s m e
    if -2 ^ 63 ≤ v ∧ v < 2 ^ 63 then v else -2 ^ 63
  | .zero _ => 0
  | .infinity _ => -2 ^ 63
  | .notANumber => -2 ^ 63

theorem mantissa_shiftRight (x : ExtendedMantissa) (k : ℕ) : (x >>> k).mantissa = x.mantissa / 2 ^ k := by
  induction k generalizing x with
  | zero =>
    rw [Nat.pow_zero, Nat.div_one]
    rfl
  | succ k ih =>
    show (x >>> k).mantissa / 2 = _
    rw [ih, Nat.div_div_eq_div_mul, Nat.pow_succ]

theorem toLong_ofInt (hn : n.natAbs < 2 ^ 53) : toLong (.ofInt n) = n := by
  unfold toLong
  by_cases h₀ : n = 0
  · rw [h₀, unpack_ofInt_zero]
  · rw [unpack_ofInt h₀ hn]
    have hround : roundToInt (signOf n) (n.natAbs * 2 ^ scale n.natAbs) (-(scale n.natAbs : ℤ)) = n := by
      have hs : (-(scale n.natAbs : ℤ) - 0).toNat = 0 := by omega
      have hs' : ((0 : ℤ) - (-(scale n.natAbs : ℤ) - (0 : ℕ))).toNat = scale n.natAbs := by omega
      unfold roundToInt decreaseExponent shiftToExponent
      dsimp only
      rw [hs, hs', mantissa_shiftRight]
      have hdiv : (n.natAbs * 2 ^ scale n.natAbs) <<< 0 / 2 ^ scale n.natAbs = n.natAbs := by
        rw [Nat.shiftLeft_zero, Nat.mul_div_cancel _ (by positivity)]
      show (signOf n).apply (((n.natAbs * 2 ^ scale n.natAbs) <<< 0 / 2 ^ scale n.natAbs : ℕ) : ℤ) = n
      rw [hdiv]
      unfold signOf Sign.apply
      split_ifs with hlt
      · show -(n.natAbs : ℤ) = n
        omega
      · show (n.natAbs : ℤ) = n
        omega
    dsimp only
    rw [hround, if_pos (by omega)]

end Doubles
