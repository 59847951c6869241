import SceneTokens.Proofs.Numerals
import SceneTokens.Proofs.Patterns

/-!
# Numerals and the numbers they are read as

A numeral denotes a rational number (`Numeral.value`), and so does every finite pattern of 64 bits
(`Binary64.value`). What a numeral is to be read as is said by these two alone (`Binary64.Rounds`):
the finite number nearest to it, of two that are equally near the one with the even significand,
infinity from the middle between the largest finite number and `2 ^ 1024` on, and always with the
sign of the numeral. There is only one such number (`Binary64.Rounds.unique`).

Reading gives this number, whatever bytes are read (`Binary64.read?_exact`). Numerals far out of
range are settled by their number of digits; the bounds in `Binary64.patternOfDecimal` are such that
nothing is settled wrongly (`Binary64.roundsTo_patternOfDecimal`).
-/

namespace SceneTokens

/-! ## What numerals and patterns denote -/

namespace Numeral

/-- The rational number a numeral denotes, its sign left out. -/
def size (n : Numeral) : ℚ :=
  n.mantissa * 10 ^ n.scale

/-- The rational number a numeral denotes. -/
def value (n : Numeral) : ℚ :=
  (if n.isNegative then -1 else 1) * n.size

theorem size_nonneg (n : Numeral) : 0 ≤ n.size :=
  mul_nonneg (Nat.cast_nonneg _) (zpow_pos (by norm_num) _).le

theorem abs_value (n : Numeral) : |n.value| = n.size := by
  unfold value
  rw [abs_mul, abs_of_nonneg n.size_nonneg]
  split <;> simp

end Numeral

namespace Binary64

/-- A pattern without its sign. -/
def magnitudeBits (b : Binary64) : Nat :=
  b.bits.toNat % signBit

/-- Whether the sign bit is set. -/
def isNegative (b : Binary64) : Bool :=
  signBit ≤ b.bits.toNat

/-- The eleven bits of the exponent. -/
def exponentField (b : Binary64) : Nat :=
  b.magnitudeBits / 2 ^ 52

/-- The bits of the significand that are written. -/
def fractionField (b : Binary64) : Nat :=
  b.magnitudeBits % 2 ^ 52

/-- The significand, with the leading bit that is not written unless the number is subnormal. -/
def significand (b : Binary64) : Nat :=
  significandOf b.magnitudeBits

def IsFinite (b : Binary64) : Prop :=
  b.exponentField < 2047

def IsInfinite (b : Binary64) : Prop :=
  b.exponentField = 2047 ∧ b.fractionField = 0

def IsNaN (b : Binary64) : Prop :=
  b.exponentField = 2047 ∧ b.fractionField ≠ 0

/-- The rational number a finite pattern denotes. -/
def value (b : Binary64) : ℚ :=
  (if b.isNegative then -1 else 1) * (b.significand * 2 ^ ((max b.exponentField 1 : Int) - 1075))

/-- `b` is what the numeral `n` is to be read as. -/
structure Rounds (n : Numeral) (b : Binary64) : Prop where
  sign : b.isNegative = n.isNegative
  not_nan : ¬b.IsNaN
  infinite : 2 ^ 1024 - 2 ^ 970 ≤ |n.value| → b.IsInfinite
  finite : |n.value| < 2 ^ 1024 - 2 ^ 970 → b.IsFinite
  nearest : |n.value| < 2 ^ 1024 - 2 ^ 970 → ∀ x : Binary64, x.IsFinite →
    |b.value - n.value| ≤ |x.value - n.value|
  even : |n.value| < 2 ^ 1024 - 2 ^ 970 → ∀ x : Binary64, x.IsFinite → x.value ≠ b.value →
    |x.value - n.value| = |b.value - n.value| → Even b.significand

/-! ## Values in units -/

/-- The value of a pattern by the grid: a number of units of the least positive number. -/
theorem value_eq (b : Binary64) :
    b.value = (if b.isNegative then -1 else 1) * (units b.magnitudeBits / 2 ^ 1074) := by
  have hexp : (max b.exponentField 1 : Int) - 1075 =
      (b.magnitudeBits / 2 ^ 52 - 1 : Nat) - (1074 : Nat) := by
    unfold exponentField
    omega
  rw [value, hexp, zpow_sub₀ two_ne_zero, zpow_natCast, zpow_natCast, units, significand,
    ← mul_div_assoc, Nat.cast_mul, Nat.cast_pow, Nat.cast_ofNat]

theorem abs_value (b : Binary64) : |b.value| = units b.magnitudeBits / 2 ^ 1074 := by
  rw [value_eq, abs_mul, abs_of_nonneg (by positivity : (0 : ℚ) ≤ units b.magnitudeBits / 2 ^ 1074)]
  split <;> simp

/-- If the signs agree, the distance between a number and a numeral is that on the grid. -/
theorem abs_value_sub {n : Numeral} {b : Binary64} (h : b.isNegative = n.isNegative) :
    |b.value - n.value| = |(units b.magnitudeBits : ℚ) - n.size * 2 ^ 1074| / 2 ^ 1074 := by
  have hpow : (0 : ℚ) < 2 ^ 1074 := by positivity
  have hdist : |(units b.magnitudeBits : ℚ) / 2 ^ 1074 - n.size| =
      |(units b.magnitudeBits : ℚ) - n.size * 2 ^ 1074| / 2 ^ 1074 := by
    rw [← abs_of_pos hpow, ← abs_div, abs_of_pos hpow, sub_div, mul_div_cancel_right₀ _ hpow.ne']
  rw [value_eq, Numeral.value, h, ← mul_sub, abs_mul, hdist]
  split <;> simp

theorem isFinite_iff (b : Binary64) : b.IsFinite ↔ b.magnitudeBits < infinityBits := by
  have hinf : infinityBits = 2047 * 2 ^ 52 := by decide
  rw [IsFinite, exponentField, hinf]
  omega

theorem isInfinite_iff (b : Binary64) : b.IsInfinite ↔ b.magnitudeBits = infinityBits := by
  have hinf : infinityBits = 2047 * 2 ^ 52 := by decide
  rw [IsInfinite, exponentField, fractionField, hinf]
  omega

theorem not_isNaN_of_le {b : Binary64} (h : b.magnitudeBits ≤ infinityBits) : ¬b.IsNaN := by
  have hinf : infinityBits = 2047 * 2 ^ 52 := by decide
  rw [IsNaN, exponentField, fractionField]
  omega

/-- A sign and a magnitude below the sign bit do not interfere. -/
theorem signed_magnitudeBits {p : Nat} (hp : p < signBit) (negative : Bool) :
    (signed negative p).magnitudeBits = p ∧ (signed negative p).isNegative = negative := by
  have hbit : signBit = 2 ^ 63 := by decide
  cases negative with
  | false =>
    have hnat : (signed false p).bits.toNat = p := by
      simp only [signed, Bool.false_eq_true, if_false, Nat.toUInt64, UInt64.toNat_ofNat']
      omega
    rw [magnitudeBits, isNegative, hnat, Nat.mod_eq_of_lt hp]
    exact ⟨rfl, decide_eq_false (Nat.not_le.2 hp)⟩
  | true =>
    have hnat : (signed true p).bits.toNat = signBit + p := by
      simp only [signed, if_true, Nat.toUInt64, UInt64.toNat_ofNat']
      omega
    rw [magnitudeBits, isNegative, hnat, Nat.add_mod_left, Nat.mod_eq_of_lt hp]
    exact ⟨rfl, decide_eq_true (Nat.le_add_right _ _)⟩

theorem eq_of_magnitudeBits {a b : Binary64} (hsign : a.isNegative = b.isNegative)
    (hbits : a.magnitudeBits = b.magnitudeBits) : a = b := by
  have hbit : signBit = 2 ^ 63 := by decide
  have ha := a.bits.toNat_lt
  have hb := b.bits.toNat_lt
  have hsign' : signBit ≤ a.bits.toNat ↔ signBit ≤ b.bits.toNat := by
    simpa [isNegative] using hsign
  simp only [magnitudeBits, hbit] at hbits
  have hnat : a.bits.toNat = b.bits.toNat := by omega
  cases a
  cases b
  exact congrArg Binary64.mk (UInt64.toNat_inj.1 hnat)

/-! ## The number is determined -/

/-- Two points of the grid with another one between them are not both nearest to anything. -/
theorem not_closest_both {x : ℚ} {i j : Nat} (hij : i + 1 < j)
    (hi : |(units i : ℚ) - x| ≤ |(units (i + 1) : ℚ) - x|)
    (hj : |(units j : ℚ) - x| ≤ |(units (i + 1) : ℚ) - x|) : False := by
  have hlow : (units i : ℚ) < units (i + 1) := Nat.cast_lt.2 (units_strictMono (Nat.lt_succ_self i))
  have hhigh : (units (i + 1) : ℚ) < units j := Nat.cast_lt.2 (units_strictMono hij)
  rcases le_total x (units (i + 1)) with hx | hx
  · rw [abs_of_nonneg (by linarith), abs_of_nonneg (by linarith)] at hj
    linarith
  · rw [abs_of_nonpos (by linarith), abs_of_nonpos (by linarith)] at hi
    linarith

/-- On the grid the number a numeral is read as is the nearest finite one. -/
theorem Rounds.le_units {n : Numeral} {b : Binary64} (h : Rounds n b)
    (hlt : |n.value| < 2 ^ 1024 - 2 ^ 970) {q : Nat} (hq : q < infinityBits) :
    |(units b.magnitudeBits : ℚ) - n.size * 2 ^ 1074| ≤ |(units q : ℚ) - n.size * 2 ^ 1074| := by
  have hpow : (0 : ℚ) < 2 ^ 1074 := by positivity
  obtain ⟨hbits, hsign⟩ := signed_magnitudeBits (hq.trans (by decide)) n.isNegative
  have hle := h.nearest hlt (signed n.isNegative q) ((isFinite_iff _).2 (by rwa [hbits]))
  rw [abs_value_sub h.sign, abs_value_sub hsign, hbits] at hle
  exact (div_le_div_iff_of_pos_right hpow).1 hle

/-- Of two patterns that one numeral is to be read as, neither is larger. -/
theorem Rounds.magnitudeBits_le {n : Numeral} {a b : Binary64} (ha : Rounds n a)
    (hb : Rounds n b) : a.magnitudeBits ≤ b.magnitudeBits := by
  rcases lt_or_ge |n.value| (2 ^ 1024 - 2 ^ 970) with hlt | hge
  · have hafin := (isFinite_iff a).1 (ha.finite hlt)
    have hbfin := (isFinite_iff b).1 (hb.finite hlt)
    by_contra hgt
    rcases Nat.lt_or_ge (b.magnitudeBits + 1) a.magnitudeBits with hfar | hnext
    · exact not_closest_both hfar (hb.le_units hlt (by omega)) (ha.le_units hlt (by omega))
    · -- neighbours that are equally near would both be even
      have hne : b.value ≠ a.value := by
        intro heq
        have habs := congrArg abs heq
        rw [abs_value, abs_value, div_left_inj' (by positivity), Nat.cast_inj] at habs
        have := units_strictMono.injective habs
        omega
      have hdist := le_antisymm (ha.nearest hlt b (hb.finite hlt))
        (hb.nearest hlt a (ha.finite hlt))
      have haeven := (even_significandOf_iff _).1 (ha.even hlt b (hb.finite hlt) hne hdist.symm)
      have hbeven := (even_significandOf_iff _).1 (hb.even hlt a (ha.finite hlt) hne.symm hdist)
      rw [Nat.even_iff] at haeven hbeven
      omega
  · rw [(isInfinite_iff a).1 (ha.infinite hge), (isInfinite_iff b).1 (hb.infinite hge)]

/-- A numeral is read as one number only. -/
theorem Rounds.unique {n : Numeral} {a b : Binary64} (ha : Rounds n a) (hb : Rounds n b) : a = b :=
  eq_of_magnitudeBits (ha.sign.trans hb.sign.symm)
    (Nat.le_antisymm (ha.magnitudeBits_le hb) (hb.magnitudeBits_le ha))

end Binary64

/-! ## The digits of a numeral -/

namespace Numeral

theorem foldl_digits (digits : Bytes) (value : Nat) :
    digits.foldl (fun value b => value * 10 + Byte.digitValue b) value =
      value * 10 ^ digits.length + valueOf digits := by
  induction digits generalizing value with
  | nil => simp [valueOf]
  | cons b digits ih =>
    have hcons : valueOf (b :: digits) = _ := ih (0 * 10 + Byte.digitValue b)
    rw [List.foldl_cons, ih, hcons, List.length_cons, pow_succ]
    ring

theorem valueOf_cons (b : UInt8) (digits : Bytes) :
    valueOf (b :: digits) = Byte.digitValue b * 10 ^ digits.length + valueOf digits := by
  rw [valueOf, List.foldl_cons, Nat.zero_mul, Nat.zero_add, foldl_digits]

theorem valueOf_lt {digits : Bytes} (h : ∀ b ∈ digits, Byte.isDigit b = true) :
    valueOf digits < 10 ^ digits.length := by
  induction digits with
  | nil => simp [valueOf]
  | cons b digits ih =>
    have hb : Byte.digitValue b ≤ 9 :=
      Byte.forall_of_lt (P := fun b => Byte.isDigit b = true → Byte.digitValue b ≤ 9)
        (by decide +kernel) b (h b (by simp))
    have hmore := ih fun c hc => h c (List.mem_cons_of_mem b hc)
    rw [valueOf_cons, List.length_cons, pow_succ]
    calc Byte.digitValue b * 10 ^ digits.length + valueOf digits
        < Byte.digitValue b * 10 ^ digits.length + 10 ^ digits.length := by omega
      _ = (Byte.digitValue b + 1) * 10 ^ digits.length := by ring
      _ ≤ 10 * 10 ^ digits.length := Nat.mul_le_mul_right _ (by omega)
      _ = 10 ^ digits.length * 10 := Nat.mul_comm _ _

/-- Leading zeros do not count. -/
theorem valueOf_dropWhile (digits : Bytes) :
    valueOf (digits.dropWhile (· == 0x30)) = valueOf digits := by
  induction digits with
  | nil => rfl
  | cons b digits ih =>
    by_cases hb : b = 0x30
    · subst hb
      rw [List.dropWhile_cons_of_pos (by decide), ih, valueOf_cons]
      simp [Byte.digitValue]
    · rw [List.dropWhile_cons_of_neg (by simpa using hb)]

/-- The number of significant digits says between which powers of ten a numeral lies. -/
theorem size_bounds {n : Numeral} (hn : n.WellFormed) (hpos : n.mantissa ≠ 0) :
    (10 : ℚ) ^ ((Binary64.significant n).length + n.scale - 1) ≤ n.size ∧
      n.size < 10 ^ ((Binary64.significant n).length + n.scale) := by
  have hvalue : n.mantissa = valueOf (Binary64.significant n) := (valueOf_dropWhile _).symm
  have hdigits : ∀ b ∈ Binary64.significant n, Byte.isDigit b = true :=
    fun b hb => hn.digits.2 b ((List.dropWhile_sublist _).subset hb)
  have hhead : ∀ c, (Binary64.significant n).head? = some c → (c == 0x30) = false :=
    fun c => head?_dropWhile
  have hlt := valueOf_lt hdigits
  have hten : (0 : ℚ) < 10 ^ n.scale := zpow_pos (by norm_num) _
  cases hs : Binary64.significant n with
  | nil =>
    rw [hs] at hvalue
    exact absurd hvalue hpos
  | cons b digits =>
    rw [hs] at hvalue hdigits hhead hlt
    have hb : 1 ≤ Byte.digitValue b :=
      Byte.forall_of_lt (P := fun b => Byte.isDigit b = true → (b == 0x30) = false →
        1 ≤ Byte.digitValue b) (by decide +kernel) b (hdigits b (by simp)) (hhead b rfl)
    have hge : 10 ^ digits.length ≤ n.mantissa := by
      rw [hvalue, valueOf_cons]
      exact Nat.le_add_right_of_le (Nat.le_mul_of_pos_left _ hb)
    have hexp : (((b :: digits).length : Nat) : Int) + n.scale - 1 = digits.length + n.scale := by
      rw [List.length_cons, Nat.cast_succ]
      ring
    rw [hexp, zpow_add₀ (by norm_num), zpow_add₀ (by norm_num), zpow_natCast, zpow_natCast, size]
    constructor
    · exact mul_le_mul_of_nonneg_right (by exact_mod_cast hge) hten.le
    · exact mul_lt_mul_of_pos_right (by rw [hvalue]; exact_mod_cast hlt) hten

end Numeral

namespace Binary64

/-! ## Rounding decimals -/

/-- `p` is the pattern `x` rounds to, given in units, if the patterns past the finite numbers are
taken for infinity. -/
def RoundsTo (x : ℚ) (p : Nat) : Prop :=
  ∃ q, Closest (fun p => (units p : ℚ)) x q ∧ p = min infinityBits q

/-- Less than half of the least positive number rounds to zero. -/
theorem closest_zero {x : ℚ} (h0 : 0 ≤ x) (hx : x < 1 / 2) :
    Closest (fun p => (units p : ℚ)) x 0 := by
  refine ⟨fun p => ?_, fun _ _ _ => Even.zero⟩
  have hzero : units 0 = 0 := rfl
  rw [hzero, Nat.cast_zero, zero_sub, abs_neg, abs_of_nonneg h0]
  rcases Nat.eq_zero_or_pos p with rfl | hp
  · rw [hzero, Nat.cast_zero, zero_sub, abs_neg, abs_of_nonneg h0]
  · have hone : (1 : ℚ) ≤ units p := by exact_mod_cast units_strictMono hp
    rw [abs_of_nonneg (by linarith)]
    linarith

theorem roundsTo_patternOfRatio {x : ℚ} {n d : Nat} (hn : 0 < n) (hd : 0 < d)
    (hx : x = n / d) : RoundsTo (x * 2 ^ 1074) (patternOfRatio n d) :=
  hx ▸ exists_closest_patternOfRatio hn hd

/-- A positive decimal is a ratio, and rounds as one. -/
theorem roundsTo_ratio {n : Numeral} (hpos : n.mantissa ≠ 0) : RoundsTo (n.size * 2 ^ 1074)
    (if 0 ≤ n.scale then patternOfRatio (n.mantissa * Nat.pow 10 n.scale.toNat) 1
      else patternOfRatio n.mantissa (Nat.pow 10 (-n.scale).toNat)) := by
  have hmantissa := Nat.pos_of_ne_zero hpos
  have hten (k : Nat) : 0 < Nat.pow 10 k := Nat.pow_pos (by decide)
  split
  · rename_i hscale
    obtain ⟨k, hk⟩ := Int.eq_ofNat_of_zero_le hscale
    refine roundsTo_patternOfRatio (Nat.mul_pos hmantissa (hten _)) Nat.one_pos ?_
    rw [Numeral.size, hk, zpow_natCast, Int.toNat_natCast, Nat.pow_eq]
    push_cast
    rw [div_one]
  · rename_i hscale
    obtain ⟨k, hk⟩ := Int.eq_ofNat_of_zero_le (by omega : 0 ≤ -n.scale)
    refine roundsTo_patternOfRatio hmantissa (hten _) ?_
    rw [Numeral.size, ← Int.neg_neg n.scale, hk, zpow_neg, zpow_natCast, Int.neg_neg,
      Int.toNat_natCast, Nat.pow_eq]
    push_cast
    rw [div_eq_mul_inv]

/-- From `10 ^ 310` on a number is out of range, and below `10 ^ (-331)` it is less than half of the
least positive number. -/
theorem two_pow_le_ten_pow : (2 : ℚ) ^ 1024 ≤ 10 ^ 310 ∧ (2 : ℚ) ^ 1075 < 10 ^ 331 := by
  have hover : ((2 ^ 1024 : Nat) : ℚ) ≤ (10 ^ 310 : Nat) := Nat.cast_le.2 (by decide +kernel)
  have hunder : ((2 ^ 1075 : Nat) : ℚ) < (10 ^ 331 : Nat) := Nat.cast_lt.2 (by decide +kernel)
  rw [Nat.cast_pow, Nat.cast_pow, Nat.cast_ofNat, Nat.cast_ofNat] at hover hunder
  exact ⟨hover, hunder⟩

/-- What is settled by the number of digits alone is settled rightly. -/
theorem roundsTo_patternOfDecimal {n : Numeral} (hn : n.WellFormed) :
    RoundsTo (n.size * 2 ^ 1074)
      (patternOfDecimal n.mantissa (significant n).length n.scale) := by
  have hpow : (0 : ℚ) < 2 ^ 1074 := by positivity
  obtain ⟨hbig, hsmall⟩ := two_pow_le_ten_pow
  rw [patternOfDecimal]
  by_cases hzero : n.mantissa = 0
  · rw [if_pos hzero]
    refine ⟨0, closest_zero ?_ ?_, by decide⟩
    · exact mul_nonneg n.size_nonneg hpow.le
    · simp [Numeral.size, hzero]
  rw [if_neg hzero]
  obtain ⟨hge, hlt⟩ := n.size_bounds hn hzero
  by_cases hover : overflowPower < (significant n).length + n.scale
  · rw [if_pos hover]
    obtain ⟨q, hq, -⟩ := roundsTo_ratio hzero
    refine ⟨q, hq, (min_eq_left (not_lt.1 fun hfinite => ?_)).symm⟩
    have hexp : ((310 : Nat) : Int) ≤ (significant n).length + n.scale - 1 := by
      simp only [overflowPower] at hover
      omega
    have hsize : (2 : ℚ) ^ 1024 ≤ n.size := by
      refine hbig.trans (le_trans ?_ hge)
      rw [← zpow_natCast]
      exact zpow_le_zpow_right₀ (by norm_num) hexp
    have hunits : (2 : ℚ) ^ 54 * 2 ^ 2044 ≤ n.size * 2 ^ 1074 := by
      rw [← pow_add, show 54 + 2044 = 1024 + 1074 from rfl, pow_add]
      exact mul_le_mul_of_nonneg_right hsize hpow.le
    have hbound := hq.lt_infinityBits_iff.1 hfinite
    rw [sub_mul, one_mul] at hbound
    exact hbound.not_ge ((sub_le_self _ (by positivity)).trans hunits)
  rw [if_neg hover]
  by_cases hunder : (significant n).length + n.scale < underflowPower
  · rw [if_pos hunder]
    refine ⟨0, closest_zero (mul_nonneg n.size_nonneg hpow.le) ?_, by decide⟩
    have hexp : (significant n).length + n.scale ≤ -((331 : Nat) : Int) := by
      simp only [underflowPower] at hunder
      omega
    have hsize : n.size < (10 ^ 331)⁻¹ := by
      refine hlt.trans_le ?_
      rw [← zpow_natCast, ← zpow_neg]
      exact zpow_le_zpow_right₀ (by norm_num) hexp
    calc n.size * 2 ^ 1074 = n.size * 2 ^ 1075 / 2 := by
          rw [pow_succ 2 1074, ← mul_assoc, mul_div_cancel_right₀ _ two_ne_zero]
      _ < (10 ^ 331)⁻¹ * 10 ^ 331 / 2 := by
          refine div_lt_div_of_pos_right ?_ two_pos
          exact mul_lt_mul'' hsize hsmall n.size_nonneg (by positivity)
      _ = 1 / 2 := by rw [inv_mul_cancel₀ (by positivity)]
  · rw [if_neg hunder]
    exact roundsTo_ratio hzero

/-- Whatever the signs are, a number is no nearer to a numeral than it is on the grid. -/
theorem abs_units_sub_le (x : Binary64) (n : Numeral) :
    |(units x.magnitudeBits : ℚ) - n.size * 2 ^ 1074| / 2 ^ 1074 ≤ |x.value - n.value| := by
  have hpow : (0 : ℚ) < 2 ^ 1074 := by positivity
  have hdist : |(units x.magnitudeBits : ℚ) - n.size * 2 ^ 1074| / 2 ^ 1074 =
      |(|x.value| - |n.value|)| := by
    rw [abs_value, n.abs_value, ← abs_of_pos hpow, ← abs_div, abs_of_pos hpow, sub_div,
      mul_div_cancel_right₀ _ hpow.ne']
  rw [hdist]
  exact abs_abs_sub_abs_le _ _

/-- Of two different numbers of one size only one can be as near to a numeral as the other, unless
the numeral is zero. -/
theorem eq_zero_of_abs_eq {x b v : ℚ} (hsize : |x| = |b|) (hne : x ≠ b)
    (hdist : |x - v| = |b - v|) : v = 0 := by
  have hsq : x ^ 2 = b ^ 2 := by rw [← sq_abs, hsize, sq_abs]
  have hsq' : (x - v) ^ 2 = (b - v) ^ 2 := by rw [← sq_abs, hdist, sq_abs]
  have hmul : (x - b) * v = 0 := by linear_combination (hsq - hsq') / 2
  exact (mul_eq_zero.1 hmul).resolve_left (sub_ne_zero.2 hne)

/-- The number a well-formed numeral gives is the one it is to be read as. -/
theorem rounds_ofNumeral {n : Numeral} (hn : n.WellFormed) : Rounds n (ofNumeral n) := by
  have hpow : (0 : ℚ) < 2 ^ 1074 := by positivity
  obtain ⟨q, hq, hpattern⟩ := roundsTo_patternOfDecimal hn
  have hle : min infinityBits q ≤ infinityBits := min_le_left _ _
  obtain ⟨hbits, hsign⟩ := signed_magnitudeBits (hle.trans_lt (by decide)) n.isNegative
  have hnumber : ofNumeral n = signed n.isNegative (min infinityBits q) := by
    rw [ofNumeral, hpattern]
  rw [← hnumber] at hbits hsign
  -- the bound for finite numbers, in units
  have hbound : q < infinityBits ↔ |n.value| < 2 ^ 1024 - 2 ^ 970 := by
    have hunits : ((2 : ℚ) ^ 54 - 1) * 2 ^ 2044 = (2 ^ 1024 - 2 ^ 970) * 2 ^ 1074 := by
      rw [sub_mul, sub_mul, ← pow_add, ← pow_add, ← pow_add, one_mul]
    rw [hq.lt_infinityBits_iff, hunits, mul_lt_mul_iff_left₀ hpow, n.abs_value]
  have hfinite (hlt : |n.value| < 2 ^ 1024 - 2 ^ 970) : (ofNumeral n).magnitudeBits = q :=
    hbits.trans (min_eq_right (hbound.2 hlt).le)
  have hdist (hlt : |n.value| < 2 ^ 1024 - 2 ^ 970) : |(ofNumeral n).value - n.value| =
      |(units q : ℚ) - n.size * 2 ^ 1074| / 2 ^ 1074 := by
    rw [abs_value_sub hsign, hfinite hlt]
  refine ⟨hsign, not_isNaN_of_le (hbits ▸ hle), fun hge => ?_, fun hlt => ?_, fun hlt x _ => ?_,
    fun hlt x _ hne heq => ?_⟩
  · rw [isInfinite_iff, hbits]
    exact min_eq_left (not_lt.1 (mt hbound.1 (not_lt.2 hge)))
  · rw [isFinite_iff, hfinite hlt]
    exact hbound.2 hlt
  · rw [hdist hlt]
    exact (div_le_div_of_nonneg_right (hq.le _) hpow.le).trans (abs_units_sub_le x n)
  · rw [significand, even_significandOf_iff, hfinite hlt]
    have hsame : |(units x.magnitudeBits : ℚ) - n.size * 2 ^ 1074| =
        |(units q : ℚ) - n.size * 2 ^ 1074| := by
      refine le_antisymm ?_ (hq.le _)
      have hnear := abs_units_sub_le x n
      rwa [heq, hdist hlt, div_le_div_iff_of_pos_right hpow] at hnear
    refine hq.even _ (fun hbits' => ?_) hsame
    -- a number of the same size is the same one, for a numeral that is zero is read as zero
    have hsize : |x.value| = |(ofNumeral n).value| := by
      rw [abs_value, abs_value, hbits', hfinite hlt]
    have hzero : n.value = 0 := eq_zero_of_abs_eq hsize hne heq
    have hread : (ofNumeral n).value = 0 := by
      have hnear := hq.le 0
      rw [← n.abs_value, hzero, abs_zero, zero_mul, sub_zero, sub_zero, abs_of_nonneg
        (Nat.cast_nonneg _), show units 0 = 0 from rfl, Nat.cast_zero, abs_zero] at hnear
      have hq0 : (units q : ℚ) = 0 := le_antisymm hnear (Nat.cast_nonneg _)
      rw [← abs_eq_zero, abs_value, hfinite hlt, hq0, zero_div]
    exact hne (by rw [hread, ← abs_eq_zero, hsize, hread, abs_zero])

/-- Reading is exact for all bytes: no number is read if and only if no numeral stands behind the
leading blanks, and a number is read if and only if the longest numeral there rounds to it. -/
theorem read?_exact (bytes : Bytes) :
    let text := bytes.dropWhile Byte.isBlank
    (read? bytes = none ↔ ∀ n : Numeral, n.WellFormed → ¬n.text <+: text) ∧
      ∀ b, read? bytes = some b ↔ ∃ n : Numeral, n.Leads text ∧ Rounds n b := by
  intro text
  refine ⟨?_, fun b => ⟨fun h => ?_, ?_⟩⟩
  · rw [← Numeral.read?_eq_none_iff, read?, Option.map_eq_none_iff]
  · obtain ⟨n, hn, rfl⟩ := Option.map_eq_some_iff.1 h
    have hleads := Numeral.read?_eq_some_iff.1 hn
    exact ⟨n, hleads, rounds_ofNumeral hleads.wellFormed⟩
  · rintro ⟨n, hn, hb⟩
    rw [read?, Numeral.read?_eq_some_iff.2 hn, Option.map_some,
      (rounds_ofNumeral hn.wellFormed).unique hb]

end Binary64

end SceneTokens
