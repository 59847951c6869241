import Mathlib.Algebra.Order.Field.Rat
import Mathlib.Tactic.Linarith
import Mathlib.Tactic.LinearCombination
import Mathlib.Tactic.Positivity
import Mathlib.Tactic.Ring
import SceneTokens.Decimal.Binary64

/-!
# Patterns as points of a grid

The pattern of a binary64 number, its sign left out, counts the numbers from zero on: the next
pattern is the next number. `Binary64.units` says how many times the least positive number
`2 ^ -1074` a pattern stands for. It goes on past the patterns of finite numbers, as if exponents
had no end, and is strictly increasing (`Binary64.units_strictMono`).

Rounding is choosing a point of this grid. `Binary64.Closest` says what that means, for any grid: no
point is nearer, and if another one is as near, the one that is chosen has an even index. Rounding
to a natural number is an instance (`Binary64.closest_nearest`), and from it the rounding to a
pattern follows for the exponent that leaves a significand of 53 bits
(`Binary64.Closest.scaled`, `Binary64.exists_closest_patternOfRatio`). Whether a closest pattern is
that of a finite number is decided at one point halfway between two patterns
(`Binary64.Closest.lt_infinityBits_iff`).
-/

namespace SceneTokens

namespace Binary64

/-! ## The grid -/

/-- The significand of a pattern. The least exponent field has no leading bit. -/
def significandOf (pattern : Nat) : Nat :=
  if pattern / 2 ^ 52 = 0 then pattern % 2 ^ 52 else 2 ^ 52 + pattern % 2 ^ 52

/-- How many times the least positive number a pattern stands for. -/
def units (pattern : Nat) : Nat :=
  significandOf pattern * 2 ^ (pattern / 2 ^ 52 - 1)

/-- A significand and an exponent add up to the pattern of their number, also if the significand is
one too large for its exponent. -/
theorem units_add {k s : Nat} (hs : s ≤ 2 ^ 53) (hk : k = 0 ∨ 2 ^ 52 ≤ s) :
    units (k * 2 ^ 52 + s) = s * 2 ^ k := by
  rcases Nat.lt_or_ge s (2 ^ 52) with hlt | hge
  · obtain rfl : k = 0 := by omega
    have hdiv : (0 * 2 ^ 52 + s) / 2 ^ 52 = 0 := by omega
    have hmod : (0 * 2 ^ 52 + s) % 2 ^ 52 = s := by omega
    rw [units, significandOf, hdiv, hmod, if_pos rfl]
  rcases Nat.lt_or_eq_of_le hs with hlt | rfl
  · have hdiv : (k * 2 ^ 52 + s) / 2 ^ 52 = k + 1 := by omega
    have hmod : (k * 2 ^ 52 + s) % 2 ^ 52 = s - 2 ^ 52 := by omega
    rw [units, significandOf, hdiv, hmod, if_neg (Nat.succ_ne_zero k), Nat.add_sub_cancel,
      Nat.add_sub_cancel' hge]
  · have hdiv : (k * 2 ^ 52 + 2 ^ 53) / 2 ^ 52 = k + 2 := by omega
    have hmod : (k * 2 ^ 52 + 2 ^ 53) % 2 ^ 52 = 0 := by omega
    rw [units, significandOf, hdiv, hmod, if_neg (Nat.succ_ne_zero (k + 1)), Nat.add_zero]
    have hexp : k + 2 - 1 = k + 1 := rfl
    rw [hexp, pow_succ 2 k]
    ring

/-- A pattern is an exponent and a significand, of 53 bits unless the exponent is the least. -/
theorem exists_significand (p : Nat) :
    ∃ k s, p = k * 2 ^ 52 + s ∧ s < 2 ^ 53 ∧ (k = 0 ∨ 2 ^ 52 ≤ s) :=
  ⟨p / 2 ^ 52 - 1, p - (p / 2 ^ 52 - 1) * 2 ^ 52, by omega, by omega, by omega⟩

/-- A larger pattern stands for a larger number, also across exponents. -/
theorem units_strictMono : StrictMono units := by
  refine strictMono_nat_of_lt_succ fun p => ?_
  obtain ⟨k, s, rfl, hs, hk⟩ := exists_significand p
  have hsucc : units (k * 2 ^ 52 + s + 1) = (s + 1) * 2 ^ k := by
    rw [Nat.add_assoc]
    exact units_add (by omega) (by omega)
  rw [units_add (by omega) hk, hsucc]
  exact Nat.mul_lt_mul_of_pos_right (Nat.lt_succ_self s) (Nat.two_pow_pos k)

/-- A pattern stands for a multiple of `2 ^ k`, or for less than any significand of 53 bits does
with that exponent. -/
theorem units_cases (p k : Nat) :
    (∃ j, units p = j * 2 ^ k) ∨ 0 < k ∧ units p < 2 ^ 52 * 2 ^ k := by
  obtain ⟨k', s, rfl, hs, hk⟩ := exists_significand p
  rw [units_add hs.le hk]
  rcases Nat.lt_or_ge k' k with hlt | hge
  · refine Or.inr ⟨by omega, ?_⟩
    calc s * 2 ^ k' < 2 ^ 53 * 2 ^ k' := Nat.mul_lt_mul_of_pos_right hs (Nat.two_pow_pos k')
      _ = 2 ^ 52 * 2 ^ (k' + 1) := by ring
      _ ≤ 2 ^ 52 * 2 ^ k := Nat.mul_le_mul_left _ (Nat.pow_le_pow_right two_pos hlt)
  · refine Or.inl ⟨s * 2 ^ (k' - k), ?_⟩
    rw [Nat.mul_assoc, ← Nat.pow_add, Nat.sub_add_cancel hge]

/-- The last bit of a pattern is the last of its significand, so either tells which is even. -/
theorem even_significandOf_iff (p : Nat) : Even (significandOf p) ↔ Even p := by
  rw [Nat.even_iff, Nat.even_iff]
  unfold significandOf
  split <;> omega

/-! ## Closest points -/

/-- No point of the grid `g` is nearer to `x` than that of index `i`, and if another one is as near,
then `i` is even. -/
structure Closest (g : Nat → ℚ) (x : ℚ) (i : Nat) : Prop where
  le : ∀ j, |g i - x| ≤ |g j - x|
  even : ∀ j, j ≠ i → |g j - x| = |g i - x| → Even i

section Nearest

variable {x : ℚ} {q j : Nat}

theorem abs_sub_of_le (hq : (q : ℚ) ≤ x) (hj : j ≤ q) : |(j : ℚ) - x| = x - j := by
  have hcast : (j : ℚ) ≤ q := Nat.cast_le.2 hj
  rw [abs_sub_comm, abs_of_nonneg (by linarith)]

theorem abs_sub_of_lt (hq : x ≤ q + 1) (hj : q < j) : |(j : ℚ) - x| = j - x := by
  have hcast : (q : ℚ) + 1 ≤ j := by exact_mod_cast hj
  rw [abs_of_nonneg (by linarith)]

/-- A point between two natural numbers is closest to the lower one in the lower half. -/
theorem closest_below (hq : (q : ℚ) ≤ x) (hx : x < q + 1 / 2) :
    Closest (fun j => (j : ℚ)) x q := by
  have hlt (j : Nat) (hj : j ≠ q) : |(q : ℚ) - x| < |(j : ℚ) - x| := by
    rw [abs_sub_of_le hq le_rfl]
    rcases Nat.lt_or_gt_of_ne hj with hj | hj
    · have hcast : (j : ℚ) < q := Nat.cast_lt.2 hj
      rw [abs_sub_of_le hq hj.le]
      linarith
    · have hcast : (q : ℚ) + 1 ≤ j := by exact_mod_cast hj
      rw [abs_sub_of_lt (by linarith) hj]
      linarith
  refine ⟨fun j => ?_, fun j hj heq => absurd heq (hlt j hj).ne'⟩
  rcases eq_or_ne j q with rfl | hj
  · exact le_rfl
  · exact (hlt j hj).le

/-- In the upper half it is closest to the upper one. -/
theorem closest_above (hq : (q : ℚ) + 1 / 2 < x) (hx : x ≤ q + 1) :
    Closest (fun j => (j : ℚ)) x (q + 1) := by
  have hlt (j : Nat) (hj : j ≠ q + 1) : |((q + 1 : Nat) : ℚ) - x| < |(j : ℚ) - x| := by
    rw [abs_sub_of_lt hx (Nat.lt_succ_self q), Nat.cast_succ]
    rcases Nat.lt_or_ge q j with hlt | hge
    · have hcast : ((q + 1 : Nat) : ℚ) < j := by
        exact_mod_cast Nat.lt_of_le_of_ne hlt hj.symm
      rw [abs_sub_of_lt hx hlt]
      push_cast at hcast
      linarith
    · have hcast : (j : ℚ) ≤ q := Nat.cast_le.2 hge
      rw [abs_sub_of_le (by linarith) hge]
      linarith
  refine ⟨fun j => ?_, fun j hj heq => absurd heq (hlt j hj).ne'⟩
  rcases eq_or_ne j (q + 1) with rfl | hj
  · exact le_rfl
  · exact (hlt j hj).le

/-- Halfway it is closest to the even one. -/
theorem closest_halfway {s : Nat} (hx : x = q + 1 / 2) (hs : s = q ∨ s = q + 1)
    (heven : Even s) : Closest (fun j => (j : ℚ)) x s := by
  refine ⟨fun j => ?_, fun _ _ _ => heven⟩
  have hhalf : |(s : ℚ) - x| = 1 / 2 := by
    rcases hs with rfl | rfl
    · rw [abs_sub_of_le (by linarith) le_rfl]
      linarith
    · rw [abs_sub_of_lt (by linarith) (Nat.lt_succ_self q)]
      push_cast
      linarith
  rw [hhalf]
  rcases Nat.lt_or_ge q j with hlt | hge
  · have hcast : (q : ℚ) + 1 ≤ j := by exact_mod_cast hlt
    rw [abs_sub_of_lt (by linarith) hlt]
    linarith
  · have hcast : (j : ℚ) ≤ q := Nat.cast_le.2 hge
    rw [abs_sub_of_le (by linarith) hge]
    linarith

/-- Rounding a ratio to the nearest integer finds the closest one, and the even one of two. -/
theorem closest_nearest (n : Nat) {d : Nat} (hd : 0 < d) :
    Closest (fun j => (j : ℚ)) (n / d) (nearest n d) := by
  have hd' : (0 : ℚ) < d := Nat.cast_pos.2 hd
  have hratio : (n : ℚ) / d = (n / d : Nat) + (n % d : Nat) / d := by
    rw [div_eq_iff hd'.ne', add_mul, div_mul_cancel₀ _ hd'.ne']
    exact_mod_cast (Nat.div_add_mod' n d).symm
  simp only [nearest]
  split_ifs with hlt hgt
  · have hpos : (0 : ℚ) ≤ (n % d : Nat) / d := by positivity
    have hhalf : ((n % d : Nat) : ℚ) / d < 1 / 2 := by
      rw [div_lt_iff₀ hd']
      have hcast : ((2 * (n % d) : Nat) : ℚ) < d := Nat.cast_lt.2 hlt
      push_cast at hcast ⊢
      linarith
    exact closest_below (by linarith) (by linarith)
  · have hone : ((n % d : Nat) : ℚ) / d < 1 := by
      rw [div_lt_one hd']
      exact_mod_cast Nat.mod_lt n hd
    have hhalf : (1 : ℚ) / 2 < (n % d : Nat) / d := by
      rw [lt_div_iff₀ hd']
      have hcast : (d : ℚ) < (2 * (n % d) : Nat) := Nat.cast_lt.2 hgt
      push_cast at hcast ⊢
      linarith
    exact closest_above (by linarith) (by linarith)
  · have hhalf : ((n % d : Nat) : ℚ) / d = 1 / 2 := by
      have htwice : (2 : ℚ) * (n % d : Nat) = d := by
        exact_mod_cast (by omega : 2 * (n % d) = d)
      rw [div_eq_iff hd'.ne']
      linarith
    have heven : Even (n / d + n / d % 2) := by
      rw [Nat.even_iff]
      omega
    exact closest_halfway (hratio.trans (by rw [hhalf])) (by omega) heven

end Nearest

/-! ## From significands to patterns -/

/-- Rounding does not lead past an integer above. -/
theorem Closest.le_of_le {x : ℚ} {s j : Nat} (hs : Closest (fun j => (j : ℚ)) x s)
    (hj : x ≤ j) : s ≤ j := by
  have hle := (le_abs_self _).trans (hs.le j)
  rw [abs_of_nonneg (by linarith)] at hle
  exact Nat.cast_le.1 (by linarith : (s : ℚ) ≤ j)

theorem Closest.ge_of_ge {x : ℚ} {s j : Nat} (hs : Closest (fun j => (j : ℚ)) x s)
    (hj : (j : ℚ) ≤ x) : j ≤ s := by
  have hle := (neg_le_abs _).trans (hs.le j)
  rw [abs_of_nonpos (by linarith)] at hle
  exact Nat.cast_le.1 (by linarith : (j : ℚ) ≤ s)

/-- A significand that is closest for its exponent gives the closest pattern, if it has all 53 bits
or its exponent is the least. -/
theorem Closest.scaled {x : ℚ} {k s : Nat} (hs : Closest (fun j => (j : ℚ)) (x / 2 ^ k) s)
    (hlt : x < 2 ^ 53 * 2 ^ k) (hk : k = 0 ∨ 2 ^ 52 * 2 ^ k ≤ x) :
    Closest (fun p => (units p : ℚ)) x (k * 2 ^ 52 + s) := by
  have hpow : (0 : ℚ) < 2 ^ k := by positivity
  have hs53 : s ≤ 2 ^ 53 := hs.le_of_le (by push_cast; exact ((div_lt_iff₀ hpow).2 hlt).le)
  have hs52 : k = 0 ∨ 2 ^ 52 ≤ s :=
    hk.imp_right fun hle => hs.ge_of_ge (by push_cast; exact (le_div_iff₀ hpow).2 hle)
  have hunits : units (k * 2 ^ 52 + s) = s * 2 ^ k := units_add hs53 hs52
  have hscale (j : Nat) : |((j * 2 ^ k : Nat) : ℚ) - x| = 2 ^ k * |(j : ℚ) - x / 2 ^ k| := by
    rw [← abs_of_pos hpow, ← abs_mul, abs_of_pos hpow, mul_sub, mul_div_cancel₀ _ hpow.ne']
    push_cast
    rw [mul_comm]
  have hle (j : Nat) : |((s * 2 ^ k : Nat) : ℚ) - x| ≤ |((j * 2 ^ k : Nat) : ℚ) - x| := by
    rw [hscale, hscale]
    exact mul_le_mul_of_nonneg_left (hs.le j) hpow.le
  -- below the significands of 53 bits all is farther away than the least of them
  have hlow {u : Nat} (hpos : 0 < k) (hu : u < 2 ^ 52 * 2 ^ k) :
      |((s * 2 ^ k : Nat) : ℚ) - x| < |(u : ℚ) - x| := by
    have hx : ((2 ^ 52 * 2 ^ k : Nat) : ℚ) ≤ x := by
      push_cast
      exact hk.resolve_left (by omega)
    have hcast : (u : ℚ) < (2 ^ 52 * 2 ^ k : Nat) := Nat.cast_lt.2 hu
    refine (hle (2 ^ 52)).trans_lt ?_
    rw [abs_sub_comm, abs_of_nonneg (sub_nonneg.2 hx), abs_sub_comm, abs_of_nonneg (by linarith)]
    linarith
  refine ⟨fun p => ?_, fun p hp heq => ?_⟩
  · rw [hunits]
    rcases units_cases p k with ⟨j, hj⟩ | ⟨hpos, hu⟩
    · rw [hj]
      exact hle j
    · exact (hlow hpos hu).le
  · rw [hunits] at heq
    rcases units_cases p k with ⟨j, hj⟩ | ⟨hpos, hu⟩
    · have hne : j ≠ s := by
        rintro rfl
        exact hp (units_strictMono.injective (hj.trans hunits.symm))
      rw [hj, hscale, hscale] at heq
      have heven := hs.even j hne (mul_left_cancel₀ hpow.ne' heq)
      rw [Nat.even_iff] at heven ⊢
      omega
    · exact absurd heq (hlow hpos hu).ne'

/-! ## Overflow -/

/-- The pattern of infinity would be that of `2 ^ 1024`, and the one before it is that of the
largest finite number. -/
theorem units_infinityBits : units infinityBits = 2 ^ 54 * 2 ^ 2044 ∧
    units (infinityBits - 1) = (2 ^ 54 - 2) * 2 ^ 2044 := by
  have hinf : infinityBits = 2046 * 2 ^ 52 + 2 ^ 52 := by decide
  have hmax : infinityBits - 1 = 2045 * 2 ^ 52 + (2 ^ 53 - 1) := by decide
  rw [hmax, hinf, units_add (by decide) (by decide), units_add (by decide) (by decide)]
  constructor
  · rw [← pow_add, ← pow_add]
  · rw [pow_succ 2 2044]
    generalize 2 ^ 2044 = m
    omega

/-- A point rounds to a finite number exactly below the middle between the largest one and
`2 ^ 1024`. In the middle the pattern of infinity is the even one. -/
theorem Closest.lt_infinityBits_iff {x : ℚ} {p : Nat} (hp : Closest (fun p => (units p : ℚ)) x p) :
    p < infinityBits ↔ x < (2 ^ 54 - 1) * 2 ^ 2044 := by
  obtain ⟨hinf, hmax⟩ := units_infinityBits
  have hpow : (0 : ℚ) < 2 ^ 2044 := by positivity
  have hinf' : (units infinityBits : ℚ) = 2 ^ 54 * 2 ^ 2044 := by
    rw [hinf, Nat.cast_mul, Nat.cast_pow, Nat.cast_pow, Nat.cast_ofNat]
  have hmax' : (units (infinityBits - 1) : ℚ) = (2 ^ 54 - 2) * 2 ^ 2044 := by
    rw [hmax, Nat.cast_mul, Nat.cast_pow, Nat.cast_ofNat]
    norm_num only
  generalize (2 : ℚ) ^ 2044 = m at *
  have hle := hp.le infinityBits
  have hle' := hp.le (infinityBits - 1)
  rw [hinf'] at hle
  rw [hmax'] at hle'
  constructor
  · intro hlt
    by_contra hx
    have hbelow : (units p : ℚ) ≤ (2 ^ 54 - 2) * m := by
      rw [← hmax', Nat.cast_le]
      exact units_strictMono.monotone (by omega)
    rw [abs_of_nonpos (by linarith)] at hle hle'
    rw [abs_of_nonpos (by linarith : (2 ^ 54 - 2) * m - x ≤ 0)] at hle'
    -- only the pattern of the largest finite number is left, and only in the middle
    have hlast : (units p : ℚ) = units (infinityBits - 1) := by linarith
    obtain rfl : p = infinityBits - 1 := units_strictMono.injective (Nat.cast_injective hlast)
    have hmiddle : x = (2 ^ 54 - 1) * m := by
      rcases abs_cases (2 ^ 54 * m - x) with ⟨habs, -⟩ | ⟨habs, -⟩
      · rw [habs] at hle
        linarith
      · rw [habs] at hle
        linarith
    have heven : Even (infinityBits - 1) := by
      refine hp.even infinityBits (by decide) ?_
      rw [hinf', hmax', hmiddle, abs_of_nonneg (by linarith), abs_of_nonpos (by linarith)]
      linarith
    exact absurd heven (by decide)
  · intro hx
    by_contra hge
    have habove : 2 ^ 54 * m ≤ (units p : ℚ) := by
      rw [← hinf', Nat.cast_le]
      exact units_strictMono.monotone (by omega)
    rw [abs_of_nonneg (by linarith)] at hle'
    rcases abs_cases ((2 ^ 54 - 2) * m - x) with ⟨habs, -⟩ | ⟨habs, -⟩
    · rw [habs] at hle'
      linarith
    · rw [habs] at hle'
      linarith

/-! ## Ratios -/

theorem downscale_pos {d : Nat} (hd : 0 < d) (n : Nat) (q : Int) : 0 < (downscale n d q).2 := by
  unfold downscale
  split
  · rw [Nat.shiftLeft_eq]
    positivity
  · exact hd

/-- Scaling divides the ratio by the power of two, whether by a larger denominator or by a larger
numerator. -/
theorem downscale_ratio (n d : Nat) (q : Int) :
    ((downscale n d q).1 : ℚ) / (downscale n d q).2 = n / d / 2 ^ q := by
  unfold downscale
  split
  · rename_i hq
    obtain ⟨k, rfl⟩ := Int.eq_ofNat_of_zero_le hq
    rw [Int.toNat_natCast, Nat.shiftLeft_eq, zpow_natCast, div_div]
    push_cast
    rfl
  · rename_i hq
    obtain ⟨k, hk⟩ := Int.eq_ofNat_of_zero_le (by omega : 0 ≤ -q)
    obtain rfl : q = -(k : Int) := by omega
    rw [Int.neg_neg, Int.toNat_natCast, Nat.shiftLeft_eq, zpow_neg, zpow_natCast, div_inv_eq_mul]
    push_cast
    ring

theorem lt_mul_two_zpow (n d : Nat) (hd : 0 < d) :
    (n : ℚ) < 2 ^ ((n.log2 : Int) - d.log2 + 1) * d := by
  have hn : (n : ℚ) < 2 ^ (n.log2 + 1) := by exact_mod_cast Nat.lt_log2_self
  have hle : (2 : ℚ) ^ d.log2 ≤ d := by exact_mod_cast Nat.log2_self_le hd.ne'
  calc (n : ℚ) < 2 ^ (n.log2 + 1) := hn
    _ = 2 ^ ((n.log2 : Int) - d.log2 + 1) * 2 ^ d.log2 := by
      rw [← zpow_natCast, ← zpow_natCast, ← zpow_add₀ two_ne_zero]
      congr 1
      push_cast
      ring
    _ ≤ 2 ^ ((n.log2 : Int) - d.log2 + 1) * d :=
      mul_le_mul_of_nonneg_left hle (zpow_pos two_pos _).le

/-- A ratio lies between the power of two that is its magnitude and the next one. -/
theorem magnitude_spec {n d : Nat} (hn : 0 < n) (hd : 0 < d) :
    (2 : ℚ) ^ magnitude n d ≤ n / d ∧ (n : ℚ) / d < 2 ^ (magnitude n d + 1) := by
  have hn' : (0 : ℚ) < n := Nat.cast_pos.2 hn
  have hd' : (0 : ℚ) < d := Nat.cast_pos.2 hd
  have habove : (n : ℚ) / d < 2 ^ ((n.log2 : Int) - d.log2 + 1) :=
    (div_lt_iff₀ hd').2 (lt_mul_two_zpow n d hd)
  have hbelow : (2 : ℚ) ^ ((n.log2 : Int) - d.log2 - 1) ≤ n / d := by
    have hflip : -((d.log2 : Int) - n.log2 + 1) = n.log2 - d.log2 - 1 := by ring
    rw [← hflip, zpow_neg, inv_le_comm₀ (zpow_pos two_pos _) (by positivity), inv_div]
    exact ((div_lt_iff₀ hn').2 (lt_mul_two_zpow d n hn)).le
  have htest (q : Int) : (downscale n d q).2 ≤ (downscale n d q).1 ↔ (2 : ℚ) ^ q ≤ n / d := by
    have hpos : (0 : ℚ) < (downscale n d q).2 := Nat.cast_pos.2 (downscale_pos hd n q)
    rw [← Nat.cast_le (α := ℚ), ← one_le_div hpos, downscale_ratio, one_le_div (zpow_pos two_pos q)]
  simp only [magnitude]
  split_ifs with hle
  · exact ⟨(htest _).1 hle, habove⟩
  · refine ⟨hbelow, ?_⟩
    rw [Int.sub_add_cancel]
    exact not_le.1 (mt (htest _).2 hle)

/-- The closest pattern of a ratio, before those past the finite numbers are taken for infinity. -/
theorem exists_closest_patternOfRatio {n d : Nat} (hn : 0 < n) (hd : 0 < d) :
    ∃ p, Closest (fun p => (units p : ℚ)) (n / d * 2 ^ 1074) p ∧
      patternOfRatio n d = min infinityBits p := by
  obtain ⟨hlow, hhigh⟩ := magnitude_spec hn hd
  have hunit : unit n d = max (magnitude n d - 52) (-1074) := rfl
  obtain ⟨k, hk⟩ := Int.eq_ofNat_of_zero_le (by omega : 0 ≤ unit n d + 1074)
  have hpow : (0 : ℚ) < 2 ^ 1074 := by positivity
  -- a power of two times the least positive number, in units
  have hshift (j : Nat) : (2 : ℚ) ^ (unit n d + j) * 2 ^ 1074 = 2 ^ j * 2 ^ k := by
    have hsum : unit n d + j + (1074 : Nat) = (j + k : Nat) := by omega
    rw [← zpow_natCast 2 1074, ← zpow_add₀ two_ne_zero, hsum, zpow_natCast, pow_add]
  have hratio : (n : ℚ) / d * 2 ^ 1074 / 2 ^ k = n / d / 2 ^ unit n d := by
    have hzero := hshift 0
    rw [Nat.cast_zero, add_zero, pow_zero, one_mul] at hzero
    rw [← hzero, mul_div_mul_right _ _ hpow.ne']
  refine ⟨k * 2 ^ 52 + nearest (downscale n d (unit n d)).1 (downscale n d (unit n d)).2,
    Closest.scaled ?_ ?_ ?_, ?_⟩
  · rw [hratio, ← downscale_ratio]
    exact closest_nearest _ (downscale_pos hd n _)
  · rw [← hshift 53]
    refine mul_lt_mul_of_pos_right (hhigh.trans_le ?_) hpow
    exact zpow_le_zpow_right₀ one_le_two (by push_cast; omega)
  · rcases eq_or_ne k 0 with hzero | hne
    · exact Or.inl hzero
    · rw [← hshift 52]
      refine Or.inr (mul_le_mul_of_nonneg_right (le_trans ?_ hlow) hpow.le)
      exact zpow_le_zpow_right₀ one_le_two (by push_cast; omega)
  · have htoNat : (unit n d - leastUnit).toNat = k := by
      simp only [leastUnit]
      omega
    simp only [patternOfRatio, htoNat, Nat.shiftLeft_eq]

end Binary64

end SceneTokens
