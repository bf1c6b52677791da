import Mathlib.Algebra.Order.Field.Rat
import Mathlib.Algebra.Order.Field.Power
import Mathlib.Tactic.Positivity
import Mathlib.Tactic.Linarith
import MiniGoc.Proofs.Numerals

/-!
# Normal forms of numbers

The literals of a source are read as numbers in normal form (`Numeral.normal_of_spells`): the
exponent that `exponentFor` guesses leaves a mantissa of 53 bits, or is the least one.  Two numbers
in normal form that compare as equal are the same number (`Binary64.Normal.same_iff`).
-/

namespace MiniGoc

namespace Binary64

/-- A number without a sign, in normal form if it is finite. -/
inductive Normal : Binary64 → Prop where
  | infinite : Normal (.infinite false)
  | finite {m : Nat} {e : Int} : m < 2 * leastFull → minExponent ≤ e →
      (leastFull ≤ m ∨ e = minExponent) → Normal (.finite false m e)

variable {m n c num den : Nat} {e f : Int}

theorem leastFull_pos : 0 < leastFull := Nat.pow_pos (by decide)

theorem powUp_pos (e : Int) : 0 < powUp 2 e := Nat.pow_pos (by decide)

theorem powDown_pos (e : Int) : 0 < powDown 2 e := Nat.pow_pos (by decide)

/-! ## Rounding -/

theorem powUp_eq (e : Int) : (powUp 2 e : ℚ) = 2 ^ e * powDown 2 e := by
  have hsum : (e.toNat : Int) = e + (-e).toNat := by omega
  simp only [powUp, powDown, Nat.pow_eq, Nat.cast_pow, Nat.cast_ofNat]
  rw [← zpow_natCast, ← zpow_natCast, ← zpow_add₀ two_ne_zero, hsum]

theorem scaled_lt :
    num * powDown 2 e < c * (den * powUp 2 e) ↔ (num : ℚ) < c * den * 2 ^ e := by
  have hpos : (0 : ℚ) < powDown 2 e := by exact_mod_cast powDown_pos e
  rw [← mul_lt_mul_iff_left₀ hpos, ← @Nat.cast_lt ℚ]
  push_cast
  rw [powUp_eq, mul_assoc, mul_assoc]

theorem log2_bounds (hn : n ≠ 0) :
    (2 : ℚ) ^ (Nat.log2 n : Int) ≤ n ∧ (n : ℚ) < 2 ^ ((Nat.log2 n : Int) + 1) := by
  constructor
  · rw [zpow_natCast]
    exact_mod_cast Nat.log2_self_le hn
  · rw [← Nat.cast_succ, zpow_natCast]
    exact_mod_cast Nat.lt_log2_self

theorem exponentFor_spec (hnum : num ≠ 0) (hden : den ≠ 0) :
    minExponent ≤ exponentFor num den ∧
      (num : ℚ) < (2 * leastFull : Nat) * den * 2 ^ exponentFor num den ∧
      (exponentFor num den = minExponent ∨
        ¬ (num : ℚ) < leastFull * den * 2 ^ exponentFor num den) := by
  obtain ⟨hn, hn'⟩ := log2_bounds hnum
  obtain ⟨hd, hd'⟩ := log2_bounds hden
  have hfull : (leastFull : ℚ) = 2 ^ (52 : Int) := by norm_num [leastFull]
  -- The quotient at the guess is between half a full mantissa and twice one.
  have hguess : ∀ g : Int, g = (Nat.log2 num : Int) - Nat.log2 den - 52 →
      (num : ℚ) < (2 * leastFull : Nat) * den * 2 ^ g ∧
        (leastFull : ℚ) * den * 2 ^ (g - 1) ≤ num := by
    rintro g rfl
    constructor
    · calc (num : ℚ) < 2 ^ ((Nat.log2 num : Int) + 1) := hn'
        _ = 2 * 2 ^ (52 : Int) * 2 ^ (Nat.log2 den : Int) *
            2 ^ ((Nat.log2 num : Int) - Nat.log2 den - 52) := by
          rw [mul_assoc, mul_assoc, ← zpow_add₀ two_ne_zero, ← zpow_add₀ two_ne_zero,
            ← zpow_one_add₀ two_ne_zero]
          congr 1
          omega
        _ ≤ _ := by
          rw [Nat.cast_mul, Nat.cast_ofNat, hfull]
          gcongr
    · calc (leastFull : ℚ) * den * 2 ^ ((Nat.log2 num : Int) - Nat.log2 den - 52 - 1)
          ≤ 2 ^ (52 : Int) * 2 ^ ((Nat.log2 den : Int) + 1) *
            2 ^ ((Nat.log2 num : Int) - Nat.log2 den - 52 - 1) := by
            rw [hfull]
            gcongr
        _ = 2 ^ (Nat.log2 num : Int) := by
          rw [mul_assoc, ← zpow_add₀ two_ne_zero, ← zpow_add₀ two_ne_zero]
          congr 1
          omega
        _ ≤ num := hn
  unfold exponentFor
  simp only [scaled_lt]
  generalize hg : (Nat.log2 num : Int) - Nat.log2 den - 52 = g
  obtain ⟨hlt, hle⟩ := hguess g hg.symm
  have hfits : ∀ e, e = (if (num : ℚ) < leastFull * den * 2 ^ g then g - 1 else g) →
      (num : ℚ) < (2 * leastFull : Nat) * den * 2 ^ e ∧ ¬ (num : ℚ) < leastFull * den * 2 ^ e := by
    rintro e rfl
    split
    · next hsmall =>
      refine ⟨?_, hle.not_gt⟩
      rw [zpow_sub_one₀ two_ne_zero]
      push_cast
      linarith
    · next hsmall => exact ⟨hlt, hsmall⟩
  generalize (if (num : ℚ) < leastFull * den * 2 ^ g then g - 1 else g) = e at hfits ⊢
  obtain ⟨hlt, hge⟩ := hfits e rfl
  split
  · next hmin =>
    refine ⟨le_rfl, hlt.trans_le ?_, .inl rfl⟩
    gcongr
    norm_num
  · next hmin => exact ⟨Int.not_lt.1 hmin, hlt, .inr hge⟩

theorem nearest_le (h : num < c * den) : nearest num den ≤ c := by
  have hq : num / den < c := Nat.div_lt_of_lt_mul (by rwa [Nat.mul_comm])
  unfold nearest
  simp only
  split_ifs <;> omega

theorem le_nearest (hden : 0 < den) (h : c * den ≤ num) : c ≤ nearest num den := by
  have hq : c ≤ num / den := (Nat.le_div_iff_mul_le hden).2 h
  unfold nearest
  simp only
  split_ifs <;> omega

theorem normal_round (hden : den ≠ 0) : (round false num den).Normal := by
  unfold round
  split
  · exact .finite (by decide) le_rfl (.inr rfl)
  · next hnum =>
    obtain ⟨hmin, hlt, hfull⟩ := exponentFor_spec hnum hden
    simp only
    generalize exponentFor num den = e at *
    have hpos : 0 < den * powUp 2 e := Nat.mul_pos (Nat.pos_of_ne_zero hden) (powUp_pos e)
    have hle := nearest_le (scaled_lt.2 hlt)
    have hge : leastFull ≤ nearest (num * powDown 2 e) (den * powUp 2 e) ∨ e = minExponent :=
      hfull.symm.imp_left fun h => le_nearest hpos (Nat.not_lt.1 (mt scaled_lt.1 h))
    generalize nearest (num * powDown 2 e) (den * powUp 2 e) = m at *
    have := leastFull_pos
    split <;> split
    · exact .infinite
    · exact .finite (by omega) (by omega) (.inl le_rfl)
    · exact .infinite
    · exact .finite (by omega) hmin hge

theorem normal_ofDecimal (digits : Nat) (e : Int) : (ofDecimal false digits e).Normal := by
  unfold ofDecimal
  simp only
  split
  · exact .finite (by decide) le_rfl (.inr rfl)
  · split
    · exact .infinite
    · exact normal_round (Nat.pow_pos (by decide)).ne'

/-! ## Comparison -/

/-- A number with the greater exponent has the greater value. -/
theorem lt_of_exponent_lt (hm : m < 2 * leastFull) (hn : leastFull ≤ n) (h : e < f) :
    m * powUp 2 e * powDown 2 f < n * powUp 2 f * powDown 2 e := by
  have hexp : f.toNat + (-e).toNat = (f - e).toNat + (e.toNat + (-f).toNat) := by omega
  have htwo : 2 ≤ 2 ^ (f - e).toNat := Nat.le_self_pow (by omega) 2
  have hpos := Nat.mul_pos (powUp_pos e) (powDown_pos f)
  calc m * powUp 2 e * powDown 2 f
      = m * (powUp 2 e * powDown 2 f) := Nat.mul_assoc ..
    _ < n * 2 ^ (f - e).toNat * (powUp 2 e * powDown 2 f) := by
      refine Nat.mul_lt_mul_of_pos_right (lt_of_lt_of_le hm ?_) hpos
      rw [Nat.mul_comm]
      exact Nat.mul_le_mul hn htwo
    _ = n * powUp 2 f * powDown 2 e := by
      simp only [powUp, powDown, Nat.pow_eq, Nat.mul_assoc, ← Nat.pow_add, hexp]

theorem Normal.same_iff {x y : Binary64} (hx : x.Normal) (hy : y.Normal) :
    x.same y = true ↔ x = y := by
  cases hx with
  | infinite => cases hy <;> simp [same]
  | @finite m e hm he hfull =>
    cases hy with
    | infinite => simp [same]
    | @finite n f hn hf hfull' =>
      have := leastFull_pos
      have hne : e ≠ f → m * powUp 2 e * powDown 2 f ≠ n * powUp 2 f * powDown 2 e := by
        intro h
        obtain h | h := lt_or_gt_of_ne h
        · exact (lt_of_exponent_lt hm (hfull'.resolve_right (by omega)) h).ne
        · exact (lt_of_exponent_lt hn (hfull.resolve_right (by omega)) h).ne'
      have hsame : same (.finite false m e) (.finite false n f) =
          (m * powUp 2 e * powDown 2 f == n * powUp 2 f * powDown 2 e) := by
        cases m <;> cases n <;> simp [same]
      rw [hsame, beq_iff_eq]
      constructor
      · intro h
        obtain rfl : e = f := not_not.1 fun hef => hne hef h
        simp only [Nat.mul_assoc] at h
        rw [Nat.eq_of_mul_eq_mul_right (Nat.mul_pos (powUp_pos e) (powDown_pos e)) h]
      · rintro ⟨⟩
        rfl

end Binary64

namespace Numeral

open MiniGoc.Text

/-- A literal is read as a number in normal form. -/
theorem normal_of_spells {s : String} {x : Binary64} (h : TokenKind.floatLit.Spells s.toList)
    (hx : readFloat? s = some x) : x.Normal := by
  obtain ⟨v, e, hread⟩ := readFloat?_of_spells h
  obtain rfl := Option.some.inj (hread.symm.trans hx)
  exact Binary64.normal_ofDecimal v e

end Numeral

end MiniGoc
