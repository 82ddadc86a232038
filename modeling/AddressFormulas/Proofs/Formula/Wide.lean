import AddressFormulas.Coefficient.Wide
import AddressFormulas.Proofs.Formula.Fractions

/-!
Coefficient arithmetic is exact and has enough room. Sums and products of fractions of words stay
within 128 bits at every step, Euclid's algorithm comes to an end, and the answer is the fraction in
lowest terms of the exact result, or nothing just if that fraction does not consist of words.
-/

namespace AddressFormulas

namespace Wide

theorem euclid_of_turn {p q : Int × Int} (h : Turn p q) : euclid p.1 p.2 = euclid q.1 q.2 := by
  obtain ⟨nonzero, same, left⟩ := h
  rw [euclid, dif_neg nonzero, same]
  split
  · next broken =>
    rw [left] at broken
    cases broken
  · next r found =>
    rw [left] at found
    cases found
    rfl

/-- No run of the loop goes on for ever, whether or not it is one on numbers of 128 bits. -/
theorem turn_wellFounded : WellFounded fun q p => Turn p q :=
  Subrelation.wf natAbs_lt_of_turn (measure fun p : Int × Int => p.2.natAbs).wf

section Inner

variable {x y : Int}

def Inner (x : Int) : Prop := -half < x ∧ x < half

theorem Inner.fits (h : Inner x) : fits x = true := by
  simp only [Wide.fits, Bool.and_eq_true, decide_eq_true_eq]
  exact ⟨h.1.le, h.2⟩

theorem Inner.neg (h : Inner x) : Inner (-x) := by
  unfold Inner at *
  omega

theorem Inner.of_natAbs_le (h : Inner x) (hle : y.natAbs ≤ x.natAbs) : Inner y := by
  unfold Inner at *
  omega

theorem inner_of_natAbs_lt (h : x.natAbs < 2 ^ 127) : Inner x := by
  unfold Inner half
  omega

theorem Inner.natAbs (h : Inner x) : Inner x.natAbs := h.of_natAbs_le (Int.natAbs_natCast _).le

theorem checked_eq (h : Inner x) : checked x = pure x := if_pos h.fits

theorem add_eq (h : Inner (x + y)) : add x y = pure (x + y) := checked_eq h

theorem mul_eq (h : Inner (x * y)) : mul x y = pure (x * y) := checked_eq h

theorem neg_eq (h : Inner x) : neg x = pure (-x) := checked_eq h.neg

theorem magnitude_eq (h : Inner x) : magnitude x = pure (x.natAbs : Int) := by
  unfold magnitude
  split
  · next negative => rw [neg_eq h, Int.ofNat_natAbs_of_nonpos negative.le]
  · next positive => rw [Int.natAbs_of_nonneg (not_lt.mp positive)]

theorem quotient_eq (h : Inner x) (hy : y ≠ 0) : quotient x y = pure (x.tdiv y) := by
  unfold quotient
  rw [if_neg hy]
  exact checked_eq (h.of_natAbs_le (Int.natAbs_tdiv_le_natAbs x y))

theorem remainder_eq (h : Inner x) (hy : y ≠ 0) : remainder x y = pure (x.tmod y) := by
  unfold remainder
  rw [quotient_eq h hy, pure_bind]

theorem turn_of_inner (h : Inner x) (hy : y ≠ 0) : Turn (x, y) (y, x.tmod y) :=
  ⟨hy, rfl, remainder_eq h hy⟩

theorem euclid_eq {m n : Nat} (hm : Inner m) (hn : Inner n) :
    euclid n m = pure (Nat.gcd m n : Int) := by
  induction m, n using Nat.gcd.induction with
  | H0 n =>
    rw [euclid]
    simp
  | H1 m n positive ih =>
    have nonzero : (m : Int) ≠ 0 := by omega
    have left : Inner (n % m : Nat) := hn.of_natAbs_le (Nat.mod_le n m)
    have turn := turn_of_inner hn nonzero
    rw [← Int.ofNat_tmod] at turn
    rw [euclid_of_turn turn, ih left hm, Nat.gcd_rec m n]

theorem gcd_eq (hx : Inner x) (hy : Inner y) : gcd x y = pure (Int.gcd x y : Int) := by
  unfold gcd
  rw [magnitude_eq hx, magnitude_eq hy, pure_bind, pure_bind, euclid_eq hy.natAbs hx.natAbs,
    Nat.gcd_comm]
  rfl

end Inner

end Wide

namespace Coeff

open Wide

section Steps

variable {num den : Int}

theorem withSign_eq (hnum : Inner num) (hden : Inner den) :
    withSign num den = pure (if den < 0 then -num else num, (den.natAbs : Int)) := by
  unfold withSign
  split
  · next negative =>
    rw [neg_eq hnum, neg_eq hden, pure_bind, pure_bind, Int.ofNat_natAbs_of_nonpos negative.le]
  · next positive =>
    rw [Int.natAbs_of_nonneg (not_lt.mp positive)]

theorem natAbs_signed (num den : Int) : (if den < 0 then -num else num).natAbs = num.natAbs := by
  split
  · exact Int.natAbs_neg num
  · rfl

theorem reduceWide_eq (hnum : Inner num) (hden : Inner den) :
    reduceWide num den = pure (reduce? num den) := by
  unfold reduceWide reduce?
  by_cases zero : den = 0
  · rw [if_pos zero, if_pos zero]
  rw [if_neg zero, if_neg zero, withSign_eq hnum hden, pure_bind]
  have size := natAbs_signed num den
  generalize (if den < 0 then -num else num) = top at size ⊢
  have inner : Inner top := hnum.of_natAbs_le size.le
  have same : Int.gcd top den.natAbs = Int.gcd num den := by
    unfold Int.gcd
    rw [size, Int.natAbs_natCast]
  have positive : 0 < Int.gcd num den := Int.gcd_pos_of_ne_zero_right num zero
  have nonzero : (Int.gcd num den : Int) ≠ 0 := by omega
  have divides : (Int.gcd num den : Int) ∣ top := same ▸ Int.gcd_dvd_left ..
  have greatest : max (Int.gcd num den : Int) 1 = Int.gcd num den := by omega
  have bottom : (den.natAbs : Int).tdiv (Int.gcd num den) = (den.natAbs / Int.gcd num den : Nat) :=
    Int.ofNat_tdiv ..
  dsimp only
  rw [gcd_eq inner hden.natAbs, pure_bind, same, greatest, quotient_eq inner nonzero, pure_bind,
    quotient_eq hden.natAbs nonzero, pure_bind, Int.tdiv_eq_ediv_of_dvd divides, bottom]
  cases Word.fits (top / (Int.gcd num den : Int)) with
  | false => rfl
  | true => cases Word.fits (den.natAbs / Int.gcd num den : Nat) <;> rfl

theorem inner_of_word (h : Word.fits num = true) : Inner num := by
  have := Word.fits_iff.mp h
  unfold Word.half at this
  exact inner_of_natAbs_lt (by omega)

end Steps

section Sizes

variable {a b : Coeff}

theorem Reduced.natAbs_num_le (h : a.Reduced) : a.num.natAbs ≤ 2 ^ 63 := by
  have := Word.fits_iff.mp h.num_fits
  unfold Word.half at this
  omega

theorem Reduced.den_le (h : a.Reduced) : a.den ≤ 2 ^ 63 - 1 := by
  have := Word.fits_iff.mp h.den_fits
  unfold Word.half at this
  omega

theorem natAbs_num_mul_den_le (ha : a.Reduced) (hb : b.Reduced) :
    (a.num * b.den).natAbs ≤ 2 ^ 63 * (2 ^ 63 - 1) := by
  rw [Int.natAbs_mul]
  exact Nat.mul_le_mul ha.natAbs_num_le hb.den_le

theorem natAbs_num_mul_num_le (ha : a.Reduced) (hb : b.Reduced) :
    (a.num * b.num).natAbs ≤ 2 ^ 63 * 2 ^ 63 := by
  rw [Int.natAbs_mul]
  exact Nat.mul_le_mul ha.natAbs_num_le hb.natAbs_num_le

theorem den_mul_den_le (ha : a.Reduced) (hb : b.Reduced) :
    a.den * b.den ≤ (2 ^ 63 - 1) * (2 ^ 63 - 1) :=
  Nat.mul_le_mul ha.den_le hb.den_le

theorem addWide_eq (ha : a.Reduced) (hb : b.Reduced) : a.addWide b = pure (a.add? b) := by
  have left := natAbs_num_mul_den_le ha hb
  have right := natAbs_num_mul_den_le hb ha
  have bottom := den_mul_den_le ha hb
  have hleft : Inner (a.num * b.den) := inner_of_natAbs_lt (by omega)
  have hright : Inner (b.num * a.den) := inner_of_natAbs_lt (by omega)
  have hsum : Inner (a.num * b.den + b.num * a.den) := inner_of_natAbs_lt (by omega)
  have hbottom : Inner (a.den * b.den) := inner_of_natAbs_lt (by omega)
  unfold addWide add?
  rw [mul_eq hleft, pure_bind, mul_eq hright, pure_bind, add_eq hsum, pure_bind,
    mul_eq hbottom, pure_bind, reduceWide_eq hsum hbottom]

theorem mulWide_eq (ha : a.Reduced) (hb : b.Reduced) : a.mulWide b = pure (a.mul? b) := by
  have top := natAbs_num_mul_num_le ha hb
  have bottom := den_mul_den_le ha hb
  have htop : Inner (a.num * b.num) := inner_of_natAbs_lt (by omega)
  have hbottom : Inner (a.den * b.den) := inner_of_natAbs_lt (by omega)
  unfold mulWide mul?
  rw [mul_eq htop, pure_bind, mul_eq hbottom, pure_bind, reduceWide_eq htop hbottom]

end Sizes

section Answers

variable {a b : Coeff} {num den : Int}

/-- `r` is the answer that `q` calls for: its fraction in lowest terms, and none just if that
fraction does not consist of words. -/
structure Represents (r : Option Coeff) (q : ℚ) : Prop where
  isSome_iff : r.isSome = true ↔ Fits q
  lowest : ∀ c, r = some c → c.Reduced ∧ c.toRat = q

theorem reduced_of_ofRat? {q : ℚ} {c : Coeff} (h : ofRat? q = some c) : c.Reduced := by
  simp only [ofRat?, Bool.and_eq_true, Option.ite_none_right_eq_some, Option.some.injEq] at h
  obtain ⟨⟨num, den⟩, rfl⟩ := h
  exact ⟨q.den_nz, q.reduced, num, den⟩

theorem represents_ofRat? (q : ℚ) : Represents (ofRat? q) q where
  isSome_iff := by rw [Option.isSome_iff_ne_none, ne_eq, ofRat?_eq_none, not_not]
  lowest _ hc := ⟨reduced_of_ofRat? hc, toRat_of_ofRat? hc⟩

theorem ne_zero_of_reduce? (h : (reduce? num den).isSome = true) : den ≠ 0 := by
  rintro rfl
  cases h

theorem reduce?_represents (num : Int) (hd : den ≠ 0) : Represents (reduce? num den) (num / den) :=
  reduce?_eq_ofRat? num hd ▸ represents_ofRat? _

/-- What is computed in 128 bits never breaks off and is the fraction in lowest terms of the exact
result, wherever that fraction consists of words. -/
theorem arithmetic_exact (hnum : Word.fits num = true) (hden : Word.fits den = true)
    (ha : a.Reduced) (hb : b.Reduced) :
    ((reduce? num den).isSome = true ↔ den ≠ 0 ∧ Fits (num / den)) ∧
    (∀ c, reduce? num den = some c → c.Reduced ∧ c.toRat = num / den) ∧
    Represents (a.add? b) (a.toRat + b.toRat) ∧ Represents (a.mul? b) (a.toRat * b.toRat) ∧
    Represents a.neg? (-a.toRat) ∧
    reduceWide num den = pure (reduce? num den) ∧ a.addWide b = pure (a.add? b) ∧
    a.mulWide b = pure (a.mul? b) ∧
    (∀ x y, Inner x → Inner y → Wide.gcd x y = pure (Int.gcd x y : Int)) ∧
    WellFounded fun q p => Turn p q := by
  have sum := represents_ofRat? (a.toRat + b.toRat)
  have product := represents_ofRat? (a.toRat * b.toRat)
  have negative := represents_ofRat? (-a.toRat)
  rw [← add?_eq_ofRat? ha.positive hb.positive] at sum
  rw [← mul?_eq_ofRat? ha.positive hb.positive] at product
  rw [← neg?_eq_ofRat? ha] at negative
  refine ⟨⟨fun h => ?_, fun h => ?_⟩, fun c hc => ?_, sum, product, negative,
    reduceWide_eq (inner_of_word hnum) (inner_of_word hden), addWide_eq ha hb, mulWide_eq ha hb,
    fun _ _ => gcd_eq, turn_wellFounded⟩
  · have nonzero := ne_zero_of_reduce? h
    exact ⟨nonzero, (reduce?_represents num nonzero).isSome_iff.mp h⟩
  · exact (reduce?_represents num h.1).isSome_iff.mpr h.2
  · have nonzero := ne_zero_of_reduce? (Option.isSome_of_mem hc)
    exact (reduce?_represents num nonzero).lowest c hc

theorem arithmetic_exact_extremes :
    let low : Int := -Word.half
    let a : Coeff := ⟨low, 0x7fffffffffffffff⟩
    let b : Coeff := ⟨1, 0x7fffffffffffffff⟩
    (Word.fits low = true ∧ a.Reduced ∧ b.Reduced) ∧
    reduceWide low low = pure (some one) ∧ a.addWide b = pure (some (ofInt (-1))) ∧
    a.mulWide b = pure none ∧ a.neg? = none ∧ ¬Fits (-a.toRat) := by
  intro low a b
  have word : Word.fits low = true := by decide
  have ha : a.Reduced := by decide +kernel
  have hb : b.Reduced := by decide +kernel
  obtain ⟨_, _, _, _, negative, reduced, sum, product, _⟩ := arithmetic_exact word word ha hb
  have quotient : reduce? low low = some one := by decide +kernel
  have total : a.add? b = some (ofInt (-1)) := by decide +kernel
  have nothing : a.mul? b = none := by decide +kernel
  refine ⟨⟨word, ha, hb⟩, quotient ▸ reduced, total ▸ sum, nothing ▸ product, rfl, ?_⟩
  rw [← negative.isSome_iff]
  decide

end Answers

end Coeff

end AddressFormulas
