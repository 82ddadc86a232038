import AddressFormulas.Proofs.Formula.Coefficients
import Mathlib.Data.Rat.Lemmas
import Mathlib.Tactic.FieldSimp

namespace AddressFormulas

namespace Coeff

def toRat (c : Coeff) : ℚ := c.num / c.den

def Fits (q : ℚ) : Prop := Word.fits q.num = true ∧ Word.fits q.den = true

def ofRat? (q : ℚ) : Option Coeff :=
  if Word.fits q.num && Word.fits q.den then some ⟨q.num, q.den⟩ else none

structure Reduced (c : Coeff) : Prop where
  positive : c.den ≠ 0
  lowest : Int.gcd c.num c.den = 1
  num_fits : Word.fits c.num = true
  den_fits : Word.fits c.den = true

instance : DecidablePred Reduced := fun c =>
  decidable_of_iff (c.den ≠ 0 ∧ Int.gcd c.num c.den = 1 ∧ Word.fits c.num = true ∧
    Word.fits c.den = true) ⟨fun ⟨p, l, n, d⟩ => ⟨p, l, n, d⟩, fun ⟨p, l, n, d⟩ => ⟨p, l, n, d⟩⟩

theorem Proper.reduced {c : Coeff} (h : c.Proper) : c.Reduced :=
  ⟨h.positive, h.lowest, h.num_fits, h.den_fits⟩

theorem Reduced.proper {c : Coeff} (h : c.Reduced) (hc : c.isZero = false) : c.Proper := by
  refine ⟨?_, h.positive, h.lowest, h.num_fits, h.den_fits⟩
  simpa [isZero] using hc

instance : DecidablePred Proper := fun c =>
  decidable_of_iff (c.Reduced ∧ c.isZero = false)
    ⟨fun h => h.1.proper h.2, fun h => ⟨h.reduced, h.isZero⟩⟩

section Reduced

variable {a b c : Coeff} {q : ℚ}

theorem Reduced.num_toRat (h : c.Reduced) : c.toRat.num = c.num := by
  have positive : (0 : Int) < c.den := by have := h.positive; omega
  exact Rat.num_div_eq_of_coprime positive h.lowest

theorem Reduced.den_toRat (h : c.Reduced) : c.toRat.den = c.den := by
  have positive : (0 : Int) < c.den := by have := h.positive; omega
  exact Int.ofNat.inj (Rat.den_div_eq_of_coprime positive h.lowest)

theorem reduced_one : Coeff.one.Reduced := by decide

theorem reduced_ofInt {v : Int} (hv : Word.fits v = true) : (ofInt v).Reduced :=
  ⟨one_ne_zero, Int.gcd_one, hv, (by decide : Word.fits 1 = true)⟩

theorem Reduced.fits_toRat (h : c.Reduced) : Fits c.toRat := by
  unfold Fits
  rw [h.num_toRat, h.den_toRat]
  exact ⟨h.num_fits, h.den_fits⟩

theorem Reduced.toRat_inj (ha : a.Reduced) (hb : b.Reduced) (h : a.toRat = b.toRat) : a = b := by
  have num : a.num = b.num := by rw [← ha.num_toRat, h, hb.num_toRat]
  have den : a.den = b.den := by rw [← ha.den_toRat, h, hb.den_toRat]
  cases a
  cases b
  cases num
  cases den
  rfl

theorem Proper.toRat_ne_zero (h : c.Proper) : c.toRat ≠ 0 := by
  intro hzero
  apply h.nonzero
  rw [← h.reduced.num_toRat, hzero]
  rfl

theorem toRat_of_isZero (h : c.isZero = true) : c.toRat = 0 := by
  have num : c.num = 0 := by simpa [isZero] using h
  simp [toRat, num]

theorem toRat_ofInt (v : Int) : (ofInt v).toRat = v := by simp [toRat, ofInt]

theorem fits_zero : Fits 0 := ⟨by decide, by decide⟩

theorem ofRat?_eq_none : ofRat? q = none ↔ ¬Fits q := by simp [ofRat?, Fits]

theorem Reduced.ofRat?_toRat (h : c.Reduced) : ofRat? c.toRat = some c := by
  simp [ofRat?, h.num_toRat, h.den_toRat, h.num_fits, h.den_fits]

theorem toRat_of_ofRat? (h : ofRat? q = some c) : c.toRat = q := by
  simp only [ofRat?, Option.ite_none_right_eq_some, Option.some.injEq] at h
  obtain ⟨_, rfl⟩ := h
  exact q.num_div_den

end Reduced

section Arithmetic

variable {a b c : Coeff}

theorem reduce?_eq_ofRat? (n : Int) {d : Int} (hd : d ≠ 0) : reduce? n d = ofRat? (n / d) := by
  have sign : (if d < 0 then -n else n) = d.sign * n := by
    obtain hneg | hpos := lt_or_gt_of_ne hd
    · simp [hneg, Int.sign_eq_neg_one_of_neg hneg]
    · simp [hpos.not_gt, Int.sign_eq_one_of_pos hpos]
  have num : (n / d : ℚ).num = d.sign * n / Int.gcd d n := by
    rw [← Rat.divInt_eq_div, Rat.num_divInt]
  have den : (n / d : ℚ).den = d.natAbs / Int.gcd d n := by
    rw [← Rat.divInt_eq_div, Rat.den_divInt, if_neg hd]
  unfold reduce? ofRat?
  rw [if_neg hd, num, den, Int.gcd_comm d n, sign]

theorem add?_eq_ofRat? (ha : a.den ≠ 0) (hb : b.den ≠ 0) :
    a.add? b = ofRat? (a.toRat + b.toRat) := by
  have da : (a.den : ℚ) ≠ 0 := Nat.cast_ne_zero.mpr ha
  have db : (b.den : ℚ) ≠ 0 := Nat.cast_ne_zero.mpr hb
  have positive : (a.den * b.den : Int) ≠ 0 := by simp [ha, hb]
  rw [add?, reduce?_eq_ofRat? _ positive]
  congr 1
  push_cast [toRat]
  field_simp

theorem mul?_eq_ofRat? (ha : a.den ≠ 0) (hb : b.den ≠ 0) :
    a.mul? b = ofRat? (a.toRat * b.toRat) := by
  have positive : (a.den * b.den : Int) ≠ 0 := by simp [ha, hb]
  rw [mul?, reduce?_eq_ofRat? _ positive]
  congr 1
  push_cast [toRat]
  rw [div_mul_div_comm]

theorem zero_add? (hc : c.Reduced) : Coeff.zero.add? c = some c := by
  have zero : Coeff.zero.toRat = 0 := toRat_of_isZero rfl
  rw [add?_eq_ofRat? one_ne_zero hc.positive, zero, zero_add, hc.ofRat?_toRat]

theorem neg?_eq_ofRat? (ha : a.Reduced) : a.neg? = ofRat? (-a.toRat) := by
  unfold neg? ofRat?
  rw [Rat.num_neg_eq_neg_num, Rat.den_neg_eq_den, ha.num_toRat, ha.den_toRat, ha.den_fits,
    Bool.and_true]

end Arithmetic

end Coeff

end AddressFormulas
