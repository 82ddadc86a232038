import AddressFormulas.Proofs.Formula.Exactness
import AddressFormulas.Walk.Engine

/-!
When the difference of two formulas is the constant zero. Well-formed formulas are canonical: equal
rational coefficients mean equal terms. So the difference is zero exactly for formulas with the same
terms, except that the subtrahend has to be negated first, which the lowest word does not survive.
-/

namespace AddressFormulas

namespace Coeff

variable {c : Coeff}

theorem fits_neg_iff (hc : c.Reduced) : Fits (-c.toRat) ↔ c.num ≠ -Word.half := by
  unfold Fits
  rw [Rat.num_neg_eq_neg_num, Rat.den_neg_eq_den, hc.num_toRat, hc.den_toRat,
    and_iff_left hc.den_fits, Word.fits_iff]
  have fits := Word.fits_iff.mp hc.num_fits
  unfold Word.half at fits ⊢
  omega

end Coeff

namespace Formula

open Coeff

variable {f g : Formula} {k : TermKey}

theorem WellFormed.coeffAt_eq_of_coefficient (hf : f.WellFormed) (hg : g.WellFormed)
    (h : f.coefficient k = g.coefficient k) : f.coeffAt k = g.coeffAt k := by
  cases hc : g.coeffAt k with
  | none => rwa [← hf.coefficient_eq_zero_iff, h, hg.coefficient_eq_zero_iff]
  | some c =>
    cases ha : f.coeffAt k with
    | none =>
      have gone := hg.coefficient_eq_zero_iff.mp (h ▸ hf.coefficient_eq_zero_iff.mpr ha)
      rw [hc] at gone
      cases gone
    | some a =>
      unfold coefficient at h
      rw [ha, hc] at h
      rw [(hf.proper_at ha).reduced.toRat_inj (hg.proper_at hc).reduced h]

theorem sameTerms_iff_coefficient (hf : f.WellFormed) (hg : g.WellFormed) :
    f.sameTerms g = true ↔ ∀ k, f.coefficient k = g.coefficient k := by
  rw [sameTerms_iff hf.ordered hg.ordered]
  constructor
  · intro h k
    unfold coefficient
    rw [h]
  · intro h k
    exact hf.coeffAt_eq_of_coefficient hg (h k)

theorem isConstantValue_zero_iff (hf : f.WellFormed) :
    f.isConstantValue 0 = true ↔ f.overflow = false ∧ ∀ k, f.coefficient k = 0 := by
  have value : f.isConstantValue 0 = true ↔ f.constantValue? = some .zero := decide_eq_true_iff
  have zero : Coeff.zero.toRat = 0 := toRat_of_isZero rfl
  rw [value, constantValue?_eq_some_iff hf, zero]
  refine and_congr_right fun _ => ?_
  constructor
  · rintro ⟨known, _, constant⟩ k
    cases k with
    | constant => exact constant.symm
    | _ => exact known _ rfl
  · intro h
    exact ⟨fun k _ => h k, by decide, (h _).symm⟩

theorem overflow_neg_eq_false_iff (hg : g.WellFormed) : (-g).overflow = false ↔
    g.overflow = false ∧ ∀ e ∈ g.terms.entries, e.2.coeff.num ≠ -Word.half := by
  rw [← Bool.not_eq_true, overflow_neg_iff hg, not_or, Bool.not_eq_true]
  refine and_congr_right fun _ => ?_
  rw [not_exists]
  constructor
  · intro h e he
    have present := (coeffAt_mem hg.ordered).mpr ⟨e.2, he, rfl⟩
    have fits := not_not.mp (h e.1)
    unfold coefficient at fits
    rw [present] at fits
    exact (fits_neg_iff (hg.proper e he).reduced).mp fits
  · intro h k
    rw [not_not]
    unfold coefficient
    cases hc : g.coeffAt k with
    | none => simpa using fits_zero
    | some c =>
      obtain ⟨t, ht, rfl⟩ := (coeffAt_mem hg.ordered).mp hc
      exact (fits_neg_iff (hg.proper _ ht).reduced).mpr (h _ ht)

theorem coefficient_neg (hg : g.WellFormed) (ho : (-g).overflow = false) :
    (-g).coefficient k = -g.coefficient k := by
  rw [← neg_one_mul]
  exact coefficient_mapCoeffs multiplies_neg hg ho

theorem coefficient_sub (hf : f.WellFormed) (hg : g.WellFormed) (ho : (f - g).overflow = false) :
    (f - g).coefficient k = f.coefficient k - g.coefficient k := by
  have sum : (f - g).coefficient k = f.coefficient k + (-g).coefficient k :=
    coefficient_add hf hg.neg ho
  rw [sum, coefficient_neg hg (overflow_of_sub ho).2, sub_eq_add_neg]

theorem sub_isConstantValue_zero_iff (hf : f.WellFormed) (hg : g.WellFormed) :
    (f - g).isConstantValue 0 = true ↔ f.overflow = false ∧ g.overflow = false ∧
      f.sameTerms g = true ∧ ∀ e ∈ g.terms.entries, e.2.coeff.num ≠ -Word.half := by
  rw [isConstantValue_zero_iff (hf.sub hg), sameTerms_iff_coefficient hf hg]
  constructor
  · rintro ⟨settled, zero⟩
    obtain ⟨hof, hon⟩ := overflow_of_sub settled
    obtain ⟨hog, low⟩ := (overflow_neg_eq_false_iff hg).mp hon
    refine ⟨hof, hog, fun k => ?_, low⟩
    rw [← sub_eq_zero, ← coefficient_sub hf hg settled, zero]
  · rintro ⟨hof, hog, same, low⟩
    have hon := (overflow_neg_eq_false_iff hg).mpr ⟨hog, low⟩
    have settled : (f - g).overflow = false := by
      rw [← Bool.not_eq_true]
      intro flagged
      obtain h | h | ⟨k, large⟩ := (overflow_add_iff hf hg.neg).mp flagged
      · simp [hof] at h
      · simp [hon] at h
      · rw [coefficient_neg hg hon, same, add_neg_cancel] at large
        exact large fits_zero
    refine ⟨settled, fun k => ?_⟩
    rw [coefficient_sub hf hg settled, same, sub_self]

theorem sub_isConstantValue_zero_comm (hf : f.WellFormed) (hg : g.WellFormed) :
    (f - g).isConstantValue 0 = (g - f).isConstantValue 0 := by
  have swap : ∀ {f g : Formula}, f.WellFormed → g.WellFormed → (f - g).isConstantValue 0 = true →
      (g - f).isConstantValue 0 = true := by
    intro f g hf hg h
    obtain ⟨hof, hog, same, low⟩ := (sub_isConstantValue_zero_iff hf hg).mp h
    have coeffs := (sameTerms_iff hf.ordered hg.ordered).mp same
    have same' := (sameTerms_iff hg.ordered hf.ordered).mpr fun k => (coeffs k).symm
    refine (sub_isConstantValue_zero_iff hg hf).mpr ⟨hog, hof, same', fun e he => ?_⟩
    have there := (coeffAt_mem hf.ordered).mpr ⟨e.2, he, rfl⟩
    rw [coeffs] at there
    obtain ⟨t, ht, hc⟩ := (coeffAt_mem hg.ordered).mp there
    rw [← hc]
    exact low _ ht
  exact Bool.eq_iff_iff.mpr ⟨swap hf hg, swap hg hf⟩

theorem evaluate_of_sub_isConstantValue_zero (ρ : TermKey → ℚ) (hf : f.WellFormed)
    (hg : g.WellFormed) (h : (f - g).isConstantValue 0 = true) : f.evaluate ρ = g.evaluate ρ := by
  obtain ⟨settled, zero⟩ := (isConstantValue_zero_iff (hf.sub hg)).mp h
  have nothing : (f - g).evaluate ρ = 0 * f.evaluate ρ :=
    evaluate_eq_mul ρ (hf.sub hg).ordered hf.ordered fun k => by rw [zero, zero_mul]
  rw [evaluate_sub ρ hf hg settled, zero_mul] at nothing
  exact sub_eq_zero.mp nothing

end Formula

namespace Slicer

open Formula

variable {bases : OperandTable} {u v : MicroOp} {f g : Formula}

def StoresAt (bases : OperandTable) (u : MicroOp) (base : Formula) : Prop :=
  u.isStore = true ∧
    (u.memoryDestination?.bind fun m => bases.base? ⟨u.pc, m.opidx⟩) = some base

theorem storesTo_of_storesAt (h : StoresAt bases u g) (address : Formula) :
    storesTo bases address u = (address - g).isConstantValue 0 := by
  simp [storesTo, h.1, h.2]

/-- Stores are matched by address exactly if the formulas have the same terms, neither is flagged
and the second can be negated. The match does not depend on the side from which it is tried, and
addresses that match are equal whatever their unknowns are. -/
theorem matches_iff_sameTerms (hf : f.WellFormed) (hg : g.WellFormed) :
    ((f - g).isConstantValue 0 = true ↔ f.overflow = false ∧ g.overflow = false ∧
      f.sameTerms g = true ∧ ∀ e ∈ g.terms.entries, e.2.coeff.num ≠ -Word.half) ∧
    (∀ bases u v, StoresAt bases u f → StoresAt bases v g →
      storesTo bases g u = storesTo bases f v) ∧
    ((f - g).isConstantValue 0 = true → ∀ ρ, f.evaluate ρ = g.evaluate ρ) := by
  refine ⟨sub_isConstantValue_zero_iff hf hg, fun bases u v hu hv => ?_,
    fun h ρ => evaluate_of_sub_isConstantValue_zero ρ hf hg h⟩
  rw [storesTo_of_storesAt hu, storesTo_of_storesAt hv]
  exact sub_isConstantValue_zero_comm hg hf

def nearLimitAgain : Formula :=
  ⟨⟨[(.reference 8, { coeff := ⟨9223372036854775807, 3⟩, origin := some ⟨0x20, 0⟩ }),
    (.constant, { coeff := ⟨-1, 2⟩ })]⟩, { irregular := true }, false⟩

def lowest : Formula := ⟨⟨[(.reference 8, { coeff := ⟨-9223372036854775808, 1⟩ })]⟩, {}, false⟩

def storeAt (pc : Nat) : MicroOp :=
  { pc, kind := .store, operation := .mov, sources := [.immediate 1], destinations := [.memory {}] }

def threeStores : OperandTable :=
  ⟨[(⟨0x10, 0⟩, { base := some nearLimit }), (⟨0x20, 0⟩, { base := some nearLimitAgain }),
    (⟨0x30, 0⟩, { base := some lowest })]⟩

theorem matches_threeStores :
    nearLimit.WellFormed ∧ nearLimitAgain.WellFormed ∧ lowest.WellFormed ∧
    StoresAt threeStores (storeAt 0x10) nearLimit ∧
    StoresAt threeStores (storeAt 0x20) nearLimitAgain ∧
    storesTo threeStores nearLimitAgain (storeAt 0x10) = true ∧
    storesTo threeStores nearLimit (storeAt 0x20) = true ∧
    (∀ ρ, nearLimit.evaluate ρ = nearLimitAgain.evaluate ρ) ∧
    lowest.sameTerms lowest = true ∧ storesTo threeStores lowest (storeAt 0x30) = false := by
  have wf : nearLimit.WellFormed := by decide
  have wf' : nearLimitAgain.WellFormed := by decide
  have wf'' : lowest.WellFormed := by decide
  have at₁ : StoresAt threeStores (storeAt 0x10) nearLimit := ⟨rfl, by decide⟩
  have at₂ : StoresAt threeStores (storeAt 0x20) nearLimitAgain := ⟨rfl, by decide⟩
  have at₃ : StoresAt threeStores (storeAt 0x30) lowest := ⟨rfl, by decide⟩
  obtain ⟨iff, symmetric, equal⟩ := matches_iff_sameTerms wf wf'
  obtain ⟨unmatched, _, _⟩ := matches_iff_sameTerms wf'' wf''
  have first : storesTo threeStores nearLimitAgain (storeAt 0x10) = true := by decide
  have second : storesTo threeStores nearLimit (storeAt 0x20) = true := by
    rw [← symmetric _ _ _ at₁ at₂]
    exact first
  refine ⟨wf, wf', wf'', at₁, at₂, first, second, equal (iff.mpr (by decide)), by decide, ?_⟩
  rw [storesTo_of_storesAt at₃, ← Bool.not_eq_true, unmatched]
  decide

end Slicer

end AddressFormulas
