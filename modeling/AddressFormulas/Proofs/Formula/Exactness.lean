import AddressFormulas.Proofs.Formula.Fractions
import Mathlib.LinearAlgebra.Finsupp.LinearCombination

/-!
Arithmetic on formulas is exact. A well-formed formula is a finite table of rational coefficients;
the operations add, negate and multiply these, they keep formulas well formed, and they flag the
result exactly if one of its coefficients does not fit.
-/

namespace AddressFormulas

namespace Coeff

def rational (x : Option Coeff) : ℚ := x.elim 0 toRat

@[simp] theorem rational_none : rational none = 0 := rfl

@[simp] theorem rational_some (c : Coeff) : rational (some c) = c.toRat := rfl

variable {c : Coeff} {x : Option Coeff}

theorem rational_plus (hc : c.Proper) (hx : ∀ a, x = some a → a.Proper) (h : ¬Clashes c x) :
    rational (plus c x) = rational x + c.toRat := by
  unfold plus
  rw [hc.isZero]
  cases x with
  | none => simp
  | some a =>
    cases hs : a.add? c with
    | none => exact absurd ⟨hc.isZero, a, rfl, hs⟩ h
    | some s =>
      have exact_sum : s.toRat = a.toRat + c.toRat := by
        rw [add?_eq_ofRat? (hx a rfl).positive hc.positive] at hs
        exact toRat_of_ofRat? hs
      by_cases hz : s.isZero = true
      · simp [hs, hz, ← exact_sum, toRat_of_isZero hz]
      · simp [hs, hz, exact_sum]

theorem clashes_iff (hc : c.Proper) (hx : ∀ a, x = some a → a.Proper) :
    Clashes c x ↔ ¬Fits (rational x + c.toRat) := by
  cases x with
  | none => simp [Clashes, hc.reduced.fits_toRat]
  | some a =>
    have sum := add?_eq_ofRat? (hx a rfl).positive hc.positive
    simp [Clashes, hc.isZero, sum, ofRat?_eq_none]

end Coeff

namespace Formula

open Coeff

structure WellFormed (f : Formula) : Prop where
  ordered : f.Ordered
  proper : ∀ e ∈ f.terms.entries, e.2.coeff.Proper

instance : DecidablePred Ordered := fun f => inferInstanceAs (Decidable
  (f.terms.entries.Pairwise fun e e' : TermKey × Term => compare e.1 e'.1 = .lt))

instance : DecidablePred WellFormed := fun f =>
  decidable_of_iff (f.Ordered ∧ ∀ e ∈ f.terms.entries, e.2.coeff.Proper)
    ⟨fun ⟨o, p⟩ => ⟨o, p⟩, fun ⟨o, p⟩ => ⟨o, p⟩⟩

variable {f g : Formula} {c : Coeff} {k : TermKey}

theorem WellFormed.proper_at (hf : f.WellFormed) (h : f.coeffAt k = some c) : c.Proper := by
  obtain ⟨t, ht, rfl⟩ := (coeffAt_mem hf.ordered).mp h
  exact hf.proper _ ht

theorem wellFormed_of_coeffAt (ho : f.Ordered) (h : ∀ k c, f.coeffAt k = some c → c.Proper) :
    f.WellFormed :=
  ⟨ho, fun _ he => h _ _ ((coeffAt_mem ho).mpr ⟨_, he, rfl⟩)⟩

section Coefficients

def coefficient (f : Formula) (k : TermKey) : ℚ := rational (f.coeffAt k)

theorem WellFormed.coefficient_eq_zero_iff (hf : f.WellFormed) :
    f.coefficient k = 0 ↔ f.coeffAt k = none := by
  unfold coefficient
  cases hc : f.coeffAt k with
  | none => simp
  | some c => simpa using (hf.proper_at hc).toRat_ne_zero

theorem constantValue?_eq_some_iff (hf : f.WellFormed) : f.constantValue? = some c ↔
    f.overflow = false ∧ (∀ k, k.isConstant = false → f.coefficient k = 0) ∧
      c.Reduced ∧ c.toRat = f.coefficient .constant := by
  constructor
  · intro h
    have settled : f.overflow = false := by
      cases ho : f.overflow with
      | false => rfl
      | true => simp [constantValue?, ho] at h
    have known : ∀ k, k.isConstant = false → f.coeffAt k = none := by
      intro k hk
      by_contra hc
      simp [constantValue?_of_unknown hk hc] at h
    rw [constantValue?_of_known hf.ordered settled known] at h
    refine ⟨settled, fun k hk => hf.coefficient_eq_zero_iff.mpr (known k hk), ?_⟩
    unfold coefficient
    cases hc : f.coeffAt .constant with
    | none =>
      rw [hc] at h
      cases h
      exact ⟨by decide, toRat_of_isZero rfl⟩
    | some b =>
      have reduced := (hf.proper_at hc).reduced
      rw [hc] at h
      dsimp only at h
      rw [zero_add? reduced] at h
      cases h
      exact ⟨reduced, rfl⟩
  · rintro ⟨settled, known, hc, value⟩
    rw [constantValue?_of_known hf.ordered settled fun k hk =>
      hf.coefficient_eq_zero_iff.mp (known k hk)]
    unfold coefficient at value
    cases hb : f.coeffAt .constant with
    | none =>
      rw [hb] at value
      have zero : c = .zero := hc.toRat_inj (by decide) (value.trans (toRat_of_isZero rfl).symm)
      rw [zero]
    | some b =>
      have reduced := (hf.proper_at hb).reduced
      rw [hb] at value
      dsimp only
      rw [zero_add? reduced, hc.toRat_inj reduced value]

theorem coefficient_add (hf : f.WellFormed) (hg : g.WellFormed) (ho : (f + g).overflow = false) :
    (f + g).coefficient k = f.coefficient k + g.coefficient k := by
  unfold coefficient
  rw [coeffAt_add hf.ordered hg.ordered]
  cases hc : g.coeffAt k with
  | none => simp
  | some c =>
    refine rational_plus (hg.proper_at hc) (fun a => hf.proper_at) fun clash => ?_
    have flagged := (overflow_add hf.ordered hg.ordered).mpr (.inr (.inr ⟨k, c, hc, clash⟩))
    simp [ho] at flagged

theorem overflow_add_iff (hf : f.WellFormed) (hg : g.WellFormed) : (f + g).overflow = true ↔
    f.overflow = true ∨ g.overflow = true ∨ ∃ k, ¬Fits (f.coefficient k + g.coefficient k) := by
  rw [overflow_add hf.ordered hg.ordered]
  refine or_congr_right (or_congr_right (exists_congr fun k => ?_))
  unfold coefficient
  constructor
  · rintro ⟨c, hc, clash⟩
    rw [hc]
    exact (clashes_iff (hg.proper_at hc) fun a => hf.proper_at).mp clash
  · intro large
    cases hc : g.coeffAt k with
    | none =>
      -- nothing is added, and what is there fits already
      rw [hc, rational_none, add_zero] at large
      cases ha : f.coeffAt k with
      | none => exact absurd (ha ▸ fits_zero) large
      | some a => exact absurd (ha ▸ (hf.proper_at ha).reduced.fits_toRat) large
    | some c =>
      rw [hc] at large
      exact ⟨c, rfl, (clashes_iff (hg.proper_at hc) fun a => hf.proper_at).mpr large⟩

variable {op : Coeff → Option Coeff} {m : ℚ}

def Multiplies (op : Coeff → Option Coeff) (m : ℚ) : Prop :=
  ∀ c, c.Proper → op c = ofRat? (m * c.toRat)

theorem multiplies_neg : Multiplies Coeff.neg? (-1) := by
  intro c hc
  rw [neg?_eq_ofRat? hc.reduced, neg_one_mul]

theorem multiplies_mul (hc : c.den ≠ 0) : Multiplies (·.mul? c) c.toRat := by
  intro a ha
  change a.mul? c = _
  rw [mul?_eq_ofRat? ha.positive hc, mul_comm]

theorem coefficient_mapCoeffs (hop : Multiplies op m) (hf : f.WellFormed)
    (ho : (f.mapCoeffs op).overflow = false) :
    (f.mapCoeffs op).coefficient k = m * f.coefficient k := by
  unfold coefficient
  rw [coeffAt_mapCoeffs]
  cases hc : f.coeffAt k with
  | none => simp
  | some c =>
    have product := hop c (hf.proper_at hc)
    cases hm : op c with
    | none =>
      have flagged := (overflow_mapCoeffs hf.ordered).mpr (.inr ⟨k, c, hc, hm⟩)
      simp [ho] at flagged
    | some b =>
      rw [hm] at product
      simpa [hm] using toRat_of_ofRat? product.symm

theorem overflow_mapCoeffs_iff (hop : Multiplies op m) (hf : f.WellFormed) :
    (f.mapCoeffs op).overflow = true ↔ f.overflow = true ∨ ∃ k, ¬Fits (m * f.coefficient k) := by
  rw [overflow_mapCoeffs hf.ordered]
  refine or_congr_right (exists_congr fun k => ?_)
  unfold coefficient
  cases hc : f.coeffAt k with
  | none => simp [fits_zero]
  | some c => simp [hop c (hf.proper_at hc), ofRat?_eq_none]

end Coefficients

section WellFormed

theorem wellFormed_empty (access : Access) (overflow : Bool) :
    WellFormed { access := access, overflow := overflow } :=
  ⟨List.Pairwise.nil, by simp⟩

theorem WellFormed.addTerm (hf : f.WellFormed) (hc : c.Reduced) (origin : Option Site) :
    (f.addTerm k c origin).WellFormed := by
  by_cases hz : c.isZero = true
  · simpa [Formula.addTerm, hz] using hf
  · have proper := hc.proper (by simpa using hz)
    refine wellFormed_of_coeffAt hf.ordered.addTerm fun k' b hb => ?_
    rw [coeffAt_addTerm hf.ordered] at hb
    split at hb
    · exact proper_of_plus proper (fun a => hf.proper_at) hb
    · exact hf.proper_at hb

theorem wellFormed_ofTerm (key : TermKey) (hc : c.Reduced) (origin : Option Site) :
    (ofTerm key c origin).WellFormed :=
  (wellFormed_empty {} false).addTerm hc origin

theorem WellFormed.add (hf : f.WellFormed) (hg : g.WellFormed) : (f + g).WellFormed := by
  refine wellFormed_of_coeffAt hf.ordered.add fun k c hc => ?_
  rw [coeffAt_add hf.ordered hg.ordered] at hc
  split at hc
  · exact hf.proper_at hc
  · next hg' => exact proper_of_plus (hg.proper_at hg') (fun a => hf.proper_at) hc

theorem WellFormed.mapCoeffs {op : Coeff → Option Coeff}
    (hop : ∀ c c', c.Proper → op c = some c' → c'.Proper) (hf : f.WellFormed) :
    (f.mapCoeffs op).WellFormed := by
  refine wellFormed_of_coeffAt hf.ordered.mapCoeffs fun k c hc => ?_
  rw [coeffAt_mapCoeffs] at hc
  obtain ⟨a, ha, rfl⟩ := Option.map_eq_some_iff.mp hc
  have old := hf.proper_at ha
  cases hm : op a with
  | none => exact old
  | some b => exact hop a b old hm

theorem WellFormed.neg (hf : f.WellFormed) : (-f).WellFormed :=
  hf.mapCoeffs fun _ _ hc h => hc.neg? h

theorem WellFormed.sub (hf : f.WellFormed) (hg : g.WellFormed) : (f - g).WellFormed :=
  hf.add hg.neg

theorem WellFormed.scale (hf : f.WellFormed) (c : Coeff) : (f.scale c).WellFormed := by
  unfold Formula.scale
  split
  · exact wellFormed_empty _ _
  · next hz => exact hf.mapCoeffs fun _ _ ha h => ha.mul? (by simpa using hz) h

theorem WellFormed.div (hf : f.WellFormed) (k : Int) : (f.div k).WellFormed := by
  unfold Formula.div
  split
  · exact hf.scale _
  · exact ⟨hf.ordered, hf.proper⟩

end WellFormed

section Evaluation

def evaluate (ρ : TermKey → ℚ) (f : Formula) : ℚ :=
  (f.terms.entries.map fun e => e.2.coeff.toRat * ρ e.1).sum

noncomputable def vector (f : Formula) : TermKey →₀ ℚ :=
  (f.terms.entries.map fun e => Finsupp.single e.1 e.2.coeff.toRat).sum

theorem evaluate_eq_linearCombination (ρ : TermKey → ℚ) (f : Formula) :
    f.evaluate ρ = Finsupp.linearCombination ℚ ρ f.vector := by
  unfold evaluate vector
  rw [map_list_sum, List.map_map]
  congr 2
  funext e
  simp [Finsupp.linearCombination_single]

theorem vector_apply (hf : f.Ordered) (k : TermKey) : f.vector k = f.coefficient k := by
  unfold vector coefficient coeffAt Table.get?
  unfold Ordered at hf
  generalize f.terms.entries = es at hf
  induction es with
  | nil => rfl
  | cons e es ih =>
    obtain ⟨he, hes⟩ := List.pairwise_cons.mp hf
    rw [List.map_cons, List.sum_cons, Finsupp.add_apply, ih hes]
    by_cases hk : e.1 = k
    · -- the key does not come again in the rest
      have absent : Table.findEntry k es = none := by
        cases found : Table.findEntry k es with
        | none => rfl
        | some t => simpa [hk] using he _ (Table.mem_of_findEntry found)
      rw [Finsupp.single_apply, if_pos hk, absent, Table.findEntry, if_pos (by simp [hk])]
      simp
    · have hne : ¬compare k e.1 = .eq := fun h => hk (Std.LawfulEqOrd.eq_of_compare h).symm
      rw [Finsupp.single_apply, if_neg hk, zero_add, Table.findEntry, if_neg hne]

variable (ρ : TermKey → ℚ)

theorem evaluate_eq_mul (hf : f.Ordered) (hg : g.Ordered) {m : ℚ}
    (h : ∀ k, f.coefficient k = m * g.coefficient k) : f.evaluate ρ = m * g.evaluate ρ := by
  have multiple : f.vector = m • g.vector := by
    ext k
    rw [vector_apply hf, h, Finsupp.smul_apply, vector_apply hg, smul_eq_mul]
  rw [evaluate_eq_linearCombination, multiple, map_smul, ← evaluate_eq_linearCombination,
    smul_eq_mul]

theorem evaluate_of_constantValue? (hf : f.WellFormed) (h : f.constantValue? = some c) :
    f.evaluate ρ = c.toRat * ρ .constant := by
  obtain ⟨_, known, _, value⟩ := (constantValue?_eq_some_iff hf).mp h
  have only : f.vector = Finsupp.single .constant c.toRat := by
    ext k
    rw [vector_apply hf.ordered, Finsupp.single_apply]
    split
    · next hk => rw [← hk, value]
    · next hk => exact known k (by cases k <;> first | rfl | exact absurd rfl hk)
  rw [evaluate_eq_linearCombination, only, Finsupp.linearCombination_single, smul_eq_mul]

theorem evaluate_ofTerm (key : TermKey) (c : Coeff) (origin : Option Site) :
    (ofTerm key c origin).evaluate ρ = c.toRat * ρ key := by
  unfold ofTerm addTerm
  split
  · next hz =>
    rw [toRat_of_isZero hz, zero_mul]
    rfl
  · exact add_zero _

theorem evaluate_add (hf : f.WellFormed) (hg : g.WellFormed) (ho : (f + g).overflow = false) :
    (f + g).evaluate ρ = f.evaluate ρ + g.evaluate ρ := by
  have sum : (f + g).vector = f.vector + g.vector := by
    ext k
    rw [vector_apply hf.ordered.add, coefficient_add hf hg ho, Finsupp.add_apply,
      vector_apply hf.ordered, vector_apply hg.ordered]
  simp only [evaluate_eq_linearCombination, sum, map_add]

theorem evaluate_mapCoeffs {op : Coeff → Option Coeff} {m : ℚ} (hop : Multiplies op m)
    (hf : f.WellFormed) (ho : (f.mapCoeffs op).overflow = false) :
    (f.mapCoeffs op).evaluate ρ = m * f.evaluate ρ :=
  evaluate_eq_mul ρ hf.ordered.mapCoeffs hf.ordered fun _ => coefficient_mapCoeffs hop hf ho

theorem evaluate_neg (hf : f.WellFormed) (ho : (-f).overflow = false) :
    (-f).evaluate ρ = -f.evaluate ρ := by
  rw [← neg_one_mul]
  exact evaluate_mapCoeffs ρ multiplies_neg hf ho

theorem evaluate_sub (hf : f.WellFormed) (hg : g.WellFormed) (ho : (f - g).overflow = false) :
    (f - g).evaluate ρ = f.evaluate ρ - g.evaluate ρ := by
  have sum := evaluate_add ρ hf hg.neg ho
  rw [evaluate_neg ρ hg (overflow_of_sub ho).2, ← sub_eq_add_neg] at sum
  exact sum

theorem evaluate_scale (hf : f.WellFormed) (hc : c.den ≠ 0) (ho : (f.scale c).overflow = false) :
    (f.scale c).evaluate ρ = c.toRat * f.evaluate ρ := by
  unfold scale at ho ⊢
  split
  · next hz =>
    rw [toRat_of_isZero hz, zero_mul]
    rfl
  · next hz =>
    rw [if_neg hz] at ho
    exact evaluate_mapCoeffs ρ (multiplies_mul hc) hf ho

theorem evaluate_mul (hf : f.WellFormed) {n : Int} (ho : (f.mul n).overflow = false) :
    (f.mul n).evaluate ρ = n * f.evaluate ρ := by
  rw [mul, evaluate_scale ρ hf one_ne_zero ho, toRat_ofInt]

theorem evaluate_div (hf : f.WellFormed) {n : Int} (hn : n ≠ 0) (ho : (f.div n).overflow = false) :
    (f.div n).evaluate ρ = f.evaluate ρ / n := by
  unfold div at ho ⊢
  rw [reduce?_eq_ofRat? 1 hn] at ho ⊢
  cases hi : ofRat? ((1 : Int) / n) with
  | none =>
    rw [hi] at ho
    cases ho
  | some inverse =>
    rw [hi] at ho
    have reciprocal := toRat_of_ofRat? hi
    have positive : inverse.den ≠ 0 := by
      simp only [ofRat?, Option.ite_none_right_eq_some, Option.some.injEq] at hi
      obtain ⟨_, rfl⟩ := hi
      exact Rat.den_nz _
    dsimp only at ho ⊢
    rw [evaluate_scale ρ hf positive ho, reciprocal, Int.cast_one, one_div_mul_eq_div]

end Evaluation

section Overflow

theorem overflow_neg_iff (hf : f.WellFormed) :
    (-f).overflow = true ↔ f.overflow = true ∨ ∃ k, ¬Fits (-f.coefficient k) := by
  have flagged := overflow_mapCoeffs_iff multiplies_neg hf
  simp only [neg_one_mul] at flagged
  exact flagged

theorem overflow_scale_iff (hf : f.WellFormed) (hc : c.den ≠ 0) (hz : c.isZero = false) :
    (f.scale c).overflow = true ↔ f.overflow = true ∨ ∃ k, ¬Fits (c.toRat * f.coefficient k) := by
  unfold scale
  rw [hz]
  exact overflow_mapCoeffs_iff (multiplies_mul hc) hf

theorem overflow_scale (h : f.overflow = true) (c : Coeff) : (f.scale c).overflow = true := by
  unfold scale
  split
  · exact h
  · unfold mapCoeffs
    simp [h]

theorem overflow_div (h : f.overflow = true) (n : Int) : (f.div n).overflow = true := by
  unfold div
  split
  · exact overflow_scale h _
  · rfl

end Overflow

inductive Made : Formula → Prop
  | given {f : Formula} (hf : f.WellFormed) : Made f
  | zero : Made zero
  | constant {v : Int} (hv : Word.fits v = true) : Made (constant v)
  | ofTerm (key : TermKey) {c : Coeff} (hc : c.Reduced) (origin : Option Site) :
      Made (ofTerm key c origin)
  | register (site : Site) (reg : Register) : Made (register site reg)
  | load (site : Site) (reg : Register) : Made (load site reg)
  | reference (site : Site) (address : Int) : Made (reference site address)
  | call (site : Site) (target : Nat) : Made (call site target)
  | addTerm {f : Formula} (hf : Made f) (key : TermKey) {c : Coeff} (hc : c.Reduced)
      (origin : Option Site) : Made (f.addTerm key c origin)
  | add {f g : Formula} (hf : Made f) (hg : Made g) : Made (f + g)
  | sub {f g : Formula} (hf : Made f) (hg : Made g) : Made (f - g)
  | neg {f : Formula} (hf : Made f) : Made (-f)
  | scale {f : Formula} (hf : Made f) (c : Coeff) : Made (f.scale c)
  | mul {f : Formula} (hf : Made f) (n : Int) : Made (f.mul n)
  | div {f : Formula} (hf : Made f) (n : Int) : Made (f.div n)
  | markIrregular {f : Formula} (hf : Made f) : Made f.markIrregular
  | markIndirect {f : Formula} (hf : Made f) : Made f.markIndirect
  | markLoad {f : Formula} (hf : Made f) (site : Site) : Made (f.markLoad site)
  | markLoads {f : Formula} (hf : Made f) (sites : KeySet Site) : Made (f.markLoads sites)
  | inheritAccess {f g : Formula} (hf : Made f) (hg : Made g) : Made (f.inheritAccess g)

theorem Made.wellFormed (h : Made f) : f.WellFormed := by
  induction h with
  | given hf => exact hf
  | zero => exact wellFormed_empty {} false
  | constant hv => exact wellFormed_ofTerm _ (reduced_ofInt hv) _
  | ofTerm key hc origin => exact wellFormed_ofTerm key hc origin
  | register | load | reference | call => exact wellFormed_ofTerm _ reduced_one _
  | addTerm _ _ hc _ ih => exact ih.addTerm hc _
  | add _ _ ihf ihg => exact ihf.add ihg
  | sub _ _ ihf ihg => exact ihf.sub ihg
  | neg _ ih => exact ih.neg
  | scale _ c ih => exact ih.scale c
  | mul _ n ih => exact ih.scale _
  | div _ n ih => exact ih.div n
  | markIrregular _ ih | markIndirect _ ih | markLoad _ _ ih => exact ⟨ih.ordered, ih.proper⟩
  | markLoads _ sites ih =>
    unfold Formula.markLoads
    split
    · exact ih
    · exact ⟨ih.ordered, ih.proper⟩
  | inheritAccess _ _ ih _ => exact ⟨ih.ordered, ih.proper⟩

def Computes (f : Formula) (q : (TermKey → ℚ) → ℚ) : Prop :=
  f.overflow = false → ∀ ρ, f.evaluate ρ = q ρ

/-- Operations keep formulas well formed. A result that is not flagged has the exact value; the flag
stays, and sums, negations and multiples are flagged only where a coefficient does not fit. -/
theorem exact_unless_flagged (hf : f.WellFormed) (hg : g.WellFormed) (hc : c.Reduced) (n : Int) :
    (∀ h, Made h → h.WellFormed) ∧
    ((f + g).Computes fun ρ => f.evaluate ρ + g.evaluate ρ) ∧
    ((f - g).Computes fun ρ => f.evaluate ρ - g.evaluate ρ) ∧
    ((-f).Computes fun ρ => -f.evaluate ρ) ∧
    ((f.scale c).Computes fun ρ => c.toRat * f.evaluate ρ) ∧
    ((f.mul n).Computes fun ρ => n * f.evaluate ρ) ∧
    (n ≠ 0 → (f.div n).Computes fun ρ => f.evaluate ρ / n) ∧
    (f.overflow = true ∨ g.overflow = true → (f + g).overflow = true ∧ (f - g).overflow = true) ∧
    (f.overflow = true → (-f).overflow = true ∧ (f.scale c).overflow = true ∧
      (f.mul n).overflow = true ∧ (f.div n).overflow = true) ∧
    (f.overflow = false → g.overflow = false →
      ((f + g).overflow = true ↔ ∃ k, ¬Fits (f.coefficient k + g.coefficient k))) ∧
    (f.overflow = false → ((-f).overflow = true ↔ ∃ k, ¬Fits (-f.coefficient k))) ∧
    (f.overflow = false → c.isZero = false →
      ((f.scale c).overflow = true ↔ ∃ k, ¬Fits (c.toRat * f.coefficient k))) := by
  refine ⟨fun _ => Made.wellFormed, fun ho ρ => evaluate_add ρ hf hg ho,
    fun ho ρ => evaluate_sub ρ hf hg ho, fun ho ρ => evaluate_neg ρ hf ho,
    fun ho ρ => evaluate_scale ρ hf hc.positive ho, fun ho ρ => evaluate_mul ρ hf ho,
    fun hn ho ρ => evaluate_div ρ hf hn ho, fun flagged => ⟨?_, ?_⟩, fun flagged => ⟨?_, ?_⟩,
    fun hof hog => ?_, fun hof => ?_, fun hof hz => ?_⟩
  · exact (overflow_add_iff hf hg).mpr (flagged.imp_right .inl)
  · exact (overflow_add_iff hf hg.neg).mpr
      (flagged.imp_right fun h => .inl ((overflow_neg_iff hg).mpr (.inl h)))
  · exact (overflow_neg_iff hf).mpr (.inl flagged)
  · exact ⟨overflow_scale flagged c, overflow_scale flagged _, overflow_div flagged n⟩
  · simpa [hof, hog] using overflow_add_iff hf hg
  · simpa [hof] using overflow_neg_iff hf
  · simpa [hof] using overflow_scale_iff hf hc.positive hz

def nearLimit : Formula :=
  ⟨⟨[(.reference 8, { coeff := ⟨9223372036854775807, 3⟩ }), (.constant, { coeff := ⟨-1, 2⟩ })]⟩,
    {}, false⟩

def thirdAndHalf : Formula :=
  ⟨⟨[(.reference 8, { coeff := ⟨1, 3⟩ }), (.constant, { coeff := ⟨1, 2⟩ })]⟩, {}, false⟩

theorem exact_nearLimit :
    nearLimit.WellFormed ∧ thirdAndHalf.WellFormed ∧ Coeff.Reduced ⟨-1, 2⟩ ∧
    (nearLimit + thirdAndHalf).coeffAt .constant = none ∧
    (∃ k, ¬Fits (nearLimit.coefficient k + thirdAndHalf.coefficient k)) ∧
    (nearLimit + thirdAndHalf - nearLimit).overflow = true ∧
    (∀ ρ, (nearLimit - thirdAndHalf).evaluate ρ =
      nearLimit.evaluate ρ - thirdAndHalf.evaluate ρ) ∧
    (∀ ρ, (nearLimit.scale ⟨-1, 2⟩).evaluate ρ = Coeff.toRat ⟨-1, 2⟩ * nearLimit.evaluate ρ) ∧
    (∀ ρ, (nearLimit.div (-3)).evaluate ρ = nearLimit.evaluate ρ / (-3 : Int)) := by
  have wf : nearLimit.WellFormed := by decide
  have wf' : thirdAndHalf.WellFormed := by decide
  have half : Coeff.Reduced ⟨-1, 2⟩ := by decide
  obtain ⟨_, _, sub, _, scale, _, div, _, _, flagged, _, _⟩ :=
    exact_unless_flagged wf wf' half (-3)
  obtain ⟨_, _, _, _, _, _, _, stays, _, _, _, _⟩ :=
    exact_unless_flagged (wf.add wf') wf half (-3)
  have flag : (nearLimit + thirdAndHalf).overflow = true := by decide
  exact ⟨wf, wf', half, by decide, (flagged rfl rfl).mp flag, (stays (.inl flag)).2,
    sub (by decide), scale (by decide), div (by decide) (by decide)⟩

end Formula

end AddressFormulas
