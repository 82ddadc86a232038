import AddressFormulas.Proofs.Base.Fold
import AddressFormulas.Proofs.Formula.Exactness
import Mathlib.Data.Rat.Floor

/-!
Divisions and signed right shifts of formulas. Each coefficient is divided by itself, so that the
result is the quotient of the values only where nothing has to be rounded. The unknowns are checked
for that; a constant beside them is not, and the result is exact if and only if it came out whole.
-/

namespace AddressFormulas

namespace Word

variable {x y : Int}

theorem fits_tdiv (hx : fits x = true) (h : ¬(x = -half ∧ y = -1)) : fits (x.tdiv y) = true := by
  obtain ⟨low, high⟩ := fits_iff.mp hx
  have size : (x.tdiv y).natAbs = x.natAbs / y.natAbs := Int.natAbs_tdiv x y
  have smaller := Nat.div_le_self x.natAbs y.natAbs
  have halved : 2 ≤ y.natAbs → x.natAbs / y.natAbs ≤ x.natAbs / 2 :=
    fun two => Nat.div_le_div_left two (by decide)
  rw [fits_iff]
  unfold half at low high h ⊢
  obtain rfl | rfl | rfl | two : y = 0 ∨ y = 1 ∨ y = -1 ∨ 2 ≤ y.natAbs := by omega
  · simp
  · simp only [Int.tdiv_one]
    omega
  · rw [Int.tdiv_neg, Int.tdiv_one]
    omega
  · have := halved two
    omega

theorem quotient_eq_tdiv (hx : fits x = true) (h : ¬(x = -half ∧ y = -1)) :
    quotient x y = x.tdiv y :=
  wrap_of_fits (fits_tdiv hx h)

theorem shiftRightSigned_eq_div (hx : fits x = true) (n : Nat) :
    shiftRightSigned x n = x / (2 ^ n : Nat) := by
  have word : (bits x).toInt = x := by
    unfold bits
    rw [BitVec.toInt_ofInt]
    exact wrap_of_fits hx
  rw [shiftRightSigned, BitVec.toInt_sshiftRight, word, Int.shiftRight_eq_div_pow]

end Word

theorem Coeff.Reduced.isInt_toRat_iff {c : Coeff} (hc : c.Reduced) :
    (∃ n : ℤ, c.toRat = n) ↔ c.isFractional = false := by
  have whole : c.isFractional = false ↔ c.den = 1 := by simp [isFractional]
  rw [whole, ← hc.den_toRat]
  constructor
  · rintro ⟨n, hn⟩
    rw [hn, Rat.den_intCast]
  · intro den
    exact ⟨_, (Rat.den_eq_one_iff _).mp den |>.symm⟩

namespace Formula

open Coeff

variable {f : Formula} {z : TermKey → ℤ} {v : Int}

theorem value_eq_evaluate (f : Formula) (z : TermKey → ℤ) :
    f.value z = f.evaluate fun k => (z k : ℚ) := rfl

theorem value_constant (hz : z .constant = 1) (v : Int) : (constant v).value z = v := by
  rw [value_eq_evaluate, constant, evaluate_ofTerm, toRat_ofInt, hz, Int.cast_one, mul_one]

theorem integral?_eq_some (hf : f.WellFormed) (hz : z .constant = 1) (h : f.integral? = some v) :
    Word.fits v = true ∧ f.value z = v := by
  obtain ⟨c, hc, hv⟩ := Option.bind_eq_some_iff.mp h
  simp only [Coeff.integral?, Option.ite_none_left_eq_some, Option.some.injEq, isFractional,
    decide_eq_true_eq, not_not] at hv
  obtain ⟨den, rfl⟩ := hv
  obtain ⟨_, _, reduced, _⟩ := (constantValue?_eq_some_iff hf).mp hc
  rw [value_of_den den]
  refine ⟨reduced.num_fits, ?_⟩
  rw [value_eq_evaluate, evaluate_of_constantValue? _ hf hc, hz, toRat, den]
  simp

def HasWholeConstant (f : Formula) : Prop :=
  ∀ c, f.coeffAt .constant = some c → c.isFractional = false

theorem hasWholeConstant_constant (v : Int) : (constant v).HasWholeConstant := by
  intro c hc
  have empty : zero.Ordered := (wellFormed_empty {} false).ordered
  have absent : zero.coeffAt .constant = none := rfl
  unfold constant ofTerm at hc
  rw [coeffAt_addTerm empty, if_pos rfl] at hc
  simp only [absent, plus, Option.ite_none_left_eq_some, Option.some.injEq] at hc
  rw [← hc.2]
  rfl

theorem isInt_coefficient_iff (hf : f.WellFormed) (k : TermKey) :
    (∃ n : ℤ, f.coefficient k = n) ↔ ∀ c, f.coeffAt k = some c → c.isFractional = false := by
  unfold coefficient
  cases hc : f.coeffAt k with
  | none => simpa using ⟨0, rfl⟩
  | some c => simpa using (hf.proper_at hc).reduced.isInt_toRat_iff

theorem isInt_coefficient_of_unknown (hf : f.WellFormed) (hs : f.hasComplexDenominator = false)
    {k : TermKey} (hk : k ≠ .constant) : ∃ n : ℤ, f.coefficient k = n := by
  rw [isInt_coefficient_iff hf]
  intro c hc
  by_contra fractional
  have unknown : k.isConstant = false := by cases k <;> first | rfl | exact absurd rfl hk
  have complex := (hasComplexDenominator_iff hf.ordered).mpr
    ⟨k, c, unknown, hc, by simpa using fractional⟩
  simp [hs] at complex

theorem isInt_value_iff (hf : f.WellFormed) (hs : f.hasComplexDenominator = false)
    (hz : z .constant = 1) : (∃ n : ℤ, f.value z = n) ↔ f.HasWholeConstant := by
  have whole : ∀ q : ℚ, (∃ n : ℤ, q = n) ↔ q ∈ (Int.castAddHom ℚ).range := by
    intro q
    exact exists_congr fun n => eq_comm
  have unknowns : Finsupp.linearCombination ℚ (fun k => (z k : ℚ)) (f.vector.erase .constant) ∈
      (Int.castAddHom ℚ).range := by
    rw [Finsupp.linearCombination_apply, Finsupp.sum]
    refine sum_mem fun k _ => ?_
    by_cases hk : k = .constant
    · rw [hk, Finsupp.erase_same, zero_smul]
      exact zero_mem _
    · obtain ⟨n, hn⟩ := isInt_coefficient_of_unknown hf hs hk
      rw [Finsupp.erase_ne hk, vector_apply hf.ordered, hn, smul_eq_mul, ← whole]
      exact ⟨n * z k, by push_cast; rfl⟩
  have parts : f.value z = f.coefficient .constant +
      Finsupp.linearCombination ℚ (fun k => (z k : ℚ)) (f.vector.erase .constant) := by
    rw [value_eq_evaluate, evaluate_eq_linearCombination]
    conv_lhs => rw [← Finsupp.single_add_erase .constant f.vector]
    rw [map_add, Finsupp.linearCombination_single, vector_apply hf.ordered, hz]
    simp
  rw [whole, parts, AddSubgroup.add_mem_cancel_right _ unknowns, ← whole]
  exact isInt_coefficient_iff hf _

end Formula

namespace Operation

open Formula

variable {op : Operation} {f g h : Formula} {z : TermKey → ℤ} {a b : ℤ}

/-- The rational number `q` is what a division or a signed right shift gives on two integers. -/
def Gives (op : Operation) (a b : ℤ) (q : ℚ) : Prop :=
  match op with
  | div => b ≠ 0 ∧ q = (a.tdiv b : ℤ)
  | sra => 0 ≤ b ∧ q = ⌊(a / (2 ^ b.toNat : ℕ) : ℚ)⌋
  | _ => False

theorem div_gives_div_iff (hb : b ≠ 0) : div.Gives a b (a / b) ↔ ∃ n : ℤ, (a / b : ℚ) = n := by
  have nonzero : (b : ℚ) ≠ 0 := Int.cast_ne_zero.mpr hb
  constructor
  · rintro ⟨_, exact_quotient⟩
    exact ⟨_, exact_quotient⟩
  · rintro ⟨n, hn⟩
    have product : a = n * b := by
      have := (div_eq_iff nonzero).mp hn
      exact_mod_cast this
    refine ⟨hb, ?_⟩
    rw [hn, product, Int.mul_tdiv_cancel n hb]

theorem sra_gives_div_iff (hb : 0 ≤ b) : sra.Gives a b (a / (2 ^ b.toNat : ℕ)) ↔
    ∃ n : ℤ, (a / (2 ^ b.toNat : ℕ) : ℚ) = n := by
  constructor
  · rintro ⟨_, exact_quotient⟩
    exact ⟨_, exact_quotient⟩
  · rintro ⟨n, hn⟩
    refine ⟨hb, ?_⟩
    rw [hn, Int.floor_intCast]

theorem gives_of_onWords? (hop : op = div ∨ op = sra) (ha : Word.fits a = true)
    (hb : op = sra → 0 ≤ b) (hne : ¬(op = div ∧ a = -Word.half ∧ b = -1)) {v : Int}
    (hv : op.onWords? a b = some v) : op.Gives a b v := by
  obtain rfl | rfl := hop
  · simp only [onWords?, Option.ite_none_right_eq_some, Option.some.injEq] at hv
    obtain ⟨nonzero, rfl⟩ := hv
    refine ⟨nonzero, ?_⟩
    rw [Word.quotient_eq_tdiv ha fun h => hne ⟨rfl, h⟩]
  · simp only [onWords?, Option.ite_none_right_eq_some, Option.some.injEq] at hv
    obtain ⟨_, rfl⟩ := hv
    refine ⟨hb rfl, ?_⟩
    rw [Word.shiftRightSigned_eq_div ha, Rat.floor_intCast_div_natCast]

theorem byConstant?_eq_div (hop : op = div ∨ op = sra) (hb : op = sra → 0 ≤ b)
    (hh : op.byConstant? f b = some h) :
    h.hasComplexDenominator = false ∧ ∃ k : Int, k ≠ 0 ∧ h = f.div k ∧
      ∀ a : ℤ, op.Gives a b (a / k) ↔ ∃ n : ℤ, (a / k : ℚ) = n := by
  have simple : ∀ {f' : Formula}, ifSimple? f' = some h →
      h.hasComplexDenominator = false ∧ h = f' := by
    intro f' hs
    simp only [ifSimple?, Option.ite_none_left_eq_some, Option.some.injEq, Bool.not_eq_true] at hs
    obtain ⟨hs, rfl⟩ := hs
    exact ⟨hs, rfl⟩
  obtain rfl | rfl := hop
  · simp only [byConstant?, Option.ite_none_right_eq_some] at hh
    obtain ⟨nonzero, hs⟩ := hh
    obtain ⟨plain, rfl⟩ := simple hs
    exact ⟨plain, b, nonzero, rfl, fun a => div_gives_div_iff nonzero⟩
  · obtain ⟨k, hk, hs⟩ := Option.bind_eq_some_iff.mp hh
    simp only [shiftFactor?, Option.ite_none_right_eq_some, Option.some.injEq] at hk
    obtain ⟨_, rfl⟩ := hk
    obtain ⟨plain, rfl⟩ := simple hs
    refine ⟨plain, _, ?_, rfl, fun a => ?_⟩
    · simp [Word.power]
    · have := sra_gives_div_iff (a := a) (hb rfl)
      simpa [Word.power] using this

theorem onFormulas?_cases (hop : op = div ∨ op = sra) (hh : op.onFormulas? f g = some h) :
    ∃ b, g.integral? = some b ∧ (op = sra → 0 ≤ b) ∧
      ((∃ a v, f.integral? = some a ∧ op.onWords? a b = some v ∧ h = constant v) ∨
        op.byConstant? f b = some h) := by
  unfold onFormulas? at hh
  extract_lets a? b? folded? at hh
  have second : ∀ b, b? = some b → g.integral? = some b ∧ (op = sra → 0 ≤ b) := by
    intro b hb
    obtain ⟨hb, shift⟩ := Option.filter_eq_some_iff.mp hb
    refine ⟨hb, ?_⟩
    rintro rfl
    simpa [isShift] using shift
  have folded : ∀ v, folded? = some v → ∃ a b, f.integral? = some a ∧ b? = some b ∧
      op.onWords? a b = some v := by
    intro v hv
    obtain ⟨a, ha, hv⟩ := Option.bind_eq_some_iff.mp hv
    obtain ⟨b, hb, hv⟩ := Option.bind_eq_some_iff.mp hv
    exact ⟨a, b, ha, hb, hv⟩
  clear_value folded? a? b?
  cases folded? with
  | some v =>
    obtain ⟨a, b, ha, hb, hv⟩ := folded v rfl
    obtain ⟨hgb, nonneg⟩ := second b hb
    exact ⟨b, hgb, nonneg, .inl ⟨a, v, ha, hv, (Option.some.inj hh).symm⟩⟩
  | none => cases b? with
    | some b =>
      obtain ⟨hgb, nonneg⟩ := second b rfl
      exact ⟨b, hgb, nonneg, .inr hh⟩
    | none => cases a? with
      | some a => obtain rfl | rfl := hop <;> cases hh
      | none => cases hh

/-- Where a division or a signed right shift of formulas gives a formula, its value is the quotient
of the values, rounded as the operation rounds, if and only if its constant is an integer. -/
theorem onFormulas?_gives_iff (hop : op = div ∨ op = sra) (hf : f.WellFormed) (hg : g.WellFormed)
    (hfi : f.Plain) (hh : op.onFormulas? f g = some h) (ho : h.overflow = false)
    (hz : z .constant = 1) : ∃ a b : ℤ, f.value z = a ∧ g.value z = b ∧
      (¬(op = div ∧ a = -Word.half ∧ b = -1) →
        (op.Gives a b (h.value z) ↔ h.HasWholeConstant)) := by
  obtain ⟨b, hb, nonneg, ⟨a, v, ha, hv, rfl⟩ | hs⟩ := onFormulas?_cases hop hh
  · obtain ⟨fits, value⟩ := integral?_eq_some hf hz ha
    refine ⟨a, b, value, (integral?_eq_some hg hz hb).2, fun hne => ?_⟩
    rw [value_constant hz]
    exact iff_of_true (gives_of_onWords? hop fits nonneg hne hv) (hasWholeConstant_constant v)
  · obtain ⟨a, value, _⟩ := value_eq_word hfi z
    obtain ⟨simple, k, hk, rfl, gives⟩ := byConstant?_eq_div hop nonneg hs
    refine ⟨a, b, value, (integral?_eq_some hg hz hb).2, fun _ => ?_⟩
    have quotient : (f.div k).value z = a / k := by
      rw [value_eq_evaluate, evaluate_div _ hf hk ho, ← value_eq_evaluate, value]
    rw [← isInt_value_iff (hf.div k) simple hz, quotient]
    exact gives a

def twiceAnd (c : Int) : Formula :=
  (register ⟨0x10, 0⟩ ⟨.listed 20, 0, 63⟩).mul 2 + .constant c

def three (k : TermKey) : ℤ := if k = .constant then 1 else 3

theorem onFormulas?_gives_twiceAnd :
    (twiceAnd (-6)).WellFormed ∧ (twiceAnd (-6)).Plain ∧
    (∃ h, div.onFormulas? (twiceAnd (-6)) (.constant (-2)) = some h ∧ h.overflow = false ∧
      ∃ a b : ℤ, (twiceAnd (-6)).value three = a ∧ (Formula.constant (-2)).value three = b ∧
        div.Gives a b (h.value three)) ∧
    ∃ h, sra.onFormulas? (.constant (-7)) (.constant 1) = some h ∧ h.overflow = false ∧
      ∃ a b : ℤ, (Formula.constant (-7)).value three = a ∧ (Formula.constant 1).value three = b ∧
        sra.Gives a b (h.value three) := by
  have wf : (twiceAnd (-6)).WellFormed := by decide
  have plain : (twiceAnd (-6)).Plain := ⟨wf.ordered, by decide⟩
  refine ⟨wf, plain, ⟨_, rfl, by decide, ?_⟩, ⟨_, rfl, rfl, ?_⟩⟩
  · obtain ⟨a, b, ha, hb, gives⟩ := onFormulas?_gives_iff (z := three) (.inl rfl) wf
      (by decide : (Formula.constant (-2)).WellFormed) plain rfl (by decide) rfl
    have divisor : b = -2 := by
      rw [value_constant rfl] at hb
      exact_mod_cast hb.symm
    refine ⟨a, b, ha, hb, (gives (by omega)).mpr fun c hc => ?_⟩
    cases hc
    rfl
  · obtain ⟨a, b, ha, hb, gives⟩ := onFormulas?_gives_iff (z := three) (.inr rfl)
      (by decide : (Formula.constant (-7)).WellFormed)
      (by decide : (Formula.constant 1).WellFormed) (plain_constant _) rfl rfl rfl
    exact ⟨a, b, ha, hb, (gives nofun).mpr (hasWholeConstant_constant _)⟩

/-- The constant of `2 * r + 1` is not rounded: half of seven comes out as `7 / 2`. -/
theorem onFormulas?_rounds :
    (twiceAnd 1).WellFormed ∧ (twiceAnd 1).Plain ∧ (twiceAnd 1).value three = 7 ∧
    (∃ h, div.onFormulas? (twiceAnd 1) (.constant 2) = some h ∧ h.overflow = false ∧
      ¬div.Gives 7 2 (h.value three)) ∧
    ∃ h, sra.onFormulas? (twiceAnd 1) (.constant 1) = some h ∧ h.overflow = false ∧
      ¬sra.Gives 7 1 (h.value three) := by
  have wf : (twiceAnd 1).WellFormed := by decide
  have value : (twiceAnd 1).value three = 7 := by
    have entries : (twiceAnd 1).terms.entries =
        [(.register ⟨0x10, 0⟩ ⟨.listed 20, 0, 63⟩, ⟨⟨2, 1⟩, some ⟨0x10, 0⟩⟩),
          (.constant, ⟨⟨1, 1⟩, none⟩)] := by decide
    have unknown : three (.register ⟨0x10, 0⟩ ⟨.listed 20, 0, 63⟩) = 3 := rfl
    have one : three .constant = 1 := rfl
    rw [Formula.value, entries]
    norm_num [unknown, one]
  have half : ((twiceAnd 1).div 2).value three = 7 / 2 := by
    rw [value_eq_evaluate, evaluate_div _ wf (by decide) (by decide), ← value_eq_evaluate, value]
    norm_num
  refine ⟨wf, ⟨wf.ordered, by decide⟩, value, ⟨(twiceAnd 1).div 2, by decide, by decide, ?_⟩,
    (twiceAnd 1).div 2, by decide, by decide, ?_⟩
  · rintro ⟨_, rounded⟩
    have quotient : Int.tdiv 7 2 = 3 := by decide
    rw [half, quotient] at rounded
    norm_num at rounded
  · rintro ⟨_, rounded⟩
    rw [half] at rounded
    norm_num at rounded

end Operation

end AddressFormulas
