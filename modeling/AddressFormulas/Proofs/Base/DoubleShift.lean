import AddressFormulas.Proofs.Base.Rounding

namespace AddressFormulas

/-- The upper half of `x` and `y` side by side, shifted left by `n`. -/
def Word.funnel {w : Nat} (x y : BitVec w) (n : Nat) : BitVec w := ((x ++ y) <<< n).extractLsb' w w

namespace Word

variable {w n : Nat}

theorem toNat_funnel (x y : BitVec w) (h : n ≤ w) :
    (funnel x y n).toNat = (x.toNat * 2 ^ n + y.toNat / 2 ^ (w - n)) % 2 ^ w := by
  have split : 2 ^ w = 2 ^ (w - n) * 2 ^ n := by rw [← Nat.pow_add, Nat.sub_add_cancel h]
  have shifted : (x.toNat * 2 ^ w + y.toNat) * 2 ^ n / 2 ^ w =
      x.toNat * 2 ^ n + y.toNat / 2 ^ (w - n) := by
    rw [Nat.add_mul, Nat.mul_right_comm, Nat.add_comm, Nat.add_mul_div_right _ _ (Nat.two_pow_pos w),
      Nat.add_comm]
    congr 1
    rw [split, Nat.mul_div_mul_right _ _ (Nat.two_pow_pos n)]
  unfold funnel
  rw [BitVec.extractLsb'_toNat, BitVec.toNat_shiftLeft, BitVec.toNat_append, Nat.shiftLeft_eq,
    Nat.shiftRight_eq_div_pow, Nat.pow_add, Nat.mod_mul_right_div_self, Nat.mod_mod,
    ← Nat.shiftLeft_add_eq_or_of_lt y.isLt, Nat.shiftLeft_eq, shifted]

theorem toNat_ofInt_narrow (hw : w ≤ 64) (v : Int) :
    (BitVec.ofInt w v).toNat = (bits v).toNat % 2 ^ w := by
  have divides : ((2 ^ w : Nat) : Int) ∣ (2 ^ 64 : Nat) :=
    Int.natCast_dvd_natCast.mpr (Nat.pow_dvd_pow 2 hw)
  have word : 0 ≤ v % (2 ^ 64 : Nat) := Int.emod_nonneg _ (by decide)
  rw [bits, BitVec.toNat_ofInt, BitVec.toNat_ofInt, ← Int.emod_emod_of_dvd v divides,
    Int.toNat_emod word (Int.natCast_nonneg _), Int.toNat_natCast]

def shiftedIn (w n : Nat) (v : Int) : Nat := (bits v).toNat / 2 ^ (w - n) % power n

theorem shiftedIn_eq (hw : w ≤ 64) (h : n ≤ w) (v : Int) :
    shiftedIn w n v = (BitVec.ofInt w v).toNat / 2 ^ (w - n) := by
  have split : 2 ^ w = 2 ^ (w - n) * power n := by
    rw [power, Nat.pow_eq, ← Nat.pow_add, Nat.sub_add_cancel h]
  rw [toNat_ofInt_narrow hw, split, Nat.mod_mul_right_div_self, shiftedIn]

theorem fits_shiftedIn (hn : n ≤ 63) (v : Int) : fits (shiftedIn w n v) = true := fits_mod_power _ hn

theorem ofInt_shift_add (hw : w ≤ 64) (h : n ≤ w) (a v : Int) :
    BitVec.ofInt w (a * power n + shiftedIn w n v) =
      funnel (BitVec.ofInt w a) (BitVec.ofInt w v) n := by
  apply BitVec.eq_of_toNat_eq
  rw [toNat_funnel _ _ h, ← shiftedIn_eq hw h, BitVec.ofInt_add, BitVec.ofInt_mul,
    BitVec.ofInt_natCast, BitVec.ofInt_natCast, BitVec.toNat_add, BitVec.toNat_mul,
    BitVec.toNat_ofNat, BitVec.toNat_ofNat, Nat.mul_mod_mod, Nat.add_mod_mod, Nat.mod_add_mod]
  rfl

end Word

namespace Formula

variable {f : Formula} {v : Int}

structure IsInteger (f : Formula) (v : Int) : Prop where
  settled : f.overflow = false
  fits : Word.fits v = true
  known : ∀ k, k.isConstant = false → f.coefficient k = 0
  value : f.coefficient .constant = v

theorem integral?_eq_some_iff (hf : f.WellFormed) : f.integral? = some v ↔ f.IsInteger v := by
  have whole : ∀ c : Coeff, c.integral? = some v ↔ c.den = 1 ∧ c.num = v := by
    intro c
    simp only [Coeff.integral?, Coeff.isFractional, decide_eq_true_eq, Option.ite_none_left_eq_some,
      not_not, Option.some.injEq]
    exact and_congr_right fun den => by rw [value_of_den den]
  constructor
  · intro h
    obtain ⟨c, hc, hv⟩ := Option.bind_eq_some_iff.mp h
    obtain ⟨den, rfl⟩ := (whole c).mp hv
    obtain ⟨settled, known, reduced, value⟩ := (constantValue?_eq_some_iff hf).mp hc
    refine ⟨settled, reduced.num_fits, known, ?_⟩
    rw [← value, Coeff.toRat, den]
    simp
  · rintro ⟨settled, fits, known, value⟩
    have constant : f.constantValue? = some (.ofInt v) := by
      refine (constantValue?_eq_some_iff hf).mpr ⟨settled, known, Coeff.reduced_ofInt fits, ?_⟩
      rw [Coeff.toRat_ofInt, value]
    exact Option.bind_eq_some_iff.mpr ⟨_, constant, (whole _).mpr ⟨rfl, rfl⟩⟩

theorem isInteger_constant (hv : Word.fits v = true) : (constant v).IsInteger v := by
  have empty : zero.Ordered := (wellFormed_empty {} false).ordered
  have absent : ∀ k, zero.coeffAt k = none := fun _ => rfl
  have coeffs : ∀ k, (constant v).coeffAt k =
      if k = .constant then Coeff.plus (.ofInt v) none else none := by
    intro k
    unfold constant ofTerm
    simp only [coeffAt_addTerm empty, absent]
  refine ⟨overflow_ofTerm _ _ _, hv, fun k hk => ?_, ?_⟩
  · rw [coefficient, coeffs, if_neg]
    · rfl
    · rintro rfl
      cases hk
  · rw [coefficient, coeffs, if_pos rfl]
    by_cases hz : v = 0
    · subst hz
      rfl
    · have nonzero : (Coeff.ofInt v).isZero = false := decide_eq_false hz
      simp [Coeff.plus, nonzero, Coeff.toRat_ofInt]

end Formula

open Formula

section DoubleShift

variable {f filling amount : Formula} {v n : Int} {w : Nat}

theorem doubleShift?_eq (hv : filling.integral? = some v) (hn : amount.integral? = some n) :
    doubleShift? w f filling amount = if w ≤ 64 ∧ 0 ≤ n ∧ n < w ∧ n < 63 then
      some (f.mul (Word.power n.toNat) + constant (Word.shiftedIn w n.toNat v)) else none := by
  unfold doubleShift?
  simp only [hv, hn, Option.bind_eq_bind, Option.bind_some]
  by_cases inside : w ≤ 64 ∧ 0 ≤ n ∧ n < w ∧ n < 63
  · rw [if_neg (by omega), if_pos inside]
    by_cases still : n = 0
    · -- a shift of a whole word is taken care of apart
      subst still
      simp [Word.shiftedIn, Word.power, Nat.mod_one]
    · rw [if_neg still, BitVec.toNat_ushiftRight, Nat.shiftRight_eq_div_pow]
      rfl
  · rw [if_pos (by omega), if_neg inside]
    rfl

theorem doubleShift?_isSome_iff (hfill : filling.WellFormed) (hamount : amount.WellFormed) :
    (doubleShift? w f filling amount).isSome = true ↔
      w ≤ 64 ∧ ∃ v n : Int, filling.IsInteger v ∧ amount.IsInteger n ∧ 0 ≤ n ∧ n < w ∧ n < 63 := by
  constructor
  · intro found
    cases hv : filling.integral? with
    | none => simp [doubleShift?, hv] at found
    | some v => cases hn : amount.integral? with
      | none => simp [doubleShift?, hv, hn] at found
      | some n =>
        rw [doubleShift?_eq hv hn, Option.isSome_ite] at found
        exact ⟨found.1, v, n, (integral?_eq_some_iff hfill).mp hv,
          (integral?_eq_some_iff hamount).mp hn, found.2⟩
  · rintro ⟨hw, v, n, hv, hn, range⟩
    rw [doubleShift?_eq ((integral?_eq_some_iff hfill).mpr hv) ((integral?_eq_some_iff hamount).mpr hn),
      if_pos ⟨hw, range⟩]
    rfl

/-- A double shift by a constant, filled from a constant, has a result exactly where the width is at
most 64 and the amount is below it and below 63. On integers the result, unless it overflows, is the
upper half of both operands side by side, shifted left. -/
theorem doubleShift?_funnel (hf : f.WellFormed) (hfi : f.Plain) (hfill : filling.WellFormed)
    (hamount : amount.WellFormed) :
    ((doubleShift? w f filling amount).isSome = true ↔
      w ≤ 64 ∧ ∃ v n : Int, filling.IsInteger v ∧ amount.IsInteger n ∧ 0 ≤ n ∧ n < w ∧ n < 63) ∧
    ∀ v n h, filling.IsInteger v → amount.IsInteger n → doubleShift? w f filling amount = some h →
      h.overflow = false → ∀ z : TermKey → ℤ, z .constant = 1 →
        ∃ a b : ℤ, f.value z = a ∧ h.value z = b ∧
          BitVec.ofInt w b = Word.funnel (BitVec.ofInt w a) (BitVec.ofInt w v) n.toNat := by
  refine ⟨doubleShift?_isSome_iff hfill hamount, fun v n h hv hn found ho z hz => ?_⟩
  rw [doubleShift?_eq ((integral?_eq_some_iff hfill).mpr hv) ((integral?_eq_some_iff hamount).mpr hn),
    Option.ite_none_right_eq_some] at found
  obtain ⟨⟨hw, _, below, below'⟩, hh⟩ := found
  cases hh
  have whole : (constant (Word.shiftedIn w n.toNat v)).WellFormed :=
    wellFormed_ofTerm _ (Coeff.reduced_ofInt (Word.fits_shiftedIn (by omega) v)) _
  have shifted : (f.mul (Word.power n.toNat)).WellFormed := hf.scale _
  obtain ⟨a, value, _⟩ := value_eq_word hfi z
  refine ⟨a, a * Word.power n.toNat + Word.shiftedIn w n.toNat v, value, ?_,
    Word.ofInt_shift_add hw (by omega) a v⟩
  rw [value_eq_evaluate, evaluate_add _ shifted whole ho,
    evaluate_mul _ hf (overflow_of_add ho).1, ← value_eq_evaluate, ← value_eq_evaluate, value,
    value_constant hz, mul_comm]
  push_cast
  rfl

theorem doubleShift?_funnel_ones :
    let r : Formula := .register ⟨0x10, 0⟩ ⟨.listed 20, 0, 63⟩
    (∃ h, doubleShift? 64 r (.constant (-1)) (.constant 62) = some h ∧
      ∃ b : ℤ, h.value Operation.three = b ∧
        BitVec.ofInt 64 b = Word.funnel (BitVec.ofInt 64 3) (BitVec.ofInt 64 (-1)) 62) ∧
    doubleShift? 64 r (.constant (-1)) (.constant 63) = none ∧
    doubleShift? 64 r ((Formula.constant 1).div 2) (.constant 1) = none ∧
    doubleShift? 65 r (.constant (-1)) (.constant 1) = none := by
  intro r
  have wf : r.WellFormed := by decide
  have plain : r.Plain := plain_register _ _
  have held : r.value Operation.three = 3 := by
    have unknown := evaluate_ofTerm (fun k => (Operation.three k : ℚ))
      (.register ⟨0x10, 0⟩ ⟨.listed 20, 0, 63⟩) .one (some ⟨0x10, 0⟩)
    have three : Operation.three (.register ⟨0x10, 0⟩ ⟨.listed 20, 0, 63⟩) = 3 := rfl
    rw [value_eq_evaluate]
    refine unknown.trans ?_
    norm_num [three, Coeff.toRat, Coeff.one]
  have found : doubleShift? 64 r (.constant (-1)) (.constant 62) =
      some (r.mul (Word.power 62) + .constant (Word.shiftedIn 64 62 (-1))) := by decide
  obtain ⟨_, funnels⟩ := doubleShift?_funnel (w := 64) wf plain
    (by decide : (Formula.constant (-1)).WellFormed) (by decide : (Formula.constant 62).WellFormed)
  obtain ⟨a, b, ha, hb, same⟩ := funnels (-1) 62 _ (isInteger_constant (by decide))
    (isInteger_constant (by decide)) found (by decide) Operation.three rfl
  have register : a = 3 := by exact_mod_cast ha.symm.trans held
  rw [register] at same
  exact ⟨⟨_, found, b, hb, same⟩, by decide, by decide, by decide⟩

end DoubleShift

end AddressFormulas
