import AddressFormulas.Base.Fold
import AddressFormulas.Proofs.Formula.Value
import AddressFormulas.Proofs.Machine.Run

namespace AddressFormulas

namespace Word

theorem ofInt_product (x y : Int) :
    BitVec.ofInt 64 (product x y) = BitVec.ofInt 64 x * BitVec.ofInt 64 y := by
  rw [← BitVec.ofInt_mul]
  apply BitVec.eq_of_toInt_eq
  simp [product, wrap, modulus]

theorem power_mul (x : BitVec 64) (n : Nat) : ((power n : Int) : BitVec 64) * x = x <<< n := by
  have two : ((power n : Int) : BitVec 64) = BitVec.twoPow 64 n := by
    change BitVec.ofInt 64 (power n : Int) = _
    rw [BitVec.ofInt_natCast]
    apply BitVec.eq_of_toNat_eq
    simp [power, BitVec.toNat_twoPow]
  rw [two, BitVec.shiftLeft_eq_mul_twoPow, mul_comm]

theorem toNat_ofInt_of_lt {b : Int} (h₀ : 0 ≤ b) (h₁ : b < 64) :
    (BitVec.ofInt 64 b).toNat % 64 = b.toNat := by
  rw [BitVec.toNat_ofInt]
  omega

end Word

namespace Formula

structure Means (ρ : TermKey → BitVec 64) (f : Formula) (v : BitVec 64) : Prop where
  plain : f.Plain
  word : f.overflow = false → f.word ρ = v

variable {ρ : TermKey → BitVec 64} {f g : Formula} {a b : BitVec 64}

theorem means_zero (ρ : TermKey → BitVec 64) : zero.Means ρ 0 := ⟨plain_zero, fun _ => rfl⟩

theorem means_constant (hρ : ρ .constant = 1) (v : Int) :
    (constant v).Means ρ (BitVec.ofInt 64 v) :=
  ⟨plain_constant v, fun _ => word_constant ρ hρ v⟩

theorem means_register (site : Site) (reg : Register) :
    (register site reg).Means ρ (ρ (.register site reg)) :=
  ⟨plain_register site reg, fun _ => word_register ρ site reg⟩

theorem Means.add (hf : f.Means ρ a) (hg : g.Means ρ b) : (f + g).Means ρ (a + b) := by
  refine ⟨hf.plain.add hg.plain, fun ho => ?_⟩
  obtain ⟨hof, hog⟩ := overflow_of_add ho
  rw [word_add ρ hf.plain hg.plain ho, hf.word hof, hg.word hog]

theorem Means.sub (hf : f.Means ρ a) (hg : g.Means ρ b) : (f - g).Means ρ (a - b) := by
  refine ⟨hf.plain.sub hg.plain, fun ho => ?_⟩
  obtain ⟨hof, hog⟩ := overflow_of_sub ho
  rw [word_sub ρ hf.plain hg.plain ho, hf.word hof, hg.word (overflow_of_mapCoeffs hog)]

theorem Means.scale (hf : f.Means ρ a) {c : Coeff} (hc : c.den = 1) :
    (f.scale c).Means ρ (c.num * a) := by
  refine ⟨hf.plain.scale hc, fun ho => ?_⟩
  rw [word_scale ρ hf.plain hc ho, hf.word (overflow_of_scale ho)]

theorem Means.mul (hf : f.Means ρ a) (k : Int) : (f.mul k).Means ρ (BitVec.ofInt 64 k * a) :=
  hf.scale rfl

theorem Means.addTerm (hf : f.Means ρ a) (key : TermKey) {c : Coeff} (hc : c.den = 1)
    (origin : Option Site) : (f.addTerm key c origin).Means ρ (a + c.num * ρ key) := by
  refine ⟨hf.plain.addTerm hc, fun ho => ?_⟩
  rw [word_addTerm ρ hf.plain hc ho, hf.word (overflow_of_addTerm ho)]

theorem Means.of_constantValue? (hρ : ρ .constant = 1) (hf : f.Means ρ a) {c : Coeff}
    (hc : f.constantValue? = some c) : a = BitVec.ofInt 64 c.value := by
  have settled : f.overflow = false := by
    unfold constantValue? at hc
    split at hc
    · cases hc
    · next h => simpa using h
  obtain ⟨den, num⟩ := word_of_constantValue? ρ hρ hf.plain hc
  rw [← hf.word settled, num, value_of_den den]
  rfl

theorem Means.of_integral? (hρ : ρ .constant = 1) (hf : f.Means ρ a) {v : Int}
    (hv : f.integral? = some v) : a = BitVec.ofInt 64 v := by
  obtain ⟨c, hc, hv⟩ := Option.bind_eq_some_iff.mp hv
  simp only [Coeff.integral?, Option.ite_none_left_eq_some, Option.some.injEq] at hv
  rw [hf.of_constantValue? hρ hc, ← hv.2]

end Formula

namespace Operation

open Formula

variable {ρ : TermKey → BitVec 64} {op : Operation} {f g h : Formula} {a b v : BitVec 64}

theorem onWords?_sound {x y z : Int} (hv : op.onBits? [BitVec.ofInt 64 x, BitVec.ofInt 64 y] = some v)
    (hy : op = .sll → 0 ≤ y) (hz : op.onWords? x y = some z) : BitVec.ofInt 64 z = v := by
  cases op <;> simp only [onBits?, Option.some.injEq, reduceCtorEq] at hv <;>
    simp only [onWords?, Option.some.injEq, reduceCtorEq, Option.ite_none_right_eq_some] at hz
  case and => rw [← hz, ← hv]; exact BitVec.ofInt_toInt
  case or => rw [← hz, ← hv]; exact BitVec.ofInt_toInt
  case xor => rw [← hz, ← hv]; exact BitVec.ofInt_toInt
  case andn =>
    rw [← hz, ← hv]
    simp only [Word.conjunction, Word.complement, Word.bits, BitVec.ofInt_toInt]
  case orn =>
    rw [← hz, ← hv]
    simp only [Word.disjunction, Word.complement, Word.bits, BitVec.ofInt_toInt]
  case xnor =>
    rw [← hz, ← hv]
    simp only [Word.exclusive, Word.complement, Word.bits, BitVec.ofInt_toInt]
  case mul =>
    rw [← hz, ← hv]
    exact Word.ofInt_product x y
  case sll =>
    obtain ⟨hlt, hz⟩ := hz
    rw [← hz, ← hv, Word.toNat_ofInt_of_lt (hy rfl) hlt]
    exact BitVec.ofInt_toInt

theorem byConstant?_sound (hf : f.Means ρ a) {y : Int} (hy : op = .sll → 0 ≤ y)
    (hv : op.onBits? [a, BitVec.ofInt 64 y] = some v) (hh : op.byConstant? f y = some h) :
    h.Means ρ v := by
  cases op <;> simp only [onBits?, Option.some.injEq, reduceCtorEq] at hv <;>
    simp only [byConstant?, reduceCtorEq, Option.ite_none_right_eq_some, Option.some.injEq,
      Option.map_eq_some_iff] at hh
  case or =>
    obtain ⟨rfl, rfl⟩ := hh
    rw [← hv]
    simpa using hf
  case andn =>
    obtain ⟨rfl, rfl⟩ := hh
    have all : a &&& ~~~BitVec.ofInt 64 0 = a := by
      rw [show ~~~BitVec.ofInt 64 0 = BitVec.allOnes 64 by decide, BitVec.and_allOnes]
    rw [← hv, all]
    exact hf
  case mul =>
    rw [← hv, ← hh, mul_comm]
    exact hf.mul y
  case sll =>
    obtain ⟨k, hk, rfl⟩ := hh
    simp only [shiftFactor?, Option.ite_none_right_eq_some, Option.some.injEq] at hk
    obtain ⟨hlt, rfl⟩ := hk
    rw [← hv, Word.toNat_ofInt_of_lt (hy rfl) (by omega), ← Word.power_mul]
    exact hf.mul _

theorem ofConstant?_sound (hg : g.Means ρ b) {x : Int}
    (hv : op.onBits? [BitVec.ofInt 64 x, b] = some v) (hh : op.ofConstant? x g = some h) :
    h.Means ρ v := by
  cases op <;> simp only [onBits?, Option.some.injEq, reduceCtorEq] at hv <;>
    simp only [ofConstant?, reduceCtorEq, Option.ite_none_right_eq_some, Option.some.injEq] at hh
  case or =>
    obtain ⟨rfl, rfl⟩ := hh
    rw [← hv]
    simpa using hg
  case mul =>
    rw [← hv, ← hh]
    exact hg.mul x

theorem onFormulas?_sound (hρ : ρ .constant = 1) (hf : f.Means ρ a) (hg : g.Means ρ b)
    (hv : op.onBits? [a, b] = some v) (hh : op.onFormulas? f g = some h) : h.Means ρ v := by
  unfold onFormulas? at hh
  extract_lets a? b? folded? at hh
  have second : ∀ y, b? = some y → b = BitVec.ofInt 64 y ∧ (op = .sll → 0 ≤ y) := by
    intro y hy
    obtain ⟨hy, hshift⟩ := Option.filter_eq_some_iff.mp hy
    refine ⟨hg.of_integral? hρ hy, ?_⟩
    rintro rfl
    simpa [isShift] using hshift
  have first : ∀ x, a? = some x → a = BitVec.ofInt 64 x := fun x hx => hf.of_integral? hρ hx
  have folded : ∀ z, folded? = some z → BitVec.ofInt 64 z = v := by
    intro z hz
    obtain ⟨x, hx, hz⟩ := Option.bind_eq_some_iff.mp hz
    obtain ⟨y, hy, hz⟩ := Option.bind_eq_some_iff.mp hz
    obtain ⟨rfl, hy⟩ := second y hy
    obtain rfl := first x hx
    exact onWords?_sound hv hy hz
  clear_value folded? a? b?
  cases folded? with
  | some z =>
    obtain rfl := Option.some.inj hh
    rw [← folded z rfl]
    exact means_constant hρ z
  | none => cases b? with
    | some y =>
      obtain ⟨rfl, hy⟩ := second y rfl
      exact byConstant?_sound hf hy hv hh
    | none => cases a? with
      | some x =>
        obtain rfl := first x rfl
        exact ofConstant?_sound hg hv hh
      | none => cases hh

end Operation

end AddressFormulas
