import AddressFormulas.Proofs.Base.Fold
import AddressFormulas.Proofs.Formula.Marks
import AddressFormulas.Stride.Combine

namespace AddressFormulas

namespace Stride

open Formula

/-- What a formula says about the values `x` in the iterations from `n` on. An open sum is the
difference to the values `y` at the cycle start, `e` iterations before. -/
structure Describes (ρ : TermKey → BitVec 64) (n : Nat) (y : Nat → BitVec 64) (e : Nat)
    (kind : StrideKind) (f : Formula) (x : Nat → BitVec 64) : Prop where
  plain : f.Plain
  holds : f.Clean → ∀ t, n ≤ t →
    match kind with
    | .invariant => x t = f.word ρ
    | .stride => x (t + 1) = x t + f.word ρ
    | .partialSum => x (t + e) = y t + f.word ρ

variable {ρ : TermKey → BitVec 64} {n e : Nat} {x x₁ x₂ y : Nat → BitVec 64} {f : Formula}
  {u : MicroOp}

/-- The unknown that stands for source `k` of a micro-op is its value once the value is constant. -/
def Names (ρ : TermKey → BitVec 64) (n : Nat) (u : MicroOp) (k : Nat) (x : Nat → BitVec 64) : Prop :=
  (∀ t, n ≤ t → x (t + 1) = x t) → ∀ t, n ≤ t → x t = (operandFormula u k).word ρ

theorem plain_operandFormula (u : MicroOp) (k : Nat) : (operandFormula u k).Plain := by
  unfold operandFormula
  split
  · exact plain_constant _
  · split
    · exact plain_register _ _
    · exact plain_zero
  · exact plain_zero

theorem describes_named {k : Nat} (hρ : ρ .constant = 1) (h : Describes ρ n y e .stride f x)
    (hname : Names ρ n u k x) (hzero : f.constantValue?.all (!·.isZero) = false) :
    Describes ρ n y e .invariant (f + operandFormula u k) x := by
  refine ⟨h.plain.add (plain_operandFormula u k), fun clean t ht => ?_⟩
  have zero : f.word ρ = 0 := by
    obtain ⟨c, hc, hz⟩ : ∃ c, f.constantValue? = some c ∧ c.num = 0 := by
      cases hc : f.constantValue? with
      | none => simp [hc] at hzero
      | some c => exact ⟨c, rfl, by simpa [hc, Coeff.isZero] using hzero⟩
    rw [(word_of_constantValue? ρ hρ h.plain hc).2, hz]
    rfl
  have constant : ∀ t, n ≤ t → x (t + 1) = x t := by
    intro t ht
    have step := h.holds (Clean.of_add clean).1 t ht
    simpa [zero] using step
  change x t = _
  rw [word_add ρ h.plain (plain_operandFormula u k) clean.settled, zero, zero_add]
  exact hname constant t ht

theorem Describes.mark {kind : StrideKind} {access : Access} (hplain : f.Plain)
    (h : access = {} → f.Clean → Describes ρ n y e kind f x) :
    Describes ρ n y e kind { f with access := f.access.merge access } x := by
  refine ⟨⟨hplain.ascending, hplain.integral⟩, fun clean => ?_⟩
  obtain ⟨unmarked, empty⟩ := Access.merge_eq_empty.mp clean.unmarked
  have clean : f.Clean := ⟨clean.settled, unmarked⟩
  exact (h empty clean).holds clean

section Arithmetic

variable {k₁ k₂ : StrideKind} {f₁ f₂ : Formula} (h₁ : Describes ρ n y e k₁ f₁ x₁)
  (h₂ : Describes ρ n y e k₂ f₂ x₂)

include h₁ h₂

theorem Describes.add (hk : k₁ = k₂ ∧ k₁ ≠ .partialSum ∨ k₁ = .partialSum ∧ k₂ = .invariant ∨
    k₁ = .invariant ∧ k₂ = .partialSum) :
    Describes ρ n y e (k₁.join k₂) (f₁ + f₂) fun t => x₁ t + x₂ t := by
  refine ⟨h₁.plain.add h₂.plain, fun clean t ht => ?_⟩
  obtain ⟨c₁, c₂⟩ := Clean.of_add clean
  have first := h₁.holds c₁
  have second := h₂.holds c₂
  rw [word_add ρ h₁.plain h₂.plain clean.settled]
  obtain ⟨rfl, hne⟩ | ⟨rfl, rfl⟩ | ⟨rfl, rfl⟩ := hk
  · cases k₁ with
    | invariant =>
      change x₁ t + x₂ t = _
      rw [first t ht, second t ht]
    | stride =>
      change x₁ (t + 1) + x₂ (t + 1) = x₁ t + x₂ t + _
      rw [first t ht, second t ht, add_add_add_comm]
    | partialSum => exact absurd rfl hne
  · change x₁ (t + e) + x₂ (t + e) = _
    rw [first t ht, second (t + e) (by omega), add_assoc]
  · change x₁ (t + e) + x₂ (t + e) = _
    rw [first (t + e) (by omega), second t ht, add_left_comm]

theorem Describes.sub (hk : k₁ = k₂ ∧ k₁ ≠ .partialSum ∨ k₁ = .partialSum ∧ k₂ = .invariant) :
    Describes ρ n y e k₁ (f₁ - f₂) fun t => x₁ t - x₂ t := by
  refine ⟨h₁.plain.sub h₂.plain, fun clean t ht => ?_⟩
  obtain ⟨c₁, c₂⟩ := Clean.of_sub clean
  have first := h₁.holds c₁
  have second := h₂.holds c₂
  rw [word_sub ρ h₁.plain h₂.plain clean.settled]
  obtain ⟨rfl, hne⟩ | ⟨rfl, rfl⟩ := hk
  · cases k₁ with
    | invariant =>
      change x₁ t - x₂ t = _
      rw [first t ht, second t ht]
    | stride =>
      change x₁ (t + 1) - x₂ (t + 1) = x₁ t - x₂ t + _
      rw [first t ht, second t ht, add_sub_add_comm]
    | partialSum => exact absurd rfl hne
  · change x₁ (t + e) - x₂ (t + e) = _
    rw [first t ht, second (t + e) (by omega), add_sub_assoc]

end Arithmetic

theorem describes_shifted {f₁ f₂ : Formula} (h₁ : Describes ρ n y e .stride f₁ x₁)
    (h₂ : Describes ρ n y e .invariant f₂ x₂) (hc : f₂.Clean) :
    Describes ρ n y e .stride f₁ (fun t => x₁ t + x₂ t) ∧
      Describes ρ n y e .stride f₁ (fun t => x₁ t - x₂ t) ∧
      Describes ρ n y e .stride (-f₁) (fun t => x₂ t - x₁ t) := by
  have constant : ∀ t, n ≤ t → x₂ (t + 1) = x₂ t := fun t ht =>
    (h₂.holds hc (t + 1) (by omega)).trans (h₂.holds hc t ht).symm
  refine ⟨⟨h₁.plain, fun clean t ht => ?_⟩, ⟨h₁.plain, fun clean t ht => ?_⟩,
    h₁.plain.neg, fun clean t ht => ?_⟩
  · change x₁ (t + 1) + x₂ (t + 1) = x₁ t + x₂ t + _
    rw [h₁.holds clean t ht, constant t ht, add_right_comm]
  · change x₁ (t + 1) - x₂ (t + 1) = x₁ t - x₂ t + _
    rw [h₁.holds clean t ht, constant t ht, add_sub_right_comm]
  · change x₂ (t + 1) - x₁ (t + 1) = x₂ t - x₁ t + _
    rw [h₁.holds clean.of_neg t ht, constant t ht, word_neg ρ h₁.plain clean.settled]
    rw [sub_add_eq_sub_sub, sub_eq_add_neg]

theorem operandAccess_eq_empty {o : Operands} (h : operandAccess o none = {}) :
    o.irregular = false ∧ o.f₁.access = {} ∧ o.f₂.access = {} := by
  simp only [operandAccess, Access.mk.injEq, Bool.or_eq_false_iff] at h
  obtain ⟨⟨regular, irregular⟩, indirect⟩ := h
  have merged : (Access.merge {} o.f₁.access).merge o.f₂.access = {} :=
    Access.mk.injEq _ _ _ _ |>.mpr ⟨regular, indirect⟩
  obtain ⟨first, second⟩ := Access.merge_eq_empty.mp merged
  exact ⟨irregular, (Access.merge_eq_empty.mp first).2, second⟩

section Plain

variable {o : Operands}

theorem plain_settle (second : Nat) {o₁ o₂ : StrideValue} (h₁ : o₁.formula.Plain)
    (h₂ : o₂.formula.Plain) :
    (settle u second o₁ o₂).f₁.Plain ∧ (settle u second o₁ o₂).f₂.Plain := by
  unfold settle
  dsimp only
  split
  · exact ⟨h₁, h₂.add (plain_operandFormula u second)⟩
  · exact ⟨h₁.add (plain_operandFormula u 0), h₂⟩
  · exact ⟨h₁, h₂⟩

theorem plain_sum (h₁ : o.f₁.Plain) (h₂ : o.f₂.Plain) : o.sum.1.Plain := by
  unfold Operands.sum
  split
  · exact h₁.add h₂
  · split
    · exact h₁.add h₂
    · split
      · exact h₁
      · exact h₂

theorem plain_difference (h₁ : o.f₁.Plain) (h₂ : o.f₂.Plain) {irregular : Formula}
    (hirregular : irregular.Plain) : (o.difference irregular).1.Plain := by
  unfold Operands.difference
  split
  · exact h₁.sub h₂
  · split
    · split
      · exact h₂.neg
      · exact hirregular
    · split
      · exact h₁
      · exact h₂.neg

end Plain

section Combine

variable (hρ : ρ .constant = 1) {second : Nat} {o₁ o₂ : StrideValue}
  (h₁ : Describes ρ n y e o₁.kind o₁.formula x₁) (h₂ : Describes ρ n y e o₂.kind o₂.formula x₂)
  (ho₁ : o₁.formula.overflow = false) (ho₂ : o₂.formula.overflow = false)
  (hname₁ : Names ρ n u 0 x₁) (hname₂ : Names ρ n u second x₂)

include hρ h₁ h₂ ho₁ ho₂ hname₁ hname₂

theorem settle_sum_describes (hsingle : ¬(o₁.kind = .partialSum ∧ o₂.kind = .partialSum))
    (haccess : operandAccess (settle u second o₁ o₂) none = {}) :
    Describes ρ n y e (settle u second o₁ o₂).sum.2 (settle u second o₁ o₂).sum.1
      fun t => x₁ t + x₂ t := by
  obtain ⟨f₁, k₁, t₁⟩ := o₁
  obtain ⟨f₂, k₂, t₂⟩ := o₂
  obtain ⟨regular, unmarked₁, unmarked₂⟩ := operandAccess_eq_empty haccess
  cases k₁ <;> cases k₂
  case invariant.invariant => exact h₁.add h₂ (.inl ⟨rfl, nofun⟩)
  case invariant.partialSum => exact h₁.add h₂ (.inr (.inr ⟨rfl, rfl⟩))
  case invariant.stride =>
    have shifted : Describes ρ n y e .stride f₂ fun t => x₁ t + x₂ t := by
      simpa only [add_comm] using (describes_shifted h₂ h₁ ⟨ho₁, unmarked₁⟩).1
    exact shifted
  case partialSum.invariant => exact h₁.add h₂ (.inr (.inl ⟨rfl, rfl⟩))
  case partialSum.partialSum => simp at hsingle
  case partialSum.stride =>
    exact h₁.add (describes_named hρ h₂ hname₂ regular) (.inr (.inl ⟨rfl, rfl⟩))
  case stride.invariant => exact (describes_shifted h₁ h₂ ⟨ho₂, unmarked₂⟩).1
  case stride.partialSum =>
    exact (describes_named hρ h₁ hname₁ regular).add h₂ (.inr (.inr ⟨rfl, rfl⟩))
  case stride.stride => exact h₁.add h₂ (.inl ⟨rfl, nofun⟩)

omit hname₁ in
theorem settle_difference_describes (hadded : o₂.kind ≠ .partialSum) (irregular : Formula)
    (haccess : operandAccess (settle u second o₁ o₂) none = {}) :
    Describes ρ n y e ((settle u second o₁ o₂).difference irregular).2
      ((settle u second o₁ o₂).difference irregular).1 fun t => x₁ t - x₂ t := by
  obtain ⟨f₁, k₁, t₁⟩ := o₁
  obtain ⟨f₂, k₂, t₂⟩ := o₂
  obtain ⟨regular, unmarked₁, unmarked₂⟩ := operandAccess_eq_empty haccess
  cases k₁ <;> cases k₂
  case invariant.invariant => exact h₁.sub h₂ (.inl ⟨rfl, nofun⟩)
  case invariant.stride => exact (describes_shifted h₂ h₁ ⟨ho₁, unmarked₁⟩).2.2
  case partialSum.invariant => exact h₁.sub h₂ (.inr ⟨rfl, rfl⟩)
  case partialSum.stride =>
    exact h₁.sub (describes_named hρ h₂ hname₂ regular) (.inr ⟨rfl, rfl⟩)
  case stride.invariant => exact (describes_shifted h₁ h₂ ⟨ho₂, unmarked₂⟩).2.1
  case stride.stride => exact h₁.sub h₂ (.inl ⟨rfl, nofun⟩)
  all_goals exact absurd rfl hadded

omit hρ h₁ h₂ ho₁ ho₂ hname₁ hname₂ in
theorem settle_difference_irregular (hk₁ : o₁.kind ≠ .partialSum) (hk₂ : o₂.kind = .partialSum)
    (hzero : o₁.formula.constantValue?.any Coeff.isZero = false) (irregular : Formula) :
    ((settle u second o₁ o₂).difference irregular).1 = irregular := by
  obtain ⟨f₁, k₁, t₁⟩ := o₁
  obtain ⟨f₂, k₂, t₂⟩ := o₂
  dsimp only at hk₁ hk₂ hzero
  subst hk₂
  cases k₁ with
  | invariant => simp [settle, Operands.difference, hzero]
  | stride => simp [settle, Operands.difference, hzero]
  | partialSum => exact absurd rfl hk₁

theorem combine_sum (hop : u.operation = .mov ∨ u.operation = .add) (reg : Register)
    (count : Nat) (hsingle : ¬(o₁.kind = .partialSum ∧ o₂.kind = .partialSum)) :
    Describes ρ n y e (combine u reg count second o₁ none o₂).kind
      (combine u reg count second o₁ none o₂).formula fun t => x₁ t + x₂ t := by
  have sum : (settle u second o₁ o₂).result u.operation count (.register u.site reg) =
      (settle u second o₁ o₂).sum := by
    obtain hop | hop := hop <;> rw [hop] <;> rfl
  obtain ⟨plain₁, plain₂⟩ := plain_settle (u := u) second h₁.plain h₂.plain
  unfold combine
  dsimp only
  rw [sum]
  refine .mark (plain_sum plain₁ plain₂) fun empty _ => ?_
  exact settle_sum_describes hρ h₁ h₂ ho₁ ho₂ hname₁ hname₂ hsingle empty

omit hname₁ in
theorem combine_difference (hop : u.operation = .sub) (reg : Register) (count : Nat)
    (hadded : o₂.kind = .partialSum → o₁.kind ≠ .partialSum ∧
      o₁.formula.constantValue?.any Coeff.isZero = false) :
    Describes ρ n y e (combine u reg count second o₁ none o₂).kind
      (combine u reg count second o₁ none o₂).formula fun t => x₁ t - x₂ t := by
  have difference : (settle u second o₁ o₂).result u.operation count (.register u.site reg) =
      (settle u second o₁ o₂).difference (Formula.register u.site reg).markIrregular := by
    rw [hop]
    rfl
  obtain ⟨plain₁, plain₂⟩ := plain_settle (u := u) second h₁.plain h₂.plain
  have plain : (Formula.register u.site reg).markIrregular.Plain :=
    ⟨(plain_register _ _).ascending, (plain_register _ _).integral⟩
  unfold combine
  dsimp only
  rw [difference]
  refine .mark (plain_difference plain₁ plain₂ plain) fun empty clean => ?_
  by_cases hk : o₂.kind = .partialSum
  · obtain ⟨hk₁, hzero⟩ := hadded hk
    have unmarked := clean.unmarked
    rw [settle_difference_irregular hk₁ hk hzero] at unmarked
    simp [markIrregular] at unmarked
  · exact settle_difference_describes hρ h₁ h₂ ho₁ ho₂ hname₂ hk _ empty

end Combine

end Stride

end AddressFormulas
