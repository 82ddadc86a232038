import AddressFormulas.Proofs.Loop.Chain
import AddressFormulas.Proofs.Stride.Bookkeeping
import AddressFormulas.Proofs.Stride.Combining
import Mathlib.Algebra.Order.BigOperators.Group.List

namespace AddressFormulas

theorem Word.fits_of_natAbs_lt {z : Int} (h : z.natAbs < 2 ^ 63) : Word.fits z = true := by
  have bounds : -0x8000000000000000 ≤ z ∧ z < 0x8000000000000000 := by omega
  exact Bool.and_eq_true_iff.mpr ⟨decide_eq_true bounds.1, decide_eq_true bounds.2⟩

theorem Coeff.reduce?_of_fits {n : Int} (h : Word.fits n = true) :
    Coeff.reduce? n 1 = some (.ofInt n) := by
  have one : Word.fits 1 = true := by decide
  simp [reduce?, ofInt, h, one]

namespace Formula

variable {x y : Int}

theorem constant_of_ne (hx : x ≠ 0) :
    constant x = { terms := ⟨[(.constant, ⟨.ofInt x, none⟩)]⟩ } := by
  have nonzero : (Coeff.ofInt x).isZero = false := decide_eq_false hx
  rw [constant, ofTerm, addTerm_of_none nonzero rfl]
  rfl

theorem access_constant (x : Int) : (constant x).access = {} := access_addTerm _ _ _

theorem overflow_constant (x : Int) : (constant x).overflow = false := overflow_ofTerm _ _ _

theorem addTerm_constant (h : Word.fits (x + y) = true) :
    (constant x).addTerm .constant (.ofInt y) none = constant (x + y) := by
  by_cases hx : x = 0
  · rw [hx, Int.zero_add]
    rfl
  by_cases hy : y = 0
  · rw [hy, Int.add_zero]
    rfl
  have nonzero : (Coeff.ofInt y).isZero = false := decide_eq_false hy
  have found : (constant x).terms.get? .constant = some ⟨.ofInt x, none⟩ := by
    rw [constant_of_ne hx]
    rfl
  have sum : (Coeff.ofInt x).add? (.ofInt y) = some (.ofInt (x + y)) := by
    simpa [Coeff.add?, Coeff.ofInt] using Coeff.reduce?_of_fits h
  unfold addTerm
  rw [nonzero, found]
  dsimp only
  rw [sum]
  by_cases hxy : x + y = 0
  · simp only [hxy, constant_of_ne hx]
    rfl
  · have nonzero' : (Coeff.ofInt (x + y)).isZero = false := decide_eq_false hxy
    simp only [nonzero', constant_of_ne hx, constant_of_ne hxy]
    rfl

theorem constant_add (h : Word.fits (x + y) = true) :
    constant x + constant y = constant (x + y) := by
  have terms : ((constant x).addTerms (constant y).terms.entries) = constant (x + y) := by
    by_cases hy : y = 0
    · rw [hy, Int.add_zero]
      rfl
    · rw [constant_of_ne hy]
      exact addTerm_constant h
  change { (constant x).addTerms (constant y).terms.entries with
    access := ((constant x).addTerms (constant y).terms.entries).access.merge (constant y).access
    overflow := ((constant x).addTerms (constant y).terms.entries).overflow ||
      (constant y).overflow } = constant (x + y)
  rw [terms, access_constant y, overflow_constant y]
  -- constants are neither marked nor overflowed
  have access := access_constant (x + y)
  have settled := overflow_constant (x + y)
  generalize constant (x + y) = f at access settled ⊢
  cases f
  cases access
  cases settled
  rfl

theorem constant_neg (h : Word.fits (-x) = true) : -constant x = constant (-x) := by
  by_cases hx : x = 0
  · rw [hx]
    rfl
  · have neg : (Coeff.ofInt x).neg? = some (.ofInt (-x)) := if_pos h
    change (constant x).mapCoeffs Coeff.neg? = _
    rw [constant_of_ne hx, constant_of_ne (by omega)]
    simp [mapCoeffs, mapEntries, neg]

theorem constant_sub (h : Word.fits (-y) = true) (h' : Word.fits (x - y) = true) :
    constant x - constant y = constant (x - y) := by
  change constant x + -constant y = _
  rw [Int.sub_eq_add_neg] at h' ⊢
  rw [constant_neg h, constant_add h']

theorem constant_scale_one (h : Word.fits x = true) : (constant x).scale .one = constant x := by
  by_cases hx : x = 0
  · rw [hx]
    rfl
  · have mul : (Coeff.ofInt x).mul? .one = some (.ofInt x) := by
      simpa [Coeff.mul?, Coeff.ofInt, Coeff.one] using Coeff.reduce?_of_fits h
    change (constant x).mapCoeffs (·.mul? .one) = _
    rw [constant_of_ne hx]
    simp [mapCoeffs, mapEntries, mul]

end Formula

namespace MicroOp

/-- By how much a move, or a sum or difference with an immediate, changes a value. -/
def step (u : MicroOp) : Int :=
  match u.operation, u.immediates with
  | .add, [c] => c
  | .sub, [c] => -c
  | _, _ => 0

/-- An operation that is not taken for a translation. Some are with the immediate zero. -/
def Reshapes (u : MicroOp) : Prop :=
  u.operation ∈ [.mul, .div, .and, .xor, .orn, .xnor, .not] ∨
    u.operation ∈ [.or, .andn, .sll, .srl, .sra] ∧ ∃ c ∈ u.immediates, c ≠ 0

theorem PassesOn.immediates_cases {u : MicroOp} {s d : Register} (h : u.PassesOn s d) :
    u.immediates = [] ∧ (u.operation = .mov ∨ u.operation = .not) ∨
      ∃ c, u.immediates = [c] ∧ u.sources = [.register s, .immediate c] := by
  obtain ⟨hs, hop⟩ | ⟨c, hs⟩ := h.sources_cases
  · exact .inl ⟨by simp [immediates, hs, Operand.immediate?], hop⟩
  · exact .inr ⟨c, by rw [immediates, hs]; rfl, hs⟩

end MicroOp

namespace Stride

open WalkM Formula

namespace Operands

variable {o : Operands} {op : Operation} {count : Nat} {unknown irregular : Formula}

structure OpenFirst (o : Operands) : Prop where
  first : o.k₁ = .partialSum
  second : o.k₂ = .invariant

namespace OpenFirst

variable (h : o.OpenFirst)

include h

theorem joined_eq : o.joined = .partialSum := by rw [joined, h.first]; rfl

theorem eitherPartial_eq : o.eitherPartial = true := by simp [eitherPartial, h.first]

theorem withBoth? {a b : Int} {r : Formula × StrideKind}
    (hr : o.withBoth? op a b irregular = some r) : r = (irregular, .partialSum) := by
  obtain ⟨v, _, rfl⟩ := Option.map_eq_some_iff.mp hr
  simp [h.first, h.joined_eq]

theorem unknownOr_eq : o.unknownOr unknown irregular = (irregular, .partialSum) := by
  simp [unknownOr, h.eitherPartial_eq, h.joined_eq]

theorem result_kind : (o.result op count unknown).2 = .partialSum :=
  (result_joined fun _ => .inl h.second).trans h.joined_eq

theorem result_irregular
    (hop : op ∈ [.mul, .div, .and, .xor, .orn, .xnor, .not] ∨
      op ∈ [.or, .andn, .sll, .srl, .sra] ∧ ∀ c, o.c₂ = some c → c.value ≠ 0) :
    (o.result op count unknown).1 = unknown.markIrregular := by
  have first := h.first
  have either := h.eitherPartial_eq
  have second : ∀ c r, o.c₂ = some c →
      o.withSecond? op count c.value unknown unknown.markIrregular = some r →
      r.1 = unknown.markIrregular := by
    intro c r hc hr
    have nonzero : op ∈ [.or, .andn, .sll, .srl, .sra] → c.value ≠ 0 := by
      intro hop'
      obtain hop | ⟨_, hv⟩ := hop
      · exfalso
        revert hop hop'
        cases op <;> decide
      · exact hv c hc
    cases op <;> simp only [withSecond?, scaled] at hr <;> grind
  have one : ∀ v r, o.withFirst? op v unknown.markIrregular = some r → r.1 = unknown.markIrregular := by
    intro v r hr
    cases op <;> simp only [withFirst?, scaled] at hr <;> grind
  have other : (o.other op count unknown unknown.markIrregular).1 = unknown.markIrregular := by
    apply other_induction (P := fun r => r.1 = unknown.markIrregular)
    · rw [h.unknownOr_eq]
    · exact second
    · exact one
    · exact fun _ _ r _ _ hr => by rw [h.withBoth? hr]
  have changes : o.result op count unknown = o.other op count unknown unknown.markIrregular := by
    cases op <;> first | rfl | simp at hop
  rw [changes]
  exact other

end OpenFirst

end Operands

def passedWith (u : MicroOp) : StrideValue :=
  match u.immediates with
  | c :: _ => { formula := .constant c }
  | [] => { formula := .zero }

theorem passedWith_kind (u : MicroOp) : (passedWith u).kind = .invariant := by
  unfold passedWith
  split <;> rfl

theorem passedWith_target (u : MicroOp) : (passedWith u).target = 0 := by
  unfold passedWith
  split <;> rfl

def passedValue (u : MicroOp) (reg : Register) (f : Formula) (target : Nat) : StrideValue :=
  combine u reg u.sources.length 1 ⟨f, .partialSum, target⟩ none (passedWith u)

/-- The open sum `f`, passed on by the micro-ops from the last to the first, starts with zero. -/
inductive PartialSum : List MicroOp → Formula → Prop
  | start : PartialSum [] .zero
  | pass {u : MicroOp} {us : List MicroOp} {f : Formula} (reg : Register) : PartialSum us f →
      PartialSum (u :: us) (settledFormula u reg (passedValue u reg f 0))

section Passed

variable {u : MicroOp} {reg : Register} {f : Formula} {target : Nat}

theorem settle_open (u : MicroOp) (f : Formula) (target : Nat) (v : StrideValue)
    (hv : v.kind = .invariant) : settle u 1 ⟨f, .partialSum, target⟩ v =
      { f₁ := f, k₁ := .partialSum, c₁ := f.constantValue?
        f₂ := v.formula, k₂ := .invariant, c₂ := v.formula.constantValue? } := by
  obtain ⟨g, k, t⟩ := v
  cases hv
  rfl

theorem openFirst_passed (u : MicroOp) (f : Formula) (target : Nat) :
    (settle u 1 ⟨f, .partialSum, target⟩ (passedWith u)).OpenFirst := by
  rw [settle_open u f target _ (passedWith_kind u)]
  exact ⟨rfl, rfl⟩

theorem passedValue_kind : (passedValue u reg f target).kind = .partialSum :=
  (openFirst_passed u f target).result_kind

theorem passedValue_target : (passedValue u reg f target).target = target := by
  change earlier target (passedWith u).target = target
  rw [passedWith_target, earlier]
  split
  · next h => exact h.symm
  · rfl

theorem passedValue_formula : (passedValue u reg f target).formula = (passedValue u reg f 0).formula := by
  unfold passedValue combine
  rw [settle_open u f target _ (passedWith_kind u), settle_open u f 0 _ (passedWith_kind u)]

theorem passedValue_marked : (passedValue u reg f target).formula =
    let r := ((settle u 1 ⟨f, .partialSum, target⟩ (passedWith u)).result u.operation u.sources.length
      (.register u.site reg)).1
    { r with
      access := r.access.merge ((Access.merge {} f.access).merge (passedWith u).formula.access) } := by
  unfold passedValue combine operandAccess
  rw [settle_open u f target _ (passedWith_kind u)]
  simp

theorem settledFormula_passed : settledFormula u reg (passedValue u reg f target) =
    settledFormula u reg (passedValue u reg f 0) := by
  unfold settledFormula
  rw [passedValue_formula]

theorem irregular_passed (hf : f.access.irregular = true) :
    (settledFormula u reg (passedValue u reg f target)).access.irregular = true := by
  unfold settledFormula
  split
  · rfl
  · rw [passedValue_marked]
    simp [Access.merge, hf]

theorem constantValue?_constant {c : Int} {q : Coeff}
    (h : (constant c).constantValue? = some q) : q.value = c := by
  have plain := plain_constant c
  by_cases hc : c = 0
  · subst hc
    cases h
    rfl
  · rw [constant_of_ne hc] at h
    have sum : Coeff.zero.add? (.ofInt c) = some q := by
      simpa [constantValue?, TermKey.isConstant] using h
    rw [Coeff.add?_eq rfl rfl sum]
    simp [Coeff.value, Coeff.zero, Coeff.ofInt]

theorem irregular_of_reshapes {s d : Register} (hu : u.PassesOn s d) (h : u.Reshapes) :
    (settledFormula u reg (passedValue u reg f target)).access.irregular = true := by
  unfold settledFormula
  split
  · rfl
  · have nonzero : ∀ c ∈ u.immediates, c ≠ 0 → ∀ q,
        (settle u 1 ⟨f, .partialSum, target⟩ (passedWith u)).c₂ = some q → q.value ≠ 0 := by
      intro c hc hne q hq
      rw [settle_open u f target _ (passedWith_kind u)] at hq
      obtain ⟨none, _⟩ | ⟨c', only, _⟩ := hu.immediates_cases
      · simp [none] at hc
      · obtain rfl : c = c' := by simpa [only] using hc
        rw [passedWith, only] at hq
        rw [constantValue?_constant hq]
        exact hne
    rw [passedValue_marked, (openFirst_passed u f target).result_irregular
      (h.imp_right fun ⟨hop, c, hc, hne⟩ => ⟨hop, nonzero c hc hne⟩)]
    simp [Access.merge, markIrregular]

theorem PartialSum.pass_drop {us : List MicroOp} {t : Nat} (hu : us[t]? = some u) (reg : Register)
    (h : PartialSum (us.drop (t + 1)) f) :
    PartialSum (us.drop t) (settledFormula u reg (passedValue u reg f 0)) := by
  obtain ⟨inside, rfl⟩ := List.getElem?_eq_some_iff.mp hu
  rw [List.drop_eq_getElem_cons inside]
  exact .pass reg h

theorem PartialSum.irregular {us : List MicroOp} (h : PartialSum us f)
    (hus : ∀ u ∈ us, ∃ s d, u.PassesOn s d) (hreshapes : ∃ u ∈ us, u.Reshapes) :
    f.access.irregular = true := by
  induction h with
  | start =>
    obtain ⟨_, hu, _⟩ := hreshapes
    cases hu
  | @pass u us f reg _ ih =>
    obtain ⟨v, hv, reshapes⟩ := hreshapes
    obtain rfl | hv := List.mem_cons.mp hv
    · obtain ⟨s, d, passes⟩ := hus v List.mem_cons_self
      exact irregular_of_reshapes passes reshapes
    · exact irregular_passed (ih (fun w hw => hus w (List.mem_cons_of_mem u hw)) ⟨v, hv, reshapes⟩)

theorem step_cases {s d : Register} (hu : u.PassesOn s d)
    (hop : u.operation = .add ∨ u.operation = .sub ∨ u.operation = .mov) :
    ∃ c, (passedWith u).formula = constant c ∧
      ((u.operation = .add ∨ u.operation = .mov) ∧ u.step = c ∨ u.operation = .sub ∧ u.step = -c) := by
  obtain ⟨none, hmov | hnot⟩ | ⟨c, only, hs⟩ := hu.immediates_cases
  · exact ⟨0, by rw [passedWith, none]; rfl, .inl ⟨.inr hmov, by simp [MicroOp.step, none, hmov]⟩⟩
  · simp [hnot] at hop
  · have constant : (passedWith u).formula = constant c := by rw [passedWith, only]
    obtain hadd | hsub | hmov := hop
    · exact ⟨c, constant, .inl ⟨.inl hadd, by simp [MicroOp.step, only, hadd]⟩⟩
    · exact ⟨c, constant, .inr ⟨hsub, by simp [MicroOp.step, only, hsub]⟩⟩
    · have sources := hu.sources
      simp [hmov, hs] at sources

theorem passedValue_step {s d : Register} (hu : u.PassesOn s d)
    (hop : u.operation = .add ∨ u.operation = .sub ∨ u.operation = .mov) {x : Int}
    (hstep : Word.fits u.step = true) (hsum : Word.fits (x + u.step) = true) :
    (passedValue u reg (constant x) target).formula = constant (x + u.step) := by
  obtain ⟨c, hc, hcases⟩ := step_cases hu hop
  have first := openFirst_passed u (constant x) target
  have value : ((settle u 1 ⟨constant x, .partialSum, target⟩ (passedWith u)).result u.operation
      u.sources.length (.register u.site reg)).1 = constant (x + u.step) := by
    rw [settle_open u (constant x) target _ (passedWith_kind u), hc] at first ⊢
    obtain ⟨hop, hs⟩ | ⟨hop, hs⟩ := hcases
    · rw [hs] at hsum
      rw [hs, ← constant_add hsum]
      obtain hop | hop := hop <;> rw [hop] <;> rfl
    · rw [hs] at hsum hstep
      rw [hs, ← Int.sub_eq_add_neg] at *
      rw [← constant_sub hstep hsum, hop]
      rfl
  rw [passedValue_marked, value, hc, access_constant, access_constant]
  have access := access_constant (x + u.step)
  generalize constant (x + u.step) = g at access ⊢
  cases g
  cases access
  rfl

theorem natAbs_sum_step_le (us : List MicroOp) :
    (us.map MicroOp.step).sum.natAbs ≤ (us.map fun u => u.step.natAbs).sum := by
  simpa [Function.comp_def] using
    List.le_sum_of_subadditive Int.natAbs le_rfl Int.natAbs_add_le (us.map MicroOp.step)

theorem PartialSum.affine {us : List MicroOp} (h : PartialSum us f)
    (hus : ∀ u ∈ us, (∃ s d, u.PassesOn s d) ∧
      (u.operation = .add ∨ u.operation = .sub ∨ u.operation = .mov))
    (hsum : (us.map fun u => u.step.natAbs).sum < 2 ^ 63) :
    f = constant (us.map MicroOp.step).sum := by
  induction h with
  | start => rfl
  | @pass u us f reg _ ih =>
    rw [List.map_cons, List.sum_cons] at hsum ⊢
    have earlier := natAbs_sum_step_le us
    obtain ⟨⟨s, d, passes⟩, hop⟩ := hus u List.mem_cons_self
    rw [ih (fun v hv => hus v (List.mem_cons_of_mem u hv)) (by omega), settledFormula,
      passedValue_step passes hop (Word.fits_of_natAbs_lt (by omega))
        (Word.fits_of_natAbs_lt (by omega)), overflow_constant, Int.add_comm]
    rfl

end Passed

section Value

variable {task : Task} {w : Walk StrideState} {l : Ledger} {u : MicroOp} {s d : Register}
  {f : Formula} {site : Site} {target : Nat} {vs : List (Slot × ValueSource)}
  (hu : u.PassesOn s d) (hf : (l.notes site).formula = some f)
  (hkind : (l.notes site).kind = .partialSum)

include hu

theorem secondOperand_passed (hw : ledger w = l) :
    yields (secondOperand task u u.sources.length 1)
      (fun v? w' => v? = some (passedWith u) ∧ ledger w' = l) w := by
  unfold secondOperand
  obtain ⟨hs, hop⟩ | ⟨c, hs⟩ := hu.sources_cases
  · have translates : ¬(u.operation ≠ .mov ∧ u.operation ≠ .not) := fun h => hop.elim h.1 h.2
    rw [hs, if_neg (by simp), if_neg translates]
    refine ⟨?_, hw⟩
    rw [passedWith, MicroOp.immediates, hs]
    rfl
  · rw [hs, if_pos (by simp), operandValue, hs]
    refine ⟨?_, hw⟩
    rw [passedWith, MicroOp.immediates, hs]
    rfl

include hf hkind

theorem definitionValue_passed (reg : Register) (hw : ledger w =
      { l with values := (.register s.canonical, .definition site target) :: vs }) :
    yields (definitionValue task u reg) (fun v w' =>
      v = passedValue u reg f target ∧ ledger w' = { l with values := vs }) w := by
  have count : u.sources.length = 1 ∨ u.sources.length = 2 := by
    obtain ⟨hs, _⟩ | ⟨c, hs⟩ := hu.sources_cases <;> simp [hs]
  have notLea : u.kind ≠ .lea := by
    obtain hk | hk | hk := hu.kind <;> simp [hk]
  have first : u.sources[0]? = some (.register s) := by
    obtain ⟨hs, _⟩ | ⟨c, hs⟩ := hu.sources_cases <;> simp [hs]
  refine wp_bind.mpr (wp_imp (classify_yields u w) ?_)
  rintro _ w₁ ⟨rfl, h₁⟩
  rw [hu.effect_eq]
  unfold normalValue
  dsimp only
  rw [hu.valueSources_eq, if_neg (by omega), if_neg notLea, if_neg hu.modelled]
  have supplies : Supplies (fun _ source => source = ValueSource.definition site target)
      [s.canonical] [(s.canonical, .definition site target)] :=
    ⟨.refl _, by simpa using isPlain_canonical hu.whole, by simp⟩
  refine wp_bind.mpr (wp_imp (operandValue_register first hu.whole supplies (h₁.trans hw)) ?_)
  rintro _ w₂ ⟨_, top, rfl, rfl, _, none, h₂⟩
  obtain rfl := none.nil
  have value : l.valueOf u s.canonical (.definition site target) = ⟨f, .partialSum, target⟩ := by
    simp [Ledger.valueOf, hf, hkind]
  dsimp only
  rw [if_neg (by omega), if_neg (by omega), value]
  refine wp_bind.mpr (wp_imp (secondOperand_passed hu h₂) ?_)
  rintro _ w₃ ⟨rfl, h₃⟩
  exact ⟨rfl, h₃⟩

end Value

end Stride

end AddressFormulas
