import AddressFormulas.Proofs.Stride.Mirroring
import AddressFormulas.Proofs.Stride.Skeleton
import AddressFormulas.Proofs.Walk.Claiming

namespace AddressFormulas

def StrideKind.isMixed (k₁ k₂ : StrideKind) : Bool :=
  k₁ = .partialSum && k₂ = .stride || k₁ = .stride && k₂ = .partialSum

namespace StrideState

/-- The kind of the pending value of `reg`, if `u` can see what the value is: that of a definition with
a formula, or of `u` itself, or one from outside, unless `u` defines the register. -/
def pendingKind? (st : StrideState) (u : MicroOp) (reg : Register) : Option StrideKind :=
  (st.values.claim? reg).bind fun c =>
    match c.value with
    | .outside => if (u.defines? reg).isNone then some .invariant else none
    | .definition s _ =>
      if (st.progressAt s).formula.isSome then some (st.progressAt s).kind
      else if s = u.site then some .invariant
      else none

def suppliesSum (st : StrideState) (u : MicroOp) (a b : Register) : Bool :=
  (st.pendingKind? u a).any fun k₁ => (st.pendingKind? u b).any fun k₂ => !k₁.isMixed k₂

def operand (st : StrideState) (u : MicroOp) (reg : Register) : ValueSource → StrideValue
  | .outside => { formula := .register ⟨u.pc, -1⟩ reg }
  | .definition s target =>
    match st.progress.get? s with
    | some { formula := some formula, kind, .. } => { formula, kind, target }
    | _ => { formula := .register s reg, target }

def term (st : StrideState) (u : MicroOp) (reg : Register) : ValueSource → StrideValue
  | .outside => { formula := .register u.site reg }
  | .definition s target =>
    match st.progress.get? s with
    | some { formula := some formula, kind, .. } => { formula := formula.scale .one, kind, target }
    | _ => { formula := .register u.site reg, target }

theorem suppliesSum_forget {st : StrideState} {u : MicroOp} {a b : Register}
    (h : st.suppliesSum u a b = true) :
    (st.modifyProgress u.site fun pr => { pr with formula := none }).suppliesSum u a b = true := by
  have pending : ∀ r k, st.pendingKind? u r = some k → ∃ k', (k' = k ∨ k' = .invariant) ∧
      (st.modifyProgress u.site fun pr => { pr with formula := none }).pendingKind? u r = some k' := by
    intro r k hk
    obtain ⟨c, hc, hk⟩ := Option.bind_eq_some_iff.mp hk
    have claimed : (st.modifyProgress u.site fun pr => { pr with formula := none }).values.claim? r = some c := hc
    unfold pendingKind?
    rw [claimed, Option.bind_some]
    cases hv : c.value with
    | outside =>
      rw [hv] at hk
      exact ⟨k, .inl rfl, hk⟩
    | definition s target =>
      rw [hv] at hk
      by_cases hs : s = u.site
      · exact ⟨.invariant, .inr rfl, by simp [hs, Stride.progressAt_modifyProgress]⟩
      · refine ⟨k, .inl rfl, ?_⟩
        simp only [Stride.progressAt_modifyProgress, if_neg hs] at hk ⊢
        exact hk
  obtain ⟨k₁, hk₁, h⟩ := (Option.any_eq_true _ _).mp h
  obtain ⟨k₂, hk₂, unmixed⟩ := (Option.any_eq_true _ _).mp h
  obtain ⟨k₁', same₁, hk₁'⟩ := pending a k₁ hk₁
  obtain ⟨k₂', same₂, hk₂'⟩ := pending b k₂ hk₂
  unfold suppliesSum
  rw [hk₁', hk₂']
  obtain rfl | rfl := same₁
  · obtain rfl | rfl := same₂
    · exact unmixed
    · cases k₁' <;> rfl
  · cases k₂' <;> rfl

end StrideState

def Walk.leave (w : Walk StrideState) (values : Pending ValueSource) (told : Journal) :
    Walk StrideState :=
  { w with client := { w.client with values }, journal := told ++ w.journal }

theorem Walk.leave_leave (w : Walk StrideState) (values values' : Pending ValueSource)
    (told told' : Journal) : (w.leave values told).leave values' told' = w.leave values' (told' ++ told) := by
  simp [Walk.leave]

namespace Stride

open WalkM Formula

def addressSum (v₁ v₂ : StrideValue) : StrideValue :=
  let sum := addPart (addPart { formula := .zero } v₁) v₂
  let access := (Access.merge {} v₁.formula.access).merge v₂.formula.access
  { sum with formula := { sum.formula with access := sum.formula.access.merge access } }

theorem earlier_comm (a b : Nat) : earlier a b = earlier b a := by
  unfold earlier
  split_ifs
  · omega
  · rfl
  · rfl
  · exact Nat.min_comm a b

theorem earlier_zero (a : Nat) : earlier 0 a = a := if_pos rfl

section Sum

variable {σ : KeySwap} {u : MicroOp} {v v' v₁ v₂ v₁' v₂' : StrideValue}

theorem begins (h : v.Renamed σ v') : v.Renamed σ (addPart { formula := .zero } v') := by
  obtain ⟨kind, target, formula⟩ := h
  unfold addPart
  rw [kind, target, earlier_zero]
  cases hk : v.kind with
  | stride => exact ⟨hk.symm, rfl, formula⟩
  | _ => exact ⟨hk.symm, rfl, formula.zero_add⟩

theorem target_addPart : (addPart v₁ v₂).target = earlier v₁.target v₂.target := by
  unfold addPart
  split
  · rfl
  · split
    · rfl
    · rfl

theorem sum_addPart (hmixed : v₁.kind.isMixed v₂.kind = false) (h₁ : v₁.Renamed σ v₁')
    (h₂ : v₂.Renamed σ v₂') :
    ((settle u 1 v₁ v₂).sum.2 = (addPart v₁' v₂').kind ∧
        (settle u 1 v₁ v₂).sum.1.Agrees σ (addPart v₁' v₂').formula) ∧
      (settle u 1 v₁ v₂).sum.2 = (addPart v₂' v₁').kind ∧
        (settle u 1 v₁ v₂).sum.1.Agrees σ (addPart v₂' v₁').formula := by
  obtain ⟨kind₁, _, formula₁⟩ := h₁
  obtain ⟨kind₂, _, formula₂⟩ := h₂
  have sum := (formula₁.add formula₂).agrees
  have swapped := formula₁.agrees_swap formula₂
  unfold settle addPart Operands.sum Operands.eitherPartial
  rw [kind₁, kind₂]
  cases hk₁ : v₁.kind with
  | invariant =>
    cases hk₂ : v₂.kind with
    | stride => exact ⟨⟨rfl, formula₂.agrees⟩, ⟨rfl, formula₂.agrees⟩⟩
    | _ => exact ⟨⟨rfl, sum⟩, ⟨rfl, swapped⟩⟩
  | partialSum =>
    cases hk₂ : v₂.kind with
    | stride => simp [hk₁, hk₂, StrideKind.isMixed] at hmixed
    | _ => exact ⟨⟨rfl, sum⟩, ⟨rfl, swapped⟩⟩
  | stride =>
    cases hk₂ : v₂.kind with
    | invariant => exact ⟨⟨rfl, formula₁.agrees⟩, ⟨rfl, formula₁.agrees⟩⟩
    | partialSum => simp [hk₁, hk₂, StrideKind.isMixed] at hmixed
    | stride => exact ⟨⟨rfl, sum⟩, ⟨rfl, swapped⟩⟩

theorem irregular_operandAccess (hmixed : v₁.kind.isMixed v₂.kind = false) :
    (operandAccess (settle u 1 v₁ v₂) none).irregular =
      (v₁.formula.access.irregular || v₂.formula.access.irregular) := by
  unfold settle
  cases hk₁ : v₁.kind with
  | invariant => cases v₂.kind <;> simp [operandAccess, Access.merge]
  | partialSum =>
    cases hk₂ : v₂.kind with
    | stride => simp [hk₁, hk₂, StrideKind.isMixed] at hmixed
    | _ => simp [operandAccess, Access.merge]
  | stride =>
    cases hk₂ : v₂.kind with
    | partialSum => simp [hk₁, hk₂, StrideKind.isMixed] at hmixed
    | _ => simp [operandAccess, Access.merge]

theorem combine_addressSum {reg : Register} (hadd : u.operation = .add)
    (hmixed : v₁.kind.isMixed v₂.kind = false) (h₁ : v₁.Renamed σ v₁') (h₂ : v₂.Renamed σ v₂') :
    (combine u reg 2 1 v₁ none v₂).Agrees σ (addressSum v₁' v₂') ∧
      (combine u reg 2 1 v₁ none v₂).Agrees σ (addressSum v₂' v₁') := by
  have sum : combine u reg 2 1 v₁ none v₂ =
      ⟨{ (settle u 1 v₁ v₂).sum.1 with
          access := (settle u 1 v₁ v₂).sum.1.access.merge (operandAccess (settle u 1 v₁ v₂) none) },
        (settle u 1 v₁ v₂).sum.2, earlier v₁.target v₂.target⟩ := by
    simp only [combine, hadd, Operands.result]
  have begins₁ := begins h₁
  have begins₂ := begins h₂
  obtain ⟨⟨kind, formula⟩, _⟩ := sum_addPart (u := u) hmixed begins₁ h₂
  obtain ⟨_, kind', formula'⟩ := sum_addPart (u := u) hmixed h₁ begins₂
  have irregular := irregular_operandAccess (u := u) hmixed
  rw [sum]
  constructor
  · refine ⟨kind.symm, ?_, formula.marked ?_⟩
    · exact target_addPart.trans (by rw [begins₁.target, h₂.target])
    · rw [irregular]
      simp [Access.merge, h₁.formula.irregular, h₂.formula.irregular]
  · refine ⟨kind'.symm, ?_, formula'.marked ?_⟩
    · exact target_addPart.trans (by rw [begins₂.target, h₁.target, earlier_comm])
    · rw [irregular]
      simp [Access.merge, h₁.formula.irregular, h₂.formula.irregular, Bool.or_comm]

end Sum

section Runs

variable {w : Walk StrideState} {u : MicroOp} {r : Register} {c : Claim ValueSource} {task : Task}

theorem wp_operandValue {i : Nat} {Q : Option StrideValue → Walk StrideState → Prop}
    {E : Stop → Walk StrideState → Prop} (hs : u.sources[i]? = some (.register r))
    (hh : u.hardwired? r.canonical = none) (hc : w.client.values.claim? r.canonical = some c)
    (hq : ∀ told, Q (some (w.client.operand u r.canonical c.value)) (w.leave c.rest told)) :
    wp (operandValue u i) Q E w := by
  unfold operandValue
  rw [hs]
  dsimp only
  rw [hh]
  apply wp_bind.mpr
  apply wp_claim_some hc
  intro told
  have known := hq told
  cases hv : c.value with
  | outside =>
    rw [hv] at known
    exact known
  | definition s target =>
    rw [hv] at known
    unfold StrideState.operand at known
    dsimp only at known
    apply wp_bind.mpr
    simp only [wp_client]
    generalize w.client.progress.get? s = pr? at known ⊢
    obtain _ | ⟨_, _, _ | f, _, _, _, _, _⟩ := pr?
    · exact known
    · exact known
    · exact known

theorem wp_leaPart {Q : StrideValue → Walk StrideState → Prop} {E : Stop → Walk StrideState → Prop}
    (hh : u.hardwired? r = none) (hc : w.client.values.claim? r = some c)
    (hq : ∀ told, Q (w.client.term u r c.value) (w.leave c.rest told)) :
    wp (leaPart u (.register u.site r) ⟨.one, some u.site⟩) Q E w := by
  unfold leaPart
  dsimp only
  rw [hh]
  apply wp_bind.mpr
  apply wp_claim_some hc
  intro told
  have known := hq told
  cases hv : c.value with
  | outside =>
    rw [hv] at known
    exact known
  | definition s target =>
    rw [hv] at known
    unfold StrideState.term at known
    dsimp only at known
    apply wp_bind.mpr
    simp only [wp_client]
    generalize w.client.progress.get? s = pr? at known ⊢
    obtain _ | ⟨_, _, _ | f, _, _, _, _, _⟩ := pr?
    · exact known
    · exact known
    · exact known

variable {a b : Register} (hu : u.AddsRegisters a b) {c₁ c₂ : Claim ValueSource}

include hu

theorem wp_addition {reg : Register} {Q : StrideValue → Walk StrideState → Prop}
    {E : Stop → Walk StrideState → Prop} (h₁ : w.client.values.claim? a.canonical = some c₁)
    (h₂ : c₁.rest.claim? b.canonical = some c₂)
    (hq : ∀ told, Q (combine u reg 2 1 (w.client.operand u a.canonical c₁.value) none
      (w.client.operand u b.canonical c₂.value)) (w.leave c₂.rest told)) :
    wp (definitionValue task u reg) Q E w := by
  unfold definitionValue
  apply wp_bind.mpr
  apply (wp_classify u).mpr
  rw [(hu.effect 0).1]
  have whole : ∀ r ∈ [a, b], u.hardwired? r.canonical = none := hu.hardwired?
  have first : u.sources[0]? = some (.register a) := by rw [hu.sources]; rfl
  have second : u.sources[1]? = some (.register b) := by rw [hu.sources]; rfl
  simp only [normalValue, hu.valueSources, hu.kind, hu.operation]
  simp only [combinedValue, secondOperand]
  change wp _ _ _ (w.leave w.client.values u.effectEvents.reverse)
  apply wp_bind.mpr
  apply wp_operandValue (w := w.leave w.client.values u.effectEvents.reverse) (c := c₁) first
    (whole a (by simp)) h₁
  intro told
  apply wp_bind.mpr
  apply wp_operandValue (w := (w.leave w.client.values u.effectEvents.reverse).leave c₁.rest told)
    (c := c₂) second (whole b (by simp)) h₂
  intro told'
  rw [Walk.leave_leave, Walk.leave_leave]
  exact hq _

theorem wp_address {x y reg : Register} {opidx : Int} {m : MemoryOperand}
    {Q : StrideValue → Walk StrideState → Prop} {E : Stop → Walk StrideState → Prop}
    (hm : (u.asAddress a b opidx).sources = [.memory m])
    (hterms : ((u.asAddress a b opidx).addressFormula m).terms.entries =
      [(.register u.site x, ⟨.one, some u.site⟩), (.register u.site y, ⟨.one, some u.site⟩)])
    (hx : u.hardwired? x = none) (hy : u.hardwired? y = none)
    (h₁ : w.client.values.claim? x = some c₁) (h₂ : c₁.rest.claim? y = some c₂)
    (hq : ∀ told, Q (addressSum (w.client.term u x c₁.value) (w.client.term u y c₂.value))
      (w.leave c₂.rest told)) :
    wp (definitionValue task (u.asAddress a b opidx) reg) Q E w := by
  have passes := hu.passes opidx
  have count : (u.asAddress a b opidx).valueSources = 1 := by
    unfold MicroOp.valueSources
    rw [hm]
    rfl
  have kind : (u.asAddress a b opidx).kind = .lea := rfl
  unfold definitionValue
  apply wp_bind.mpr
  apply (wp_classify _).mpr
  rw [(hu.effect opidx).2]
  simp only [normalValue, count, kind, leaValue, hm, List.head?_cons, hterms, leaTerms]
  change wp _ _ _ (w.leave w.client.values (u.asAddress a b opidx).effectEvents.reverse)
  apply wp_bind.mpr
  apply wp_leaPart (u := u.asAddress a b opidx) (w := w.leave w.client.values _) (c := c₁)
    ((passes.hardwired? x).trans hx) h₁
  intro told
  apply wp_bind.mpr
  apply wp_leaPart (u := u.asAddress a b opidx) (w := (w.leave w.client.values _).leave c₁.rest told)
    (c := c₂) ((passes.hardwired? y).trans hy) h₂
  intro told'
  rw [Walk.leave_leave, Walk.leave_leave]
  exact hq _

end Runs

section Addends

variable {σ : KeySwap} {u : MicroOp} {st st' : StrideState} {r : Register} {c : Claim ValueSource}
  {k : StrideKind}

theorem kind_operand (hc : st.values.claim? r = some c) (hk : st.pendingKind? u r = some k) :
    (st.operand u r c.value).kind = k := by
  unfold StrideState.pendingKind? at hk
  rw [hc, Option.bind_some] at hk
  cases hv : c.value with
  | outside =>
    rw [hv] at hk
    exact Option.some.inj (Option.ite_none_right_eq_some.mp hk).2
  | definition s target =>
    rw [hv] at hk
    unfold StrideState.operand
    unfold StrideState.progressAt Table.getD at hk
    dsimp only at hk ⊢
    generalize st.progress.get? s = pr? at hk ⊢
    obtain _ | ⟨_, _, _ | f, _, _, _, _, _⟩ := pr?
    · exact Option.some.inj (Option.ite_none_right_eq_some.mp hk).2
    · exact Option.some.inj (Option.ite_none_right_eq_some.mp hk).2
    · exact Option.some.inj hk

theorem operand_renamed_term (h : st.Alike σ st') (hc : st.values.claim? r = some c)
    (hk : st.pendingKind? u r = some k) (outside : u.defines? r = none → σ.site ⟨u.pc, -1⟩ r = u.site) :
    (st.operand u r c.value).Renamed σ (st'.term u r c.value) := by
  unfold StrideState.pendingKind? at hk
  rw [hc, Option.bind_some] at hk
  cases hv : c.value with
  | outside =>
    rw [hv] at hk
    have undefined := (Option.ite_none_right_eq_some.mp hk).1
    exact .of_formula (.register (outside (Option.isNone_iff_eq_none.mp undefined))) _ _
  | definition s target =>
    rw [hv] at hk
    have known := h.progress s
    have own : s = u.site → StrideValue.Renamed σ { formula := .register s r, target }
        { formula := .register u.site r, target } := by
      rintro rfl
      obtain ⟨before, after, entries, _, wanted, _⟩ := Pending.split_of_takeFirst? hc
      have named := h.named (c.slot, c.value) (by rw [entries]; simp)
      exact .of_formula (.register (named _ target hv r wanted)) _ _
    unfold StrideState.operand StrideState.term
    unfold StrideState.progressAt Table.getD at hk
    dsimp only at hk ⊢
    generalize st.progress.get? s = pr?, st'.progress.get? s = pr'? at known hk ⊢
    cases known with
    | none => exact own (Option.ite_none_right_eq_some.mp hk).1
    | @some pr pr' known =>
      have formula := known.formula
      rw [known.same]
      obtain ⟨_, _, f?, kind, _, _, _, _⟩ := pr
      dsimp only at formula hk ⊢
      generalize pr'.formula = f'? at formula ⊢
      cases formula with
      | none => exact own (Option.ite_none_right_eq_some.mp hk).1
      | some hf => exact .of_formula hf.scale_one _ _

end Addends

theorem leave_beside {spoils : Event → Prop} {σ : KeySwap} {w w' : Walk StrideState}
    (h : (Comparison.walks spoils (StrideState.Alike σ)).Beside w w') {values : Pending ValueSource}
    (hv : ∀ e ∈ values.newestFirst, e ∈ w.client.values.newestFirst) (told told' : Journal) :
    (Comparison.walks spoils (StrideState.Alike σ)).Beside (w.leave values told) (w'.leave values told') := by
  obtain ⟨alike, bounds⟩ := h
  exact ⟨alike.change (f := fun st => { st with values }) (fun _ _ => rfl) fun e he => alike.named e (hv e he),
    bounds⟩

variable {u : MicroOp} {a b : Register} (hu : u.AddsRegisters a b)

include hu

theorem sum_follows_at (opidx : Int) {spoils : Event → Prop} {σ : KeySwap} (suits : σ.Suits u a b)
    {task task' : Task} {reg : Register} {w w' : Walk StrideState}
    (h : (Comparison.walks spoils (StrideState.Alike σ)).Beside w w')
    (hs : w.client.suppliesSum u a.canonical b.canonical = true) :
    FollowsAt (.walks spoils (StrideState.Alike σ)) (StrideValue.Agrees σ) (definitionValue task u reg)
      (definitionValue task' (u.asAddress a b opidx) reg) w w' := by
  have alike : w.client.Alike σ w'.client := h.1
  obtain ⟨k₁, hk₁, hs⟩ := (Option.any_eq_true _ _).mp hs
  obtain ⟨k₂, hk₂, unmixed⟩ := (Option.any_eq_true _ _).mp hs
  have claimed : ∀ {r k}, w.client.pendingKind? u r = some k → ∃ c, w.client.values.claim? r = some c := by
    intro r k hk
    obtain ⟨c, hc, _⟩ := Option.bind_eq_some_iff.mp hk
    exact ⟨c, hc⟩
  obtain ⟨c, hc⟩ := claimed hk₁
  obtain ⟨d, hd⟩ := claimed hk₂
  obtain ⟨rest, hcd, hdc⟩ := Pending.claim?_comm hu.apart_slots hc hd
  have values : w'.client.values = w.client.values := by rw [alike.same]
  have first := operand_renamed_term alike hc hk₁ (suits.outside _ (by simp))
  have second := operand_renamed_term alike hd hk₂ (suits.outside _ (by simp))
  have mixed : (w.client.operand u a.canonical c.value).kind.isMixed
      (w.client.operand u b.canonical d.value).kind = false := by
    rw [kind_operand hc hk₁, kind_operand hd hk₂]
    simpa using unmixed
  obtain ⟨sum, swapped⟩ : (combine u reg 2 1 _ none _).Agrees σ _ ∧ _ :=
    combine_addressSum hu.operation mixed first second
  have left : ∀ e ∈ rest.newestFirst, e ∈ w.client.values.newestFirst :=
    fun e he => Pending.mem_of_takeFirst? hc (Pending.mem_of_takeFirst? hcd he)
  have beside := fun told told' => leave_beside h left told told'
  have hardwired := hu.hardwired?
  obtain ⟨m, hm, order⟩ := hu.addressFormula opidx
  apply wp_addition hu hc hcd
  intro told _
  obtain order | order := order
  · apply wp_address hu hm order (hardwired a (by simp))
      (hardwired b (by simp)) (values ▸ hc) hcd
    exact fun told' => ⟨sum, beside told told'⟩
  · apply wp_address hu hm order (hardwired b (by simp))
      (hardwired a (by simp)) (values ▸ hd) hdc
    exact fun told' => ⟨swapped, beside told told'⟩

end Stride

end AddressFormulas
