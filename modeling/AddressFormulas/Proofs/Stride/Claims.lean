import AddressFormulas.Proofs.Base.Claims
import AddressFormulas.Proofs.Stride.Operands
import AddressFormulas.Proofs.Walk.Supply

namespace AddressFormulas.Stride

open WalkM Formula Loop

abbrev yields {α : Type} (m : M α) (Q : α → Walk StrideState → Prop) (w : Walk StrideState) : Prop :=
  wp m Q (fun _ _ => True) w

abbrev M.Silent {α : Type} (m : M α) : Prop := WalkM.StopsOnly (fun _ => True) ledger m

theorem tell_silent (e : Event) : M.Silent (tell e) := .tell e fun _ => rfl

theorem classify_yields (u : MicroOp) (w : Walk StrideState) :
    yields (classify u) (fun effect w' => effect = u.effect ∧ ledger w' = ledger w) w := by
  refine (wp_classify u).mpr ?_
  exact ⟨rfl, rfl⟩

variable {task : Task} {w : Walk StrideState} {vs : List (Slot × ValueSource)}
  {P : Register → ValueSource → Prop} {top : List (Register × ValueSource)}

theorem giveUp_yields (hs : task.settings.strict = false) {failure : Failure}
    (hf : failure.isCoverageGap = true) (f : Formula) :
    yields (giveUp task failure f) (fun v w' => v = { formula := f } ∧ ledger w' = ledger w) w := by
  rw [giveUp, hs]
  refine wp_bind.mpr ((wp_report hf).mpr ?_)
  exact ⟨rfl, rfl⟩

theorem claim_supplied {l : Ledger} {r : Register} {rs : List Register}
    (hs : Supplies P (r :: rs) top) (h : ledger w = { l with values := puts top ++ vs }) :
    yields (claim r) (fun source? w' => ∃ source top', source? = some source ∧ P r source ∧
      top.Perm ((r, source) :: top') ∧ Supplies P rs top' ∧
      ledger w' = { l with values := puts top' ++ vs }) w := by
  obtain ⟨source, top', hsource, hperm, hs', htake⟩ := hs.take vs
  have values : w.client.values.newestFirst = puts top ++ vs := congrArg Ledger.values h
  have taken : w.client.values.claim? r = some ⟨.register r, source, ⟨puts top' ++ vs⟩⟩ := by
    rw [Pending.claim?, values]
    exact htake
  refine wp_claim_some taken fun _ => ⟨source, top', rfl, hsource, hperm, hs', ?_⟩
  exact congrArg (fun l' : Ledger => { l' with values := puts top' ++ vs }) h

theorem operandValue_register {l : Ledger} {u : MicroOp} {k : Nat} {r : Register} {rs : List Register}
    (ho : u.sources[k]? = some (.register r)) (hr : r.isWhole = true)
    (hs : Supplies P (r.canonical :: rs) top) (hw : ledger w = { l with values := puts top ++ vs }) :
    yields (operandValue u k) (fun v? w' => ∃ source top',
      v? = some (l.valueOf u r.canonical source) ∧ P r.canonical source ∧
      top.Perm ((r.canonical, source) :: top') ∧ Supplies P rs top' ∧
      ledger w' = { l with values := puts top' ++ vs }) w := by
  unfold operandValue
  rw [ho]
  dsimp only
  rw [Base.hardwired?_of_whole (Register.isWhole_canonical hr)]
  refine wp_bind.mpr (wp_imp (claim_supplied hs hw) ?_)
  rintro _ w' ⟨source, top', rfl, hsource, hperm, hs', hw'⟩
  cases source with
  | outside => exact ⟨_, top', rfl, hsource, hperm, hs', hw'⟩
  | definition site target =>
    have note : l.notes site = { (w'.client.progress.get? site).getD {} with tracked := none } := by
      have same : l.notes = (ledger w').notes := by rw [hw']
      rw [same]
      rfl
    have answers : ∀ v, v = l.valueOf u r.canonical (.definition site target) →
        yields (pure (some v) : M (Option StrideValue)) (fun v? w' => ∃ source top',
          v? = some (l.valueOf u r.canonical source) ∧ P r.canonical source ∧
          top.Perm ((r.canonical, source) :: top') ∧ Supplies P rs top' ∧
          ledger w' = { l with values := puts top' ++ vs }) w' := by
      rintro _ rfl
      exact ⟨_, top', rfl, hsource, hperm, hs', hw'⟩
    refine wp_bind.mpr ?_
    simp only [wp_client]
    cases hget : w'.client.progress.get? site with
    | none => exact answers _ (by simp [Ledger.valueOf, note, hget])
    | some pr =>
      obtain ⟨_, _, formula, _, _, _, _, _⟩ := pr
      cases formula with
      | none => exact answers _ (by simp [Ledger.valueOf, note, hget])
      | some f => exact answers _ (by simp [Ledger.valueOf, note, hget])

section Value

variable {ops : List MicroOp} {dest : Nat → Register} {st : Nat → Nat → Registers}
  {ρ : TermKey → BitVec 64} {closed : Finset Nat} {l : Ledger} {j : Nat} {u : MicroOp}
  (S : Scene ops dest st ρ) (h : Faithful ops dest st ρ closed l)
  (unique : ∀ s s' t, Pends ops l s t → Pends ops l s' t → s = s') (hu : ops[j]? = some u)
  (hlinear : u.IsLinear (dest j))

def Suits (ops : List MicroOp) (closed : Finset Nat) (l : Ledger) (j : Nat) (r : Register)
    (source : ValueSource) : Prop := ComesFrom ops j r source ∧ Backed ops closed l source

structure Computed (ops : List MicroOp) (dest : Nat → Register) (st : Nat → Nat → Registers)
    (ρ : TermKey → BitVec 64) (closed : Finset Nat) (l : Ledger) (j : Nat)
    (top : List (Register × ValueSource)) (vs : List (Slot × ValueSource)) (v : StrideValue)
    (l' : Ledger) : Prop where
  value : Contributes ops dest st ρ closed l j [0, 1] v (result dest st j)
  targets : ∀ e ∈ top, e.2.target ≠ 0 → v.target = e.2.target
  rest : l' = { l with values := vs }

include S h unique hu hlinear

theorem operandValue_yields {k : Nat} {o : Operand} (ho : u.sources[k]? = some o)
    (hfeed : ∀ r, o = .register r → feed? ops j k = origin? ops j r.canonical) {rs : List Register}
    (hs : Supplies (Suits ops closed l j) (Base.operandClaims u o ++ rs) top)
    (hw : ledger w = { l with values := puts top ++ vs }) :
    yields (operandValue u k) (fun v? w' => ∃ v top', v? = some v ∧
      Contributes ops dest st ρ closed l j [k] v (fun t => operandWord (st t j) o) ∧
      v.formula.overflow = false ∧
      (NonZero ops j o → v.formula.constantValue?.any Coeff.isZero = false) ∧
      (∀ e ∈ top, e ∈ top' ∨ v.target = e.2.target) ∧
      Supplies (Suits ops closed l j) rs top' ∧
      ledger w' = { l with values := puts top' ++ vs }) w := by
  obtain ⟨v, rfl⟩ | ⟨r, rfl, hr⟩ := hlinear.sources o (List.mem_of_getElem? ho)
  · unfold operandValue
    rw [ho]
    exact ⟨_, top, rfl, S.contributes_immediate v k, overflow_ofTerm _ _ _, notZero_of_constant,
      fun e he => .inl he, hs, hw⟩
  · have reads : u.sourceRegisters ≠ [] :=
      List.ne_nil_of_mem ((Base.mem_sourceRegisters hlinear.toIsArithmetic).mpr (List.mem_of_getElem? ho))
    refine wp_imp (operandValue_register ho hr hs hw) ?_
    rintro _ w' ⟨source, top', rfl, ⟨hsource, hback⟩, hperm, hs', hw'⟩
    obtain ⟨contributes, overflow⟩ :=
      h.contributes_register S unique hu hr reads (hfeed r rfl) hsource hback
    refine ⟨_, top', rfl, contributes, overflow, fun hnone => notZero_of_outside hnone hsource, ?_,
      hs', hw'⟩
    intro e he
    obtain rfl | he := List.mem_cons.mp (hperm.mem_iff.mp he)
    · exact .inr (l.target_valueOf u r.canonical source)
    · exact .inl he

variable {L : Nat} {R : Register} (hsteady : Steady ops L R) (hrel : Relevant ops L R j)
  (hlead : ∀ s t, Pends ops l s t → Leads ops s j) (hreads : u.sourceRegisters ≠ [])
  (hdiffers : u.operation = .sub → readsSameTwice u = false) (reg : Register)
  (hs : Supplies (Suits ops closed l j) (u.sources.flatMap (Base.operandClaims u)) top)
  (hw : ledger w = { l with values := puts top ++ vs })

include hreads in
omit unique in
theorem operand_named {k : Nat} {o : Operand} (ho : u.sources[k]? = some o) :
    Names ρ closed.card u k (fun t => operandWord (st t j) o) :=
  S.names h hu ho (fun _ _ => hreads) (hlinear.sources o (List.mem_of_getElem? ho))

include hdiffers in
omit S h unique in
theorem operand_feed {k : Nat} {o : Operand} (ho : u.sources[k]? = some o) (r : Register)
    (hr : o = .register r) : feed? ops j k = origin? ops j r.canonical :=
  feed?_eq_origin? hu hlinear.isLoad_eq hdiffers (hr ▸ ho)

include hsteady hrel hlead hreads hdiffers hs hw

theorem combinedValue_one {o : Operand} (ho : u.sources = [o]) :
    yields (combinedValue task u reg 1)
      (fun v w' => Computed ops dest st ρ closed l j top vs v (ledger w')) w := by
  have mov : u.operation = .mov := by
    have arity := hlinear.operands
    obtain hop | hop | hop := hlinear.linear <;> simp [hop, ho, Operation.arity?] at arity ⊢
  rw [ho, List.flatMap_singleton, ← List.append_nil (Base.operandClaims u o)] at hs
  have first : u.sources[0]? = some o := by simp [ho]
  refine wp_bind.mpr (wp_imp (operandValue_yields S h unique hu hlinear first
    (operand_feed hu hlinear hdiffers first) hs hw) ?_)
  rintro _ w₁ ⟨v, top', rfl, contributes, overflow, _, taken, hs', h₁⟩
  obtain rfl := hs'.nil
  dsimp only
  rw [if_neg (by simp)]
  unfold secondOperand
  rw [if_neg (by simp), if_neg (by simp [mov])]
  -- a move is a sum with nothing
  have nothing : Contributes ops dest st ρ closed l j [1] { formula := .zero } (fun _ => 0) :=
    .fixed rfl (fun sum => by cases sum) fun _ _ => .invariant plain_zero fun _ => rfl
  have unnamed : Names ρ closed.card u 1 (fun _ => 0) := by
    intro _ t _
    simp [operandFormula, ho]
  obtain ⟨sum, targets⟩ := contributes.sum hsteady hrel hlead S.constant (.inl mov) reg 1 nothing
    overflow rfl (operand_named S h hu hlinear hreads first) unnamed
  have results : result dest st j = fun t => operandWord (st t j) o + 0 := by
    funext t
    rw [add_zero]
    exact S.body.result_eq S.run hu hlinear.isLoad_eq t (by rw [ho, mov]; rfl)
  refine ⟨results ▸ sum, fun e he nonzero => ?_, h₁⟩
  exact targets _ nonzero (.inl ((taken e he).resolve_left List.not_mem_nil))

theorem combinedValue_two {o₁ o₂ : Operand} (ho : u.sources = [o₁, o₂]) :
    yields (combinedValue task u reg 2)
      (fun v w' => Computed ops dest st ρ closed l j top vs v (ledger w')) w := by
  have both : u.sources.flatMap (Base.operandClaims u) =
      Base.operandClaims u o₁ ++ (Base.operandClaims u o₂ ++ []) := by
    rw [ho]
    rfl
  rw [both] at hs
  have first : u.sources[0]? = some o₁ := by simp [ho]
  have second : u.sources[1]? = some o₂ := by simp [ho]
  refine wp_bind.mpr (wp_imp (operandValue_yields S h unique hu hlinear first
    (operand_feed hu hlinear hdiffers first) hs hw) ?_)
  rintro _ w₁ ⟨v₁, top₁, rfl, contributes₁, overflow₁, notZero₁, taken₁, hs₁, h₁⟩
  dsimp only
  rw [if_neg (by simp)]
  unfold secondOperand
  rw [if_pos (by simp)]
  refine wp_bind.mpr (wp_imp (operandValue_yields S h unique hu hlinear second
    (operand_feed hu hlinear hdiffers second) hs₁ h₁) ?_)
  rintro _ w₂ ⟨v₂, top₂, rfl, contributes₂, overflow₂, _, taken₂, hs₂, h₂⟩
  obtain rfl := hs₂.nil
  -- each value that was put is the operand of one side or of the other
  have claimed : ∀ e ∈ top, v₁.target = e.2.target ∨ v₂.target = e.2.target := by
    intro e he
    obtain he | he := taken₁ e he
    · exact .inr ((taken₂ e he).resolve_left List.not_mem_nil)
    · exact .inl he
  have named := operand_named S h hu hlinear hreads second
  have arity := hlinear.operands
  rw [ho] at arity
  obtain hop | hop | hop := hlinear.linear
  · simp [hop, Operation.arity?] at arity
  · obtain ⟨sum, targets⟩ := contributes₁.sum hsteady hrel hlead S.constant (.inr hop) reg 2
      contributes₂ overflow₁ overflow₂ (operand_named S h hu hlinear hreads first) named
    have results : result dest st j =
        fun t => operandWord (st t j) o₁ + operandWord (st t j) o₂ := by
      funext t
      exact S.body.result_eq S.run hu hlinear.isLoad_eq t (by rw [ho, hop]; rfl)
    exact ⟨results ▸ sum, fun e he nonzero => targets _ nonzero (claimed e he), h₂⟩
  · obtain ⟨difference, targets⟩ := contributes₁.difference hsteady hrel hlead S.constant hu hop
      reg 2 contributes₂ overflow₁ overflow₂ named (by simpa [first] using notZero₁)
    have results : result dest st j =
        fun t => operandWord (st t j) o₁ - operandWord (st t j) o₂ := by
      funext t
      exact S.body.result_eq S.run hu hlinear.isLoad_eq t (by rw [ho, hop]; rfl)
    exact ⟨results ▸ difference, fun e he nonzero => targets _ nonzero (claimed e he), h₂⟩

theorem normalValue_yields :
    yields (normalValue task u reg)
      (fun v w' => Computed ops dest st ρ closed l j top vs v (ledger w')) w := by
  have count := Base.valueSources_arithmetic hlinear.toIsArithmetic
  have notLea : u.kind ≠ .lea := by
    obtain hk | hk | hk := hlinear.kind <;> simp [hk]
  have valid : u.operation ≠ .invalid := by
    obtain hop | hop | hop := hlinear.linear <;> simp [hop]
  unfold normalValue
  dsimp only
  obtain ⟨o, ho, _⟩ | ⟨o₁, o₂, ho⟩ := Base.sources_arithmetic hlinear.toIsArithmetic
  · have one : u.valueSources = 1 := by rw [count, ho]; rfl
    rw [one, if_neg (by simp), if_neg notLea, if_neg valid]
    exact combinedValue_one S h unique hu hlinear hsteady hrel hlead hreads hdiffers reg hs hw ho
  · have two : u.valueSources = 2 := by rw [count, ho]; rfl
    rw [two, if_neg (by simp), if_neg notLea, if_neg valid]
    exact combinedValue_two S h unique hu hlinear hsteady hrel hlead hreads hdiffers reg hs hw ho

omit hs in
theorem definitionValue_yields (hs : Supplies (Suits ops closed l j) (Base.claimed u) top) :
    yields (definitionValue task u reg)
      (fun v w' => Computed ops dest st ρ closed l j top vs v (ledger w')) w := by
  have hnormal : u.effect = .normal := by
    rw [Base.effect_arithmetic hlinear.toIsArithmetic, if_neg hreads]
  refine wp_bind.mpr (wp_imp (classify_yields u w) ?_)
  rintro _ w₁ ⟨rfl, h₁⟩
  rw [hnormal]
  rw [hw] at h₁
  rw [Base.claimed_eq_flatMap hlinear.toIsArithmetic] at hs
  exact normalValue_yields S h unique hu hlinear hsteady hrel hlead hreads hdiffers reg hs h₁

end Value

section Easy

variable {ops : List MicroOp} {dest : Nat → Register} {st : Nat → Nat → Registers}
  {ρ : TermKey → BitVec 64} {j : Nat} {u : MicroOp} (S : Scene ops dest st ρ)
  (hu : ops[j]? = some u) (hlinear : u.IsLinear (dest j)) (hreads : u.sourceRegisters = [])

include hlinear hreads

theorem sources_of_easy : u.sources = u.immediates.map Operand.immediate := by
  refine Base.eq_map_immediates fun o ho => ?_
  obtain himm | ⟨r, rfl, _⟩ := hlinear.sources o ho
  · exact himm
  · have := (Base.mem_sourceRegisters hlinear.toIsArithmetic).mpr ho
    simp [hreads] at this

include S hu

theorem Scene.result_easy : ∃ c, u.operation.onBits? (u.immediates.map (BitVec.ofInt 64)) = some c ∧
    ∀ t, result dest st j t = c := by
  have hload := hlinear.isLoad_eq
  have immediates := sources_of_easy hlinear hreads
  have words : ∀ t, u.sources.map (operandWord (st t j)) = u.immediates.map (BitVec.ofInt 64) := by
    intro t
    rw [immediates, List.map_map]
    rfl
  have arity := hlinear.operands
  rw [immediates, List.length_map] at arity
  obtain ⟨c, hc⟩ : ∃ c, u.operation.onBits? (u.immediates.map (BitVec.ofInt 64)) = some c := by
    obtain hop | hop | hop := hlinear.linear <;>
      simp only [hop, Operation.arity?, Option.some.injEq] at arity ⊢
    · obtain ⟨a, ha⟩ := List.length_eq_one_iff.mp arity.symm
      exact ⟨_, by rw [ha]; rfl⟩
    · obtain ⟨a, b, hab⟩ := List.length_eq_two.mp arity.symm
      exact ⟨_, by rw [hab]; rfl⟩
    · obtain ⟨a, b, hab⟩ := List.length_eq_two.mp arity.symm
      exact ⟨_, by rw [hab]; rfl⟩
  exact ⟨c, hc, fun t => S.body.result_eq S.run hu hload t (by rw [words, hc])⟩

theorem easyValue_yields (hs : task.settings.strict = false) :
    yields (definitionValue task u (dest j).canonical) (fun v w' =>
      v.target = 0 ∧ v.kind = .invariant ∧ v.formula.overflow = false ∧
      (∀ n y e, Describes ρ n y e .invariant v.formula (result dest st j)) ∧
      ledger w' = ledger w) w := by
  -- the result is one word in all turns, so the constant and the unknown both stand for it
  obtain ⟨c, hc, constant⟩ := S.result_easy hu hlinear hreads
  have heasy : u.effect = .easy := by
    rw [Base.effect_arithmetic hlinear.toIsArithmetic, if_pos hreads]
  have unknown : ∀ {failure : Failure} {w₁ : Walk StrideState}, failure.isCoverageGap = true →
      ledger w₁ = ledger w →
      yields (giveUp task failure (.register u.site (dest j).canonical)) (fun v w' =>
        v.target = 0 ∧ v.kind = .invariant ∧ v.formula.overflow = false ∧
        (∀ n y e, Describes ρ n y e .invariant v.formula (result dest st j)) ∧
        ledger w' = ledger w) w₁ := by
    intro failure w₁ hf h₁
    refine wp_imp (giveUp_yields hs hf _) ?_
    rintro _ w₂ ⟨rfl, h₂⟩
    refine ⟨rfl, rfl, overflow_ofTerm _ _ _, fun n y e => .invariant (plain_register _ _) fun t => ?_,
      h₂.trans h₁⟩
    change _ = (Formula.register u.site (dest j).canonical).word ρ
    rw [word_register, MicroOp.site, S.results j u _ _ hu hreads, Registers.read_canonical, constant]
    exact (constant ops.length).symm
  refine wp_bind.mpr (wp_imp (classify_yields u w) ?_)
  rintro _ w₁ ⟨rfl, h₁⟩
  rw [heasy]
  dsimp only
  unfold easyValue
  dsimp only
  split
  · exact unknown rfl h₁
  split
  · next v himm =>
    refine ⟨rfl, rfl, overflow_ofTerm _ _ _, fun n y e => .invariant (plain_constant v) fun t => ?_, h₁⟩
    rw [word_constant ρ S.constant, constant]
    rw [himm] at hc
    have arity := hlinear.operands
    rw [sources_of_easy hlinear hreads, himm] at arity
    obtain hop | hop | hop := hlinear.linear
    · rw [hop] at hc
      exact (Option.some.inj hc).symm
    · simp [hop, Operation.arity?] at arity
    · simp [hop, Operation.arity?] at arity
  · exact unknown rfl h₁

end Easy

end AddressFormulas.Stride
