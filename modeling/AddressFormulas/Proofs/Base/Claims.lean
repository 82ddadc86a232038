import AddressFormulas.Proofs.Base.Values
import AddressFormulas.Proofs.Walk.Claiming
import AddressFormulas.Proofs.Walk.Safety
import AddressFormulas.Proofs.Walk.Supply

namespace AddressFormulas.Base

open WalkM

variable {settings : Settings} {g : Graph} {w : Walk BaseState}

structure At (vs : List (Slot × Formula)) (defs : Table Site Formula) (w : Walk BaseState) : Prop where
  values : w.client.values.newestFirst = vs
  definitions : w.client.definitions = defs
  stop : w.bounds.stop = 0

/-- Comes to an end, if at all, with an answer and a state of which `Q` holds. -/
abbrev yields {α : Type} (m : M α) (Q : α → Walk BaseState → Prop) (w : Walk BaseState) : Prop :=
  wp m Q (fun _ _ => True) w

section Claims

variable {vs : List (Slot × Formula)} {defs : Table Site Formula}

theorem tell_yields (h : At vs defs w) (e : Event) :
    yields (tell e) (fun _ w' => At vs defs w') w :=
  ⟨h.values, h.definitions, h.stop⟩

theorem classify_yields (h : At vs defs w) (u : MicroOp) :
    yields (classify u) (fun effect w' => effect = u.effect ∧ At vs defs w') w := by
  refine (wp_classify u).mpr ?_
  exact ⟨rfl, h.values, h.definitions, h.stop⟩

theorem push_yields (h : At vs defs w) {r : Register} (hr : r.isWhole = true) (f : Formula) :
    yields (push r f) (fun _ w' => At ((.register r, f) :: vs) defs w') w := by
  have present : r.isAbsent = false := by
    simp [Register.isAbsent, (Register.isWhole_iff.mp hr).1]
  refine ⟨?_, h.definitions, h.stop⟩
  change (w.client.values.push r f).newestFirst = _
  rw [Pending.push, present, ← h.values]
  rfl

theorem giveUp_yields (hs : settings.strict = false) {failure : Failure}
    (hf : failure.isCoverageGap = true) (h : At vs defs w) (f : Formula) :
    yields (giveUp settings failure f) (fun f' w' => f' = f ∧ At vs defs w') w := by
  rw [giveUp, hs]
  refine wp_bind.mpr ((wp_report hf).mpr ?_)
  exact ⟨rfl, h.values, h.definitions, h.stop⟩

theorem combine_yields (h : At vs defs w) (u : MicroOp) (unknown f₁ f₂ : Formula) :
    yields (combine u unknown f₁ f₂)
      (fun f w' => f = combined u unknown f₁ f₂ ∧ At vs defs w') w := by
  have told : ∀ e f, yields (tell e >>= fun _ => (pure f : M Formula))
      (fun f' w' => f' = f ∧ At vs defs w') w := fun e f =>
    wp_bind.mpr (wp_imp (tell_yields h e) fun _ _ h' => ⟨rfl, h'⟩)
  unfold combine combined
  generalize u.operation = op
  cases op with
  | sub =>
    dsimp only
    split
    · exact told _ _
    · exact ⟨rfl, h⟩
  | not =>
    cases f₁.constantValue? with
    | some c => exact ⟨rfl, h⟩
    | none => exact ⟨rfl, h⟩
  | xor =>
    by_cases hsame : f₁.sameTerms f₂ = true
    · simp only [hsame, if_true]
      exact told _ _
    · simp only [hsame]
      exact ⟨rfl, h⟩
  | _ => exact ⟨rfl, h⟩

variable {P : Register → Formula → Prop} {top : List (Register × Formula)}

theorem claim_supplied {r : Register} {rs : List Register} (hs : Supplies P (r :: rs) top)
    (h : At (puts top ++ vs) defs w) :
    yields (claim r) (fun f? w' => ∃ f top', f? = some f ∧ P r f ∧ Supplies P rs top' ∧
      At (puts top' ++ vs) defs w') w := by
  obtain ⟨f, top', hf, _, hs', htake⟩ := hs.take vs
  have taken : w.client.values.claim? r = some ⟨.register r, f, ⟨puts top' ++ vs⟩⟩ := by
    rw [Pending.claim?, h.values]
    exact htake
  exact wp_claim_some taken fun _ => ⟨f, top', rfl, hf, hs', rfl, h.definitions, h.stop⟩

theorem leaTerms_yields {es : List (TermKey × Term)} (sum : Formula)
    (hs : Supplies P (es.filterMap termRegister?) top) (h : At (puts top ++ vs) defs w) :
    yields (leaTerms es sum) (fun f w' => (∃ fs, List.Forall₂ P (es.filterMap termRegister?) fs ∧
      f = leaSum es fs sum) ∧ At vs defs w') w := by
  induction es generalizing sum top w with
  | nil =>
    obtain rfl := hs.nil
    exact ⟨⟨[], .nil, rfl⟩, h⟩
  | cons e es ih =>
    obtain ⟨key, t⟩ := e
    cases key with
    | register site r =>
      refine wp_bind.mpr (wp_imp (claim_supplied (r := r) hs h) ?_)
      rintro _ w' ⟨f, top', rfl, hf, hs', h'⟩
      refine wp_imp (ih _ hs' h') ?_
      rintro _ w'' ⟨⟨fs, hfs, rfl⟩, h''⟩
      exact ⟨⟨f :: fs, .cons hf hfs, rfl⟩, h''⟩
    | _ =>
      refine wp_imp (ih _ hs h) ?_
      rintro _ w'' ⟨⟨fs, hfs, rfl⟩, h''⟩
      exact ⟨⟨fs, hfs, by rw [leaSum]; simp⟩, h''⟩

variable {u : MicroOp} {d : Register}

def operandClaims (u : MicroOp) (o : Operand) : List Register :=
  (u.operandRegister? o).toList.map Register.canonical

theorem claimed_eq_flatMap (hu : u.IsArithmetic d) :
    claimed u = u.sources.flatMap (operandClaims u) := by
  rw [claimed_arithmetic hu, sourceRegisters_eq hu, List.map_flatMap]
  rfl

theorem operandValue_yields (hu : u.IsArithmetic d) {i : Nat} {o : Operand}
    (ho : u.sources[i]? = some o) {rs : List Register}
    (hs : Supplies P (operandClaims u o ++ rs) top) (h : At (puts top ++ vs) defs w) :
    yields (operandValue u i) (fun f? w' => ∃ f fs top', f? = some f ∧
      List.Forall₂ P (operandClaims u o) fs ∧
      (∀ os fs', operandFormulas (o :: os) (fs ++ fs') = f :: operandFormulas os fs') ∧
      Supplies P rs top' ∧ At (puts top' ++ vs) defs w') w := by
  unfold operandValue
  rw [ho]
  obtain ⟨v, rfl⟩ | ⟨r, rfl, hr⟩ := hu.sources o (List.mem_of_getElem? ho)
  · exact ⟨.constant v, [], top, rfl, .nil, fun _ _ => rfl, hs, h⟩
  · refine wp_imp (claim_supplied (r := r.canonical) hs h) ?_
    rintro _ w' ⟨f, top', rfl, hf, hs', h'⟩
    exact ⟨f, [f], top', rfl, .cons hf .nil, fun _ _ => rfl, hs', h'⟩

theorem valueSources_arithmetic (hu : u.IsArithmetic d) : u.valueSources = u.sources.length := by
  have none : ∀ o ∈ u.sources.reverse, o.isFlagOrStatus = false := by
    intro o ho
    obtain ⟨v, rfl⟩ | ⟨r, rfl, hr⟩ := hu.sources o (List.mem_reverse.mp ho)
    · rfl
    · simp [Operand.isFlagOrStatus, Register.isFlagOrStatus, (Register.isWhole_iff.mp hr).1]
  unfold MicroOp.valueSources
  cases hrev : u.sources.reverse with
  | nil => simp [← List.length_reverse, hrev]
  | cons o os =>
    rw [List.dropWhile_cons_of_neg (by simp [none o (by simp [hrev])]), ← hrev, List.length_reverse]

theorem folded_of_operands {reg : Register} (hu : u.IsArithmetic d)
    (hnormal : u.effect ≠ .easy) (fs : List Formula) : folded u reg fs =
      match operandFormulas u.sources fs with
      | [f₁] => combined u (.register u.site reg) f₁ .zero
      | [f₁, f₂] => combined u (.register u.site reg) f₁ f₂
      | _ => .register u.site reg := by
  unfold folded
  dsimp only
  rw [if_neg hnormal]
  split
  · next m hm =>
    obtain ⟨v, h⟩ | ⟨r, h, _⟩ := hu.sources (.memory m) (by simp [hm])
    · cases h
    · cases h
  · rfl

theorem normalValue_arithmetic (hu : u.IsArithmetic d) (hnormal : u.effect ≠ .easy)
    (reg : Register) (hs : Supplies P (claimed u) top) (h : At (puts top ++ vs) defs w) :
    yields (normalValue settings u reg) (fun f w' => (∃ fs, List.Forall₂ P (claimed u) fs ∧
      f = folded u reg fs) ∧ At vs defs w') w := by
  have notLea : u.kind ≠ .lea := by
    obtain hk | hk | hk := hu.kind <;> simp [hk]
  have valid : u.operation ≠ .invalid := by
    intro hop
    have := hu.operands
    simp [hop, Operation.arity?] at this
  have count := valueSources_arithmetic hu
  rw [claimed_eq_flatMap hu] at hs ⊢
  unfold normalValue
  dsimp only
  -- arithmetic has one operand or two, and each takes what was put for it in turn
  obtain ⟨o, ho, hop⟩ | ⟨o₁, o₂, ho⟩ := sources_arithmetic hu
  · have one : u.valueSources = 1 := by rw [count, ho]; rfl
    rw [if_neg (by simp [one]), if_neg notLea, if_neg valid]
    rw [ho, List.flatMap_singleton, ← List.append_nil (operandClaims u o)] at hs
    refine wp_bind.mpr (wp_imp (operandValue_yields hu (by simp [ho]) hs h) ?_)
    rintro _ w₁ ⟨f₁, fs, top', rfl, hfs, hoperands, hs', h'⟩
    obtain rfl := hs'.nil
    dsimp only
    rw [if_neg (by simp [one])]
    unfold twoSourceValue
    rw [if_neg (by simp [one]), if_pos hop]
    refine wp_imp (combine_yields h' u _ f₁ .zero) ?_
    rintro _ w₂ ⟨rfl, h''⟩
    refine ⟨⟨fs, by rw [ho, List.flatMap_singleton]; exact hfs, ?_⟩, h''⟩
    have operands := hoperands [] []
    rw [List.append_nil] at operands
    rw [folded_of_operands hu hnormal, ho, operands]
    rfl
  · have two : u.valueSources = 2 := by rw [count, ho]; rfl
    have both : u.sources.flatMap (operandClaims u) =
        operandClaims u o₁ ++ (operandClaims u o₂ ++ []) := by
      rw [ho]
      rfl
    rw [if_neg (by simp [two]), if_neg notLea, if_neg valid]
    rw [both] at hs ⊢
    refine wp_bind.mpr (wp_imp (operandValue_yields hu (by simp [ho]) hs h) ?_)
    rintro _ w₁ ⟨f₁, fs₁, top₁, rfl, hfs₁, hoperands₁, hs₁, h₁⟩
    dsimp only
    rw [if_neg (by simp [two])]
    unfold twoSourceValue
    rw [if_pos (by simp [two])]
    refine wp_bind.mpr (wp_imp (operandValue_yields hu (by simp [ho]) hs₁ h₁) ?_)
    rintro _ w₂ ⟨f₂, fs₂, top₂, rfl, hfs₂, hoperands₂, hs₂, h₂⟩
    obtain rfl := hs₂.nil
    refine wp_imp (combine_yields h₂ u _ f₁ f₂) ?_
    rintro _ w₃ ⟨rfl, h₃⟩
    refine ⟨⟨fs₁ ++ (fs₂ ++ []), List.rel_append hfs₁ (List.rel_append hfs₂ .nil), ?_⟩, h₃⟩
    rw [folded_of_operands hu hnormal, ho, hoperands₁, hoperands₂]
    rfl

theorem normalValue_lea {m : MemoryOperand} (hu : u.IsLea d m) (hnormal : u.effect ≠ .easy)
    (reg : Register) (hs : Supplies P (claimed u) top) (h : At (puts top ++ vs) defs w) :
    yields (normalValue settings u reg) (fun f w' => (∃ fs, List.Forall₂ P (claimed u) fs ∧
      f = folded u reg fs) ∧ At vs defs w') w := by
  have one : u.valueSources = 1 := by
    unfold MicroOp.valueSources
    rw [hu.sources]
    rfl
  have claims : claimed u = (u.addressFormula m).terms.entries.filterMap termRegister? := by
    rw [claimed, hu.sources]
  have value : ∀ fs, folded u reg fs = leaSum (u.addressFormula m).terms.entries fs .zero := by
    intro fs
    rw [folded, if_neg hnormal, hu.sources]
  rw [claims] at hs ⊢
  unfold normalValue
  dsimp only
  rw [if_neg (by simp [one]), if_pos hu.kind, hu.sources, one]
  simp only [List.head?_cons, if_true, value]
  exact leaTerms_yields .zero hs h

theorem easyValue_yields (hs : settings.strict = false) (heasy : u.effect = .easy)
    (reg : Register) (fs : List Formula) (h : At vs defs w) :
    yields (easyValue settings u reg) (fun f w' => f = folded u reg fs ∧ At vs defs w') w := by
  unfold easyValue folded
  dsimp only
  rw [if_pos heasy]
  by_cases hmove : u.kind = .move ∨ u.kind = .copy
  · have moves : ¬(u.kind ≠ .move ∧ u.kind ≠ .copy) := by
      obtain hk | hk := hmove <;> simp [hk]
    rw [if_neg moves]
    cases u.immediates with
    | nil =>
      obtain hk | hk := hmove <;> rw [hk] <;> exact giveUp_yields hs rfl h _
    | cons v vs' => cases vs' with
      | nil => obtain hk | hk := hmove <;> rw [hk] <;> exact ⟨rfl, h⟩
      | cons v' vs' => obtain hk | hk := hmove <;> rw [hk] <;> exact giveUp_yields hs rfl h _
  · rw [if_pos ⟨fun hk => hmove (.inl hk), fun hk => hmove (.inr hk)⟩]
    refine wp_imp (giveUp_yields hs rfl h _) ?_
    rintro _ w' ⟨rfl, h'⟩
    refine ⟨?_, h'⟩
    split
    · next hk _ => exact absurd (.inl hk) hmove
    · next hk _ => exact absurd (.inr hk) hmove
    · rfl

theorem definitionValue_yields (hs : settings.strict = false) {b i : Nat} (hu : u.Computes d)
    (reg : Register) (hsup : Supplies P (claimed u) top) (h : At (puts top ++ vs) defs w) :
    yields (definitionValue settings g ⟨b, i, u⟩ reg) (fun f w' =>
      (∃ fs, List.Forall₂ P (claimed u) fs ∧ f = folded u reg fs) ∧ At vs defs w') w := by
  refine wp_bind.mpr (wp_imp (classify_yields h u) ?_)
  rintro _ w₁ ⟨rfl, h₁⟩
  by_cases hnone : u.sourceRegisters = []
  · have heasy : u.effect = .easy := by rw [hu.effect_eq, if_pos hnone]
    have none : claimed u = [] := by
      have perm := hu.claimed_perm
      rw [hnone] at perm
      exact List.perm_nil.mp perm
    rw [none] at hsup ⊢
    obtain rfl := hsup.nil
    rw [heasy]
    refine wp_imp (easyValue_yields hs heasy reg [] h₁) ?_
    rintro _ w₂ ⟨rfl, h₂⟩
    exact ⟨⟨[], .nil, rfl⟩, h₂⟩
  · have hnormal : u.effect = .normal := by rw [hu.effect_eq, if_neg hnone]
    have hard : u.effect ≠ .easy := by simp [hnormal]
    rw [hnormal]
    obtain hu | ⟨m, hu⟩ := hu
    · exact normalValue_arithmetic hu hard reg hsup h₁
    · exact normalValue_lea hu hard reg hsup h₁

end Claims

end AddressFormulas.Base
