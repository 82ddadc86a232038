import AddressFormulas.Proofs.Stride.Combining
import AddressFormulas.Proofs.Stride.Ledger

namespace AddressFormulas.Stride

open Formula Loop

def Ledger.valueOf (l : Ledger) (u : MicroOp) (r : Register) : ValueSource → StrideValue
  | .outside => { formula := .register ⟨u.pc, -1⟩ r }
  | .definition site target =>
    match (l.notes site).formula with
    | some f => ⟨f, (l.notes site).kind, target⟩
    | none => { formula := .register site r, target }

theorem Ledger.target_valueOf (l : Ledger) (u : MicroOp) (r : Register) (source : ValueSource) :
    (l.valueOf u r source).target = source.target := by
  cases source with
  | outside => rfl
  | definition site target =>
    unfold valueOf
    dsimp only
    cases (l.notes site).formula with
    | none => rfl
    | some f => rfl

section Contributes

variable (ops : List MicroOp) (dest : Nat → Register) (st : Nat → Nat → Registers)
  (ρ : TermKey → BitVec 64)

inductive Contributes (closed : Finset Nat) (l : Ledger) (j : Nat) (ks : List Nat) (v : StrideValue)
    (x : Nat → BitVec 64) : Prop
  | fixed : v.target = 0 → v.kind ≠ .partialSum →
      (∀ y e, Describes ρ closed.card y e v.kind v.formula x) → Contributes closed l j ks v x
  | part {s k a d e : Nat} : k ∈ ks → v.target ≠ 0 → v.kind = .partialSum →
      Opens ops l s v.target → feed? ops j k = some (a, d) → Reaches ops s a e →
      Describes ρ closed.card (result dest st s) (d + e) .partialSum v.formula x →
      Contributes closed l j ks v x

end Contributes

variable {ops : List MicroOp} {dest : Nat → Register} {st : Nat → Nat → Registers}
  {ρ : TermKey → BitVec 64} {closed : Finset Nat} {l : Ledger} {j : Nat} {u : MicroOp}
  {o o₁ o₂ : StrideValue} {x x₁ x₂ : Nat → BitVec 64}

theorem Describes.invariant {n e : Nat} {y : Nat → BitVec 64} {f : Formula} (hf : f.Plain)
    (h : ∀ t, x t = f.word ρ) : Describes ρ n y e .invariant f x :=
  ⟨hf, fun _ t _ => h t⟩

theorem Describes.delay {n d e : Nat} {y z : Nat → BitVec 64} {kind : StrideKind} {f : Formula}
    (h : Describes ρ n y e kind f x) (hkind : kind ≠ .partialSum)
    (hz : ∀ t, z (t + d) = x t) (y' : Nat → BitVec 64) (e' : Nat) :
    Describes ρ (n + d) y' e' kind f z := by
  refine ⟨h.plain, fun clean t ht => ?_⟩
  obtain ⟨t, rfl⟩ : ∃ t', t = t' + d := ⟨t - d, by omega⟩
  have holds := h.holds clean t (by omega)
  cases kind with
  | invariant => exact (hz t).trans holds
  | stride =>
    change z (t + d + 1) = z (t + d) + _
    rw [Nat.add_right_comm, hz, hz]
    exact holds
  | partialSum => exact absurd rfl hkind

theorem Faithful.noted (h : Faithful ops dest st ρ closed l)
    (unique : ∀ s s' t, Pends ops l s t → Pends ops l s' t → s = s') {a target : Nat}
    {v : MicroOp} (hv : ops[a]? = some v) (hback : Backed ops closed l (.definition v.site target))
    (distinct : ∀ (i j : Nat) (u v : MicroOp), ops[i]? = some u → ops[j]? = some v →
      u.site = v.site → i = j) :
    ∃ f, (l.notes v.site).formula = some f ∧ f.overflow = false ∧
      (target = 0 ∧ (l.notes v.site).kind ≠ .partialSum ∧ 0 < closed.card ∧
        Describes ρ (closed.card - 1) (fun _ => 0) 0 (l.notes v.site).kind f (result dest st a) ∨
      target ≠ 0 ∧ (l.notes v.site).kind = .partialSum ∧
        ∃ s, Opens ops l s target ∧ Adds ops dest st ρ closed.card s a f) := by
  obtain ⟨i, v', hv', hsite, hback⟩ := hback
  obtain rfl := distinct i a v' v hv' hv hsite
  obtain ⟨zero, mem⟩ | ⟨nonzero, formula, kind, same, s, opens⟩ := hback
  · cases h.status i v hv with
    | blank _ _ _ fresh => exact absurd mem fresh
    | entered _ _ _ _ fresh => exact absurd mem fresh
    | seeded _ _ _ _ _ _ fresh => exact absurd mem fresh
    | added _ _ _ _ _ _ _ fresh => exact absurd mem fresh
    | settled _ formula overflow kind _ _ describes =>
      exact ⟨_, formula, overflow, .inl ⟨zero, kind, Finset.card_pos.mpr ⟨i, mem⟩, describes⟩⟩
  · cases h.status i v hv with
    | blank _ none => exact absurd none formula
    | entered _ _ none => exact absurd none formula
    | seeded progress _ zero _ target =>
      -- the start of the cycle itself
      obtain rfl := unique s i _ opens.pends ⟨v, hv, progress, target.symm.trans same⟩
      refine ⟨.zero, zero, rfl, .inr ⟨nonzero, kind, s, opens, 0, .here, plain_zero, ?_⟩⟩
      intro _ t _
      change result dest st s (t + 0) = result dest st s t + 0
      rw [Nat.add_zero, add_zero]
    | added _ formula overflow _ _ _ _ _ adds =>
      rw [same] at adds
      exact ⟨_, formula, overflow, .inr ⟨nonzero, kind, s, opens, adds s opens.pends⟩⟩
    | settled _ _ _ kind' => exact absurd kind kind'

theorem notZero_of_constant {v : Int} (hv : v ≠ 0) :
    (constant v).constantValue?.any Coeff.isZero = false := by
  have nonzero : (Coeff.ofInt v).isZero = false := decide_eq_false hv
  have entries : (constant v).terms.entries = [(.constant, ⟨.ofInt v, none⟩)] := by
    rw [constant, ofTerm, addTerm_of_none nonzero rfl]
    rfl
  unfold constantValue?
  rw [entries]
  split
  · rfl
  · change (Coeff.zero.add? (.ofInt v) >>= some).any Coeff.isZero = false
    cases hc : Coeff.zero.add? (.ofInt v) with
    | none => rfl
    | some c =>
      obtain rfl := Coeff.add?_eq rfl rfl hc
      exact decide_eq_false (by simpa [Coeff.zero, Coeff.ofInt] using hv)

theorem notZero_of_outside {r : Register} {source : ValueSource} (hnone : origin? ops j r = none)
    (hsource : ComesFrom ops j r source) :
    (l.valueOf u r source).formula.constantValue?.any Coeff.isZero = false := by
  cases source with
  | outside => rfl
  | definition site target =>
    obtain ⟨a, d, v, horigin, _⟩ := hsource
    cases hnone.symm.trans horigin

section Operand

variable (S : Scene ops dest st ρ) (h : Faithful ops dest st ρ closed l)
  (unique : ∀ s s' t, Pends ops l s t → Pends ops l s' t → s = s') (hu : ops[j]? = some u)

include S

theorem Scene.contributes_immediate (v : Int) (k : Nat) :
    Contributes ops dest st ρ closed l j [k] { formula := .constant v }
      (fun _ => BitVec.ofInt 64 v) :=
  .fixed rfl nofun fun _ _ => .invariant (plain_constant v) fun _ =>
    (word_constant ρ S.constant v).symm

include h unique hu

theorem Faithful.contributes_register {r : Register} {k : Nat} {source : ValueSource}
    (hr : r.isWhole = true) (hmem : u.sourceRegisters ≠ [])
    (hfeed : feed? ops j k = origin? ops j r.canonical)
    (hsource : ComesFrom ops j r.canonical source) (hback : Backed ops closed l source) :
    Contributes ops dest st ρ closed l j [k] (l.valueOf u r.canonical source)
        (fun t => (st t j).read r) ∧
      (l.valueOf u r.canonical source).formula.overflow = false := by
  have hj : j ≤ ops.length := Nat.le_of_lt (List.getElem?_eq_some_iff.mp hu).1
  have hr' := Register.isWhole_canonical hr
  cases source with
  | outside =>
    refine ⟨.fixed rfl nofun fun y e => .invariant (plain_register _ _) fun t => ?_, overflow_ofTerm _ _ _⟩
    change _ = (Formula.register ⟨u.pc, -1⟩ r.canonical).word ρ
    rw [word_register, S.reads j u _ _ hu hmem, ← Registers.read_canonical (st t j),
      S.body.read_outside S.run hr' hj hsource t, S.body.read_outside S.run hr' hj hsource]
  | definition site target =>
    obtain ⟨a, d, v, horigin, hv, rfl⟩ := hsource
    have reads : ∀ t, (st (t + d) j).read r = result dest st a t := fun t => by
      rw [← Registers.read_canonical, S.body.read_origin S.run hr' hj horigin]
    obtain ⟨f, formula, overflow, noted⟩ := h.noted unique hv hback S.distinct
    have value : l.valueOf u r.canonical (.definition v.site target) =
        ⟨f, (l.notes v.site).kind, target⟩ := by
      simp only [Ledger.valueOf, formula]
    rw [value]
    refine ⟨?_, overflow⟩
    obtain ⟨zero, kind, settled, describes⟩ | ⟨nonzero, kind, s, opens, e, reaches, adds⟩ := noted
    · have near := (Body.origin?_spec horigin).1
      refine .fixed zero kind fun y e => (describes.delay kind reads y e).mono ?_
      omega
    · refine .part (List.mem_singleton_self k) nonzero kind opens (hfeed.trans horigin) reaches ?_
      refine ⟨adds.plain, fun clean t ht => ?_⟩
      change (st (t + (d + e)) j).read r = _
      rw [Nat.add_comm d, ← Nat.add_assoc, reads]
      exact adds.holds clean t ht

omit unique in
theorem Scene.names {k : Nat} {operand : Operand} (hk : u.sources[k]? = some operand)
    (hmem : ∀ r, operand = .register r → u.sourceRegisters ≠ []) (hop : (∃ v, operand = .immediate v) ∨
      ∃ r : Register, operand = .register r ∧ r.isWhole = true) :
    Names ρ closed.card u k (fun t => operandWord (st t j) operand) := by
  intro constant
  have bounded : closed.card ≤ ops.length := by
    have sub : closed ⊆ Finset.range ops.length := fun i hi => Finset.mem_range.mpr (h.bounded i hi)
    simpa using Finset.card_le_card sub
  have settled : ∀ t, closed.card ≤ t →
      operandWord (st t j) operand = operandWord (st closed.card j) operand := by
    intro t ht
    induction t, ht using Nat.le_induction with
    | base => rfl
    | succ t ht ih => exact (constant t ht).trans ih
  intro t ht
  change operandWord (st t j) operand = _
  rw [settled t ht, ← settled ops.length bounded]
  unfold operandFormula
  rw [hk]
  obtain ⟨v, rfl⟩ | ⟨r, rfl, hr⟩ := hop
  · exact (word_constant ρ S.constant v).symm
  · change (st ops.length j).read r = (Formula.register u.site r.canonical).word ρ
    rw [word_register, MicroOp.site, S.reads j u _ _ hu (hmem r rfl), Registers.read_canonical]

end Operand

section Combine

variable {L : Nat} {R : Register} (hsteady : Steady ops L R) (hrel : Relevant ops L R j)
  (hlead : ∀ s t, Pends ops l s t → Leads ops s j)

include hlead

theorem Opens.leads {s t a e : Nat} (h : Opens ops l s t) (hr : Reaches ops s a e) :
    Leads ops a j :=
  hr.leads.trans (hlead s t h.pends)

include hsteady hrel

theorem Contributes.both {v : StrideValue} (op : BitVec 64 → BitVec 64 → BitVec 64)
    (h₁ : Contributes ops dest st ρ closed l j [0] o₁ x₁)
    (h₂ : Contributes ops dest st ρ closed l j [1] o₂ x₂)
    (hkind : v.kind = .partialSum ↔ o₁.kind = .partialSum ∨ o₂.kind = .partialSum)
    (htarget : v.target = earlier o₁.target o₂.target)
    (hsum : ∀ y e, Describes ρ closed.card y e o₁.kind o₁.formula x₁ →
      Describes ρ closed.card y e o₂.kind o₂.formula x₂ →
      ¬(o₁.kind = .partialSum ∧ o₂.kind = .partialSum) →
      (o₂.kind = .partialSum → ∃ s a d e, Opens ops l s o₂.target ∧ feed? ops j 1 = some (a, d) ∧
        Reaches ops s a e) →
      Describes ρ closed.card y e v.kind v.formula fun t => op (x₁ t) (x₂ t)) :
    Contributes ops dest st ρ closed l j [0, 1] v (fun t => op (x₁ t) (x₂ t)) ∧
      ∀ t, t ≠ 0 → o₁.target = t ∨ o₂.target = t → v.target = t := by
  cases h₁ with
  | fixed target₁ kind₁ describes₁ =>
    cases h₂ with
    | fixed target₂ kind₂ describes₂ =>
      have target : v.target = 0 := by rw [htarget, target₁, target₂]; rfl
      refine ⟨.fixed target (fun h => (hkind.mp h).elim kind₁ kind₂) fun y e => ?_, by omega⟩
      exact hsum y e (describes₁ y e) (describes₂ y e) (fun h => kind₁ h.1) fun h => absurd h kind₂
    | @part s k a d e mem nonzero kind₂ opens hf reaches describes₂ =>
      obtain rfl := List.mem_singleton.mp mem
      have target : v.target = o₂.target := by rw [htarget, target₁]; rfl
      have kind := hkind.mpr (.inr kind₂)
      have sum := hsum (result dest st s) (d + e) (describes₁ _ _) (by rw [kind₂]; exact describes₂)
        (fun h => kind₁ h.1) fun _ => ⟨s, a, d, e, opens, hf, reaches⟩
      rw [kind] at sum
      refine ⟨.part (by simp) (by rw [target]; exact nonzero) kind (by rw [target]; exact opens) hf
        reaches sum, by omega⟩
  | @part s k a d e mem nonzero kind₁ opens hf reaches describes₁ =>
    obtain rfl := List.mem_singleton.mp mem
    cases h₂ with
    | fixed target₂ kind₂ describes₂ =>
      have target : v.target = o₁.target := by
        rw [htarget, target₂, earlier, if_neg nonzero, if_pos rfl]
      have kind := hkind.mpr (.inl kind₁)
      have sum := hsum (result dest st s) (d + e) (by rw [kind₁]; exact describes₁) (describes₂ _ _)
        (fun h => kind₂ h.2) fun h => absurd h kind₂
      rw [kind] at sum
      refine ⟨.part (by simp) (by rw [target]; exact nonzero) kind (by rw [target]; exact opens) hf
        reaches sum, by omega⟩
    | part mem' _ _ opens' hf' reaches' =>
      obtain rfl := List.mem_singleton.mp mem'
      have same := hsteady.single hrel hf hf' (opens.leads hlead reaches)
        (opens'.leads hlead reaches')
      cases same

theorem Contributes.sum (hρ : ρ .constant = 1) (hop : u.operation = .mov ∨ u.operation = .add)
    (reg : Register) (count : Nat) (h₁ : Contributes ops dest st ρ closed l j [0] o₁ x₁)
    (h₂ : Contributes ops dest st ρ closed l j [1] o₂ x₂) (ho₁ : o₁.formula.overflow = false)
    (ho₂ : o₂.formula.overflow = false) (hname₁ : Names ρ closed.card u 0 x₁)
    (hname₂ : Names ρ closed.card u 1 x₂) :
    Contributes ops dest st ρ closed l j [0, 1] (combine u reg count 1 o₁ none o₂)
        (fun t => x₁ t + x₂ t) ∧
      ∀ t, t ≠ 0 → o₁.target = t ∨ o₂.target = t → (combine u reg count 1 o₁ none o₂).target = t := by
  have linear : u.operation = .mov ∨ u.operation = .add ∨ u.operation = .sub := by tauto
  refine h₁.both hsteady hrel hlead (· + ·) h₂ (combine_kind linear reg count 1 o₁ o₂) rfl ?_
  intro y e d₁ d₂ single _
  exact combine_sum hρ d₁ d₂ ho₁ ho₂ hname₁ hname₂ hop reg count single

theorem Contributes.difference (hρ : ρ .constant = 1) (hu : ops[j]? = some u)
    (hop : u.operation = .sub) (reg : Register) (count : Nat)
    (h₁ : Contributes ops dest st ρ closed l j [0] o₁ x₁)
    (h₂ : Contributes ops dest st ρ closed l j [1] o₂ x₂) (ho₁ : o₁.formula.overflow = false)
    (ho₂ : o₂.formula.overflow = false) (hname₂ : Names ρ closed.card u 1 x₂)
    (hfirst : ∀ o, u.sources[0]? = some o → NonZero ops j o →
      o₁.formula.constantValue?.any Coeff.isZero = false) :
    Contributes ops dest st ρ closed l j [0, 1] (combine u reg count 1 o₁ none o₂)
        (fun t => x₁ t - x₂ t) ∧
      ∀ t, t ≠ 0 → o₁.target = t ∨ o₂.target = t → (combine u reg count 1 o₁ none o₂).target = t := by
  refine h₁.both hsteady hrel hlead (· - ·) h₂
    (combine_kind (.inr (.inr hop)) reg count 1 o₁ o₂) rfl ?_
  intro y e d₁ d₂ single part
  refine combine_difference hρ d₁ d₂ ho₁ ho₂ hname₂ hop reg count fun hkind => ?_
  obtain ⟨s, a, d, e', opens, hf, reaches⟩ := part hkind
  obtain ⟨o, ho, nonzero⟩ := hsteady.added hrel hu hop hf (opens.leads hlead reaches)
  exact ⟨fun hk => single ⟨hk, hkind⟩, hfirst o ho nonzero⟩

end Combine

end AddressFormulas.Stride
