import AddressFormulas.Proofs.Routine.AddressComputation
import AddressFormulas.Proofs.Stride.Likeness

namespace AddressFormulas

structure MicroOp.IsPlainFor (u : MicroOp) (σ : KeySwap) : Prop where
  names : σ.Spares u.pc
  words : u.HasWords

namespace Stride

open WalkM

variable {spoils : Event → Prop} {σ : KeySwap} {live : Prop} {u : MicroOp}

theorem addPart_renamed {sum sum' part part' : StrideValue} (hs : sum.Renamed σ sum')
    (hp : part.Renamed σ part') : (addPart sum part).Renamed σ (addPart sum' part') := by
  unfold addPart
  rw [hs.kind, hs.target, hp.kind, hp.target]
  dsimp only
  split
  · exact .of_formula (hs.formula.add hp.formula) _ _
  · split
    · exact .of_formula (hs.formula.add hp.formula) _ _
    · split
      · exact .of_formula hp.formula _ _
      · exact .of_formula hs.formula _ _

section Operands

variable (hu : u.IsPlainFor σ)

include hu

theorem register_renamed (idx : Int) (reg : Register) :
    (Formula.register ⟨u.pc, idx⟩ reg).Renamed σ (.register ⟨u.pc, idx⟩ reg) :=
  .register (hu.names idx reg)

theorem operandValue_follows (i : Nat) :
    M.FollowedBy spoils σ live (Option.Rel (StrideValue.Renamed σ)) (operandValue u i) (operandValue u i) := by
  have constant : ∀ v, Word.fits v = true → Option.Rel (StrideValue.Renamed σ)
      (some { formula := .constant v }) (some { formula := .constant v }) :=
    fun v hv => .some (.of_formula (.constant hv) _ _)
  unfold operandValue
  extract_lets fromRegister
  have claimed : ∀ reg, M.FollowedBy spoils σ live (Option.Rel (StrideValue.Renamed σ))
      (fromRegister reg) (fromRegister reg) := by
    intro reg
    apply (claim_follows reg).bind_known
    intro live' _ v hv
    cases v with
    | none => exact (FollowedBy.tell _ _).bind_eq fun _ => .ok fun _ => .none
    | some v =>
      cases v with
      | outside => exact .ok fun _ => .some (.of_formula (register_renamed hu _ _) _ _)
      | definition s target =>
        apply FollowedBy.client_bind
        intro live'' hl st st' hst
        have known : live'' → Option.Rel (Progress.Alike σ) (st.progress.get? s) (st'.progress.get? s) :=
          fun l => (hst l).progress s
        generalize st.progress.get? s = pr?, st'.progress.get? s = pr'? at known
        apply known_follows known
        · intro pr? bare
          split
          · cases bare
          · exact .ok fun l => .some (.of_formula (.register (hv (hl l) s target rfl)) _ _)
        · intro live₃ _ pr f f' hf
          exact .ok fun l => .some (.of_formula (hf l) _ _)
  split
  · next v hv =>
    refine .ok fun _ => constant v (hu.words.immediates v ?_)
    exact List.mem_filterMap.mpr ⟨_, List.mem_of_getElem? hv, rfl⟩
  · split
    · next v hv => exact .ok fun _ => constant v (MicroOp.fits_hardwired hv)
    · exact claimed _
  · exact claimed _
  · exact .ok fun _ => .none
  · exact .ok fun _ => .none

theorem leaPart_follows {key : TermKey} {t : Term} (hk : key = .constant ∨ ∃ r, key = .register u.site r)
    (ht : t.coeff.Proper) :
    M.FollowedBy spoils σ live (StrideValue.Renamed σ) (leaPart u key t) (leaPart u key t) := by
  have fixed : σ key = key := by
    obtain rfl | ⟨r, rfl⟩ := hk
    · rfl
    · exact congrArg (TermKey.register · r) (hu.names u.idx r)
  have asIs : (Formula.ofTerm key t.coeff t.origin).Renamed σ (.ofTerm key t.coeff t.origin) :=
    .ofTerm fixed (.inr ht) _ _
  unfold leaPart
  dsimp only
  split
  · split
    · next v hv =>
      refine .ok fun _ => .of_formula (Formula.Renamed.scale ?_ _) _ _
      exact .constant (MicroOp.fits_hardwired hv)
    · apply (claim_follows _).bind_known
      intro live' _ v _
      cases v with
      | none => exact (FollowedBy.tell _ _).bind_eq fun _ => .ok fun _ => .of_formula asIs _ _
      | some v =>
        cases v with
        | outside => exact .ok fun _ => .of_formula asIs _ _
        | definition s target =>
          apply FollowedBy.client_bind
          intro live'' hl st st' hst
          have known : live'' → Option.Rel (Progress.Alike σ) (st.progress.get? s) (st'.progress.get? s) :=
            fun l => (hst l).progress s
          generalize st.progress.get? s = pr?, st'.progress.get? s = pr'? at known
          apply known_follows known
          · intro pr? bare
            split
            · cases bare
            · exact .ok fun _ => .of_formula asIs _ _
          · intro live₃ _ pr f f' hf
            exact .ok fun l => .of_formula ((hf l).scale _) _ _
  · exact .ok fun _ => .of_formula asIs _ _

theorem leaTerms_follows {terms : List (TermKey × Term)}
    (ht : ∀ e ∈ terms, e.2.coeff.Proper ∧ (e.1 = .constant ∨ ∃ r, e.1 = .register u.site r))
    {sum sum' : StrideValue} {access access' : Access} (hs : live → sum.Renamed σ sum')
    (ha : live → access'.irregular = access.irregular) :
    M.FollowedBy spoils σ live (StrideValue.Renamed σ) (leaTerms u terms sum access)
      (leaTerms u terms sum' access') := by
  induction terms generalizing live sum sum' access access' with
  | nil =>
    refine .ok fun l => ⟨(hs l).kind, (hs l).target, (hs l).formula.withAccess ?_⟩
    simp [Access.merge, (hs l).formula.irregular, ha l]
  | cons e rest ih =>
    obtain ⟨proper, key⟩ := ht e List.mem_cons_self
    apply (leaPart_follows hu key proper).bind
    intro live' hl part part' hpart
    apply ih (fun e he => ht e (List.mem_cons_of_mem _ he))
    · exact fun l => addPart_renamed (hs (hl l)) (hpart l)
    · intro l
      simp [Access.merge, (hpart l).formula.irregular, ha (hl l)]

theorem leaValue_follows :
    M.FollowedBy spoils σ live (StrideValue.Renamed σ) (leaValue u) (leaValue u) := by
  unfold leaValue
  split
  · next m hm =>
    have member : m ∈ u.memoryOperands := by
      apply List.mem_filterMap.mpr
      exact ⟨_, List.mem_append_left _ (List.mem_of_mem_head? hm), rfl⟩
    apply leaTerms_follows hu (fun e he => hu.words.of_mem_addressFormula member he)
    · exact fun _ => .of_formula .zero _ _
    · exact fun _ => rfl
  · exact .ok fun _ => .of_formula .zero _ _

end Operands

section Values

variable {task task' : Task} (hset : task'.settings = task.settings) (hu : u.IsPlainFor σ)

include hset

theorem giveUp_follows (failure : Failure) {f : Formula} (hf : f.Renamed σ f) :
    M.FollowedBy spoils σ live (StrideValue.Renamed σ) (giveUp task failure f) (giveUp task' failure f) := by
  unfold giveUp
  rw [hset]
  exact (FollowedBy.report _ _).bind_eq fun _ => .ok fun _ => .of_formula hf _ _

include hu

theorem easyValue_follows (reg : Register) :
    M.FollowedBy spoils σ live (StrideValue.Renamed σ) (easyValue task u reg) (easyValue task' u reg) := by
  have unknown := register_renamed hu u.idx reg
  unfold easyValue
  dsimp only
  split
  · exact giveUp_follows hset _ unknown
  · split
    · next v hv =>
      refine .ok fun _ => .of_formula (.constant (hu.words.immediates v ?_)) _ _
      rw [hv]
      exact List.mem_singleton_self v
    · exact giveUp_follows hset _ unknown

theorem secondOperand_follows (count second : Nat) :
    M.FollowedBy spoils σ live (Option.Rel (StrideValue.Renamed σ)) (secondOperand task u count second)
      (secondOperand task' u count second) := by
  have nothing : Option.Rel (StrideValue.Renamed σ) (some { formula := .zero }) (some { formula := .zero }) :=
    .some (.of_formula .zero _ _)
  unfold secondOperand
  rw [hset]
  split
  · exact operandValue_follows hu second
  · split
    · exact (FollowedBy.report _ _).bind_eq fun _ => .ok fun _ => nothing
    · exact .ok fun _ => nothing

theorem combinedValue_follows (reg : Register) (count : Nat) :
    M.FollowedBy spoils σ live (StrideValue.Renamed σ) (combinedValue task u reg count)
      (combinedValue task' u reg count) := by
  have unknown := register_renamed hu u.idx reg
  have shows : ∀ r, σ.site u.site r = u.site := hu.names u.idx
  unfold combinedValue
  extract_lets missing second missing'
  have misses : ∀ {live' : Prop} i, M.FollowedBy spoils σ live' (StrideValue.Renamed σ) (missing i) (missing' i) :=
    fun i => (giveUp_follows hset _ unknown)
  have combines : ∀ {live' : Prop} {o₁ o₁' o₂ o₂' : StrideValue} {m? m'? : Option StrideValue},
      (live' → o₁.Renamed σ o₁') → (live' → Option.Rel (StrideValue.Renamed σ) m? m'?) →
      (live' → o₂.Renamed σ o₂') → M.FollowedBy spoils σ live' (StrideValue.Renamed σ)
        (pure (combine u reg count second o₁ m? o₂)) (pure (combine u reg count second o₁' m'? o₂')) := by
    intro live' o₁ o₁' o₂ o₂' m? m'? h₁ hm h₂
    exact .ok fun l => combine_renamed shows hu.words (h₁ l) (h₂ l) reg count second (hm l)
  -- operands are read in order, and the first that is missing ends both sides alike
  apply (operandValue_follows hu 0).bind
  intro live₁ _ o₁? o₁'? h₁
  apply Follows.option h₁
  · exact misses 0
  · intro live₂ hl₂ o₁ o₁' h₁
    dsimp only
    split
    · apply (operandValue_follows hu 1).bind
      intro live₃ hl₃ m? m'? hm
      apply Follows.option hm
      · exact misses 1
      · intro live₄ hl₄ m m' hm
        apply (secondOperand_follows hset hu count second).bind
        intro live₅ hl₅ o₂? o₂'? h₂
        apply Follows.option h₂
        · exact misses second
        · intro live₆ hl₆ o₂ o₂' h₂
          exact combines (fun l => h₁ (hl₃ (hl₄ (hl₅ (hl₆ l))))) (fun l => .some (hm (hl₅ (hl₆ l)))) h₂
    · apply (secondOperand_follows hset hu count second).bind
      intro live₃ hl₃ o₂? o₂'? h₂
      apply Follows.option h₂
      · exact misses second
      · intro live₄ hl₄ o₂ o₂' h₂
        exact combines (fun l => h₁ (hl₃ (hl₄ l))) (fun _ => .none) h₂

theorem normalValue_follows (reg : Register) :
    M.FollowedBy spoils σ live (StrideValue.Renamed σ) (normalValue task u reg) (normalValue task' u reg) := by
  have unknown := register_renamed hu u.idx reg
  unfold normalValue
  dsimp only
  split
  · exact (giveUp_follows hset _ unknown)
  · split
    · exact (leaValue_follows hu)
    · split
      · exact .ok fun _ => .of_formula unknown _ _
      · exact combinedValue_follows hset hu reg _

theorem definitionValue_follows (reg : Register) :
    M.FollowedBy spoils σ live (StrideValue.Renamed σ) (definitionValue task u reg)
      (definitionValue task' u reg) := by
  have unknown := register_renamed hu u.idx reg
  have load : (Formula.load u.site reg).Renamed σ (.load u.site reg) :=
    .load _ _
  apply (FollowedBy.classify rfl).bind_eq
  intro effect
  split
  · exact (easyValue_follows hset hu reg)
  · exact normalValue_follows hset hu reg
  · exact (giveUp_follows hset _ load)
  · exact .ok fun _ => .of_formula unknown.markIndirect _ _

end Values

end Stride

end AddressFormulas
