import AddressFormulas.Base.Slicer
import AddressFormulas.Proofs.Data.Options
import AddressFormulas.Proofs.Data.Table
import AddressFormulas.Proofs.Formula.KeyOrder
import AddressFormulas.Proofs.Routine.AddressComputation

namespace AddressFormulas

structure BaseState.Alike (st st' : BaseState) : Prop where
  values : Pending.Alike (fun _ => Formula.Renamed .id) st.values st'.values
  definitions : ∀ s, Option.Rel (Formula.Renamed .id) (st.definitions.get? s) (st'.definitions.get? s)
  bases : ∀ o, Option.Rel (Formula.Renamed .id) (st.bases.base? o) (st'.bases.base? o)

theorem BaseState.Alike.empty : BaseState.Alike {} {} :=
  ⟨.empty, fun _ => .none, fun _ => .none⟩

namespace Base

open WalkM Formula

abbrev M.FollowedBy {α : Type} (spoils : Event → Prop) (live : Prop) (V : α → α → Prop) (m m' : M α) :
    Prop :=
  WalkM.FollowedBy spoils BaseState.Alike live V m m'

variable {spoils : Event → Prop} {live : Prop} {f f' : Formula}

theorem push_follows (reg : Register) (hf : live → f.Renamed .id f') :
    M.FollowedBy spoils live Eq (push reg f) (push reg f') :=
  .modifyClient fun l _ _ h => ⟨h.values.push reg (hf l), h.definitions, h.bases⟩

theorem pushSite_follows (site : Site) (hf : live → f.Renamed .id f') :
    M.FollowedBy spoils live Eq (pushSite site f) (pushSite site f') :=
  .modifyClient fun l _ _ h => ⟨h.values.pushSite site (hf l), h.definitions, h.bases⟩

theorem claim_follows (reg : Register) :
    M.FollowedBy spoils live (Option.Rel (Formula.Renamed .id)) (claim reg) (claim reg) := by
  have claims : M.FollowedBy spoils live
      (Option.Rel fun f f' => ∃ slot, Slot.overlaps reg slot = true ∧ f.Renamed .id f')
      (claim reg) (claim reg) := by
    apply FollowedBy.claim
    · exact fun _ _ h => h.values
    · exact fun _ _ _ _ h hp => ⟨hp, h.definitions, h.bases⟩
  apply claims.mono
  intro f? f'? h
  cases h with
  | none => exact .none
  | some h =>
    obtain ⟨_, _, h⟩ := h
    exact .some h

theorem claimSite_follows (site : Site) :
    M.FollowedBy spoils live (Option.Rel (Formula.Renamed .id)) (claimSite site) (claimSite site) := by
  apply FollowedBy.client_bind
  intro live' _ st st' h
  have claims : live' → Option.Rel (fun c c' =>
      (∃ slot : Slot, (decide (slot = .site site)) = true ∧ c.value.Renamed .id c'.value) ∧
        Pending.Alike (fun _ => Formula.Renamed .id) c.rest c'.rest)
      (st.values.claimSite? site) (st'.values.claimSite? site) :=
    fun l => Pending.Alike.takeFirst? _ (h l).values
  generalize st.values.claimSite? site = c?, st'.values.claimSite? site = c'? at claims
  apply Follows.option claims
  · exact .ok fun _ => .none
  · intro live'' _ c c' hc
    apply Follows.bind_eq
    · exact FollowedBy.modifyClient fun l _ _ h => ⟨(hc l).2, h.definitions, h.bases⟩
    · intro _
      refine .ok fun l => ?_
      obtain ⟨_, _, value⟩ := (hc l).1
      exact .some value

theorem giveUp_follows (settings : Settings) (failure : Failure) (hf : f.Renamed .id f) :
    M.FollowedBy spoils live (Formula.Renamed .id) (giveUp settings failure f) (giveUp settings failure f) :=
  (FollowedBy.report _ _).bind_eq fun _ => .ok fun _ => hf

section Operation

variable {u : MicroOp} {unknown g g' filling filling' amount amount' : Formula} (hunk : unknown.Renamed .id unknown)

include hunk

theorem combine_follows (hf : live → f.Renamed .id f') (hg : live → g.Renamed .id g') :
    M.FollowedBy spoils live (Formula.Renamed .id) (combine u unknown f g) (combine u unknown f' g') := by
  have folded : ∀ op : Operation, M.FollowedBy spoils live (Formula.Renamed .id)
      (pure ((op.onFormulas? f g).getD unknown)) (pure ((op.onFormulas? f' g').getD unknown)) :=
    fun op => .ok fun l => (op.onFormulas?_renamed (hf l) (hg l)).getD hunk
  unfold combine
  split
  · exact .ok fun l => (hf l).add (hg l)
  · have difference : M.FollowedBy spoils live (Formula.Renamed .id) (pure (f - g)) (pure (f' - g')) :=
      .ok fun l => (hf l).sub (hg l)
    apply Follows.ite
    · intro l
      rw [(hf l).sameTerms (hg l)]
    · exact (FollowedBy.tell _ _).bind_eq fun _ => difference
    · exact difference
  · exact .ok hf
  · have same : live → f'.constantValue? = f.constantValue? := fun l => (hf l).constantValue?
    generalize f'.constantValue? = c'?, f.constantValue? = c? at same ⊢
    apply Follows.same same
    cases c? with
    | some c => exact .ok fun _ => .constant (Word.fits_toInt _)
    | none => exact .ok fun _ => hunk
  · apply Follows.ite
    · intro l
      rw [(hf l).sameTerms (hg l)]
    · exact (FollowedBy.tell _ _).bind_eq fun _ => .ok fun _ => .zero
    · exact folded .xor
  · exact folded _

end Operation

section Values

variable {settings : Settings} {u : MicroOp} (words : u.HasWords)

include words

theorem operandValue_follows (i : Nat) :
    M.FollowedBy spoils live (Option.Rel (Formula.Renamed .id)) (operandValue u i) (operandValue u i) := by
  unfold operandValue
  split
  · next v hv =>
    refine .ok fun _ => .some (.constant (words.immediates v ?_))
    exact List.mem_filterMap.mpr ⟨_, List.mem_of_getElem? hv, rfl⟩
  · split
    · exact claim_follows _
    · exact .ok fun _ => .none
  · exact .ok fun _ => .none

theorem easyValue_follows (reg : Register) :
    M.FollowedBy spoils live (Formula.Renamed .id) (easyValue settings u reg) (easyValue settings u reg) := by
  have unknown : (Formula.register u.site reg).Renamed .id (.register u.site reg) := .register rfl
  unfold easyValue
  dsimp only
  split
  · exact giveUp_follows settings _ unknown
  · split
    · next v hv =>
      refine .ok fun _ => .constant (words.immediates v ?_)
      rw [hv]
      exact List.mem_singleton_self v
    · exact giveUp_follows settings _ unknown

omit words in
theorem leaTerms_follows {terms : List (TermKey × Term)} (ht : ∀ e ∈ terms, e.2.coeff.Proper)
    (hf : live → f.Renamed .id f') :
    M.FollowedBy spoils live (Formula.Renamed .id) (leaTerms terms f) (leaTerms terms f') := by
  induction terms generalizing live f f' with
  | nil => exact .ok hf
  | cons e rest ih =>
    obtain ⟨key, t⟩ := e
    obtain ⟨proper, rest_proper⟩ := List.forall_mem_cons.mp ht
    have unclaimed : ∀ {live' : Prop}, (live' → live) → M.FollowedBy spoils live' (Formula.Renamed .id)
        (leaTerms rest (f.addTerm key t.coeff t.origin)) (leaTerms rest (f'.addTerm key t.coeff t.origin)) :=
      fun hl => ih rest_proper fun l => (hf (hl l)).addTerm (by cases key <;> rfl) (.inr proper) _ _
    cases key with
    | register site reg =>
      apply (claim_follows reg).bind
      intro live' hl f? f'? h
      apply Follows.option h
      · exact unclaimed hl
      · intro live'' hl' v v' hv
        exact ih rest_proper fun l => (hf (hl (hl' l))).add ((hv l).scale _)
    | _ => exact unclaimed id

theorem threeSourceValue_follows {unknown : Formula} (hunk : unknown.Renamed .id unknown)
    (hf : live → f.Renamed .id f') :
    M.FollowedBy spoils live (Formula.Renamed .id) (threeSourceValue settings u unknown f)
      (threeSourceValue settings u unknown f') := by
  apply (operandValue_follows words 1).bind
  intro live₁ hl₁ filling? filling'? hfill
  apply (operandValue_follows words 2).bind
  intro live₂ hl₂ amount? amount'? hamount
  apply Follows.option (fun l => hfill (hl₂ l))
  · exact .ok fun _ => hunk
  · intro live₃ hl₃ filling filling' hfill
    apply Follows.option (fun l => hamount (hl₃ l))
    · exact .ok fun _ => hunk
    · intro live₄ hl₄ amount amount' hamount
      dsimp only
      split
      · exact .ok fun _ => hunk
      · split
        · exact giveUp_follows settings _ hunk
        · refine .ok fun l => Option.Rel.getD ?_ hunk
          exact doubleShift?_renamed _ (hf (hl₁ (hl₂ (hl₃ (hl₄ l))))) (hfill (hl₄ l)) (hamount l)

theorem twoSourceValue_follows {unknown : Formula} (hunk : unknown.Renamed .id unknown)
    (hf : live → f.Renamed .id f') :
    M.FollowedBy spoils live (Formula.Renamed .id) (twoSourceValue settings u unknown f)
      (twoSourceValue settings u unknown f') := by
  unfold twoSourceValue
  split
  · apply (operandValue_follows words 1).bind
    intro live' hl g? g'? h
    apply Follows.option h
    · exact giveUp_follows settings _ hunk
    · exact fun hl' g g' hg => combine_follows hunk (fun l => hf (hl (hl' l))) hg
  · split
    · exact combine_follows hunk hf fun _ => .zero
    · exact giveUp_follows settings _ hunk

theorem normalValue_follows (reg : Register) :
    M.FollowedBy spoils live (Formula.Renamed .id) (normalValue settings u reg) (normalValue settings u reg) := by
  have unknown : (Formula.register u.site reg).Renamed .id (.register u.site reg) := .register rfl
  unfold normalValue
  dsimp only
  split
  · exact giveUp_follows settings _ unknown
  · split
    · split
      · next m hm =>
        split
        · apply leaTerms_follows _ fun _ => .zero
          have member : m ∈ u.memoryOperands :=
            List.mem_filterMap.mpr ⟨_, List.mem_append_left _ (List.mem_of_mem_head? hm), rfl⟩
          exact fun e he => (words.of_mem_addressFormula member he).1
        · exact giveUp_follows settings _ unknown
      · exact giveUp_follows settings _ unknown
    · split
      · exact .ok fun _ => unknown
      · apply (operandValue_follows words 0).bind
        intro live' hl f? f'? h
        apply Follows.option h
        · exact giveUp_follows settings _ unknown
        · intro live'' _ f f' hf
          dsimp only
          split
          · exact threeSourceValue_follows words unknown hf
          · exact twoSourceValue_follows words unknown hf

end Values

end Base

end AddressFormulas
