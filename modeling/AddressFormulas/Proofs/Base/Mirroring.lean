import AddressFormulas.Proofs.Base.Likeness
import AddressFormulas.Proofs.Base.Steps
import AddressFormulas.Proofs.Walk.Claiming

namespace AddressFormulas

namespace Base

open WalkM Formula

variable {live : Prop} {settings : Settings} {u : MicroOp} {a b reg : Register} {opidx : Int}

abbrev likeness (site : Site) : Comparison (Walk BaseState) :=
  .walks (fun e => e.missesOperand site = true) BaseState.Alike

section Sum

theorem giveUp_spoils (i : Nat) (f : Formula) (w : Walk BaseState) :
    wp (giveUp settings (.missingOperand u.site i) f) (fun _ t => ¬(likeness u.site).Clean t)
      (fun _ t => ¬(likeness u.site).Clean t) w := by
  have spoiled : ∀ t : Walk BaseState, .failure (.missingOperand u.site i) ∈ t.journal →
      ¬(likeness u.site).Clean t :=
    fun t told clean => clean _ told (decide_eq_true rfl)
  unfold giveUp report
  apply wp_bind.mpr
  apply wp_bind.mpr
  apply (wp_tell _).mpr
  split
  · exact spoiled _ List.mem_cons_self
  · exact spoiled _ List.mem_cons_self

variable (hu : u.AddsRegisters a b)

include hu

theorem definitionValue_sum (g : Graph) {v : Placed} (hv : v.op = u) :
    definitionValue settings g v reg = (do
      tellAll u.effectEvents
      match ← claim a.canonical with
      | none => giveUp settings (.missingOperand u.site 0) (.register u.site reg)
      | some f₁ =>
        match ← claim b.canonical with
        | some f₂ => return f₁ + f₂
        | none => giveUp settings (.missingOperand u.site 1) (.register u.site reg)) := by
  have first : operandValue u 0 = claim a.canonical := by
    simp [operandValue, hu.sources, MicroOp.operandRegister?]
  have second : operandValue u 1 = claim b.canonical := by
    simp [operandValue, hu.sources, MicroOp.operandRegister?]
  unfold definitionValue classify
  rw [hv]
  simp only [bind_assoc, pure_bind, (hu.effect 0).1]
  unfold normalValue twoSourceValue combine
  simp only [hu.valueSources, hu.kind, hu.operation, first, second]
  rfl

theorem definitionValue_address (opidx : Int) (g : Graph) {v : Placed} (hv : v.op = u.asAddress a b opidx)
    {m : MemoryOperand} (hm : (u.asAddress a b opidx).sources = [.memory m]) :
    definitionValue settings g v reg = (do
      tellAll (u.asAddress a b opidx).effectEvents
      leaTerms ((u.asAddress a b opidx).addressFormula m).terms.entries .zero) := by
  have count : (u.asAddress a b opidx).valueSources = 1 := by
    unfold MicroOp.valueSources
    rw [hm]
    rfl
  have kind : (u.asAddress a b opidx).kind = .lea := rfl
  unfold definitionValue classify
  rw [hv]
  simp only [bind_assoc, pure_bind, (hu.effect opidx).2]
  unfold normalValue
  simp [count, kind, hm]

omit hu in
theorem wp_leaTerms {x y : Register} {c₁ c₂ : Claim Formula} {w : Walk BaseState}
    {Q : Formula → Walk BaseState → Prop} {E : Stop → Walk BaseState → Prop}
    (h₁ : w.client.values.claim? x.canonical = some c₁) (h₂ : c₁.rest.claim? y.canonical = some c₂)
    (hq : ∀ told, Q (Formula.zero + c₁.value.scale .one + c₂.value.scale .one)
      { w with client := { w.client with values := c₂.rest }, journal := told ++ w.journal }) :
    wp (leaTerms [MicroOp.AddsRegisters.seen u x, MicroOp.AddsRegisters.seen u y] .zero) Q E w := by
  unfold MicroOp.AddsRegisters.seen
  apply wp_bind.mpr
  apply wp_claim_some h₁
  intro told
  apply wp_bind.mpr
  apply wp_claim_some h₂
  intro told'
  have end' := hq (told' ++ told)
  rw [List.append_assoc] at end'
  exact end'

theorem sum_follows (g g' : Graph) {v v' : Placed} (hv : v.op = u) (hv' : v'.op = u.asAddress a b opidx) :
    M.FollowedBy (fun e => e.missesOperand u.site = true) live (Agrees .id)
      (definitionValue settings g v reg) (definitionValue settings g' v' reg) := by
  -- the formula of the address may list its registers in either order, so both are followed
  obtain ⟨m, hm, order⟩ := hu.addressFormula opidx
  rw [definitionValue_sum hu g hv, definitionValue_address hu opidx g' hv' hm]
  have gives : ∀ i, (likeness u.site).Keeps (giveUp settings (.missingOperand u.site i) (.register u.site reg)) :=
    fun i => Follows.keeps_of (giveUp_follows settings _ (.register rfl))
  have claims : ∀ r, (likeness u.site).Keeps (claim r) := fun r => Follows.keeps_of (claim_follows r)
  apply (FollowedBy.tellAll _ _).bind_eq
  intro _
  constructor
  · apply (claims _).bind
    intro f₁?
    cases f₁? with
    | none => exact gives 0
    | some f₁ =>
      apply (claims _).bind
      intro f₂?
      cases f₂? with
      | none => exact gives 1
      | some f₂ => exact fun _ clean => clean
  · intro _ w w' hw
    have spoils : ∀ i t, FollowsAt (likeness u.site) (Agrees .id)
        (giveUp settings (.missingOperand u.site i) (.register u.site reg))
        (leaTerms ((u.asAddress a b opidx).addressFormula m).terms.entries .zero) t w' := by
      intro i t
      exact wp_mono (giveUp_spoils i _ t) (fun _ _ spoiled clean => absurd clean spoiled)
        fun _ _ spoiled clean => absurd clean spoiled
    have alike : w.client.Alike w'.client := hw.1
    apply wp_bind.mpr
    cases hc : w.client.values.claim? a.canonical with
    | none => exact wp_claim_none hc (spoils 0 w)
    | some c =>
      apply wp_claim_some hc
      intro told
      apply wp_bind.mpr
      cases hd : w.client.values.claim? b.canonical with
      | none =>
        exact wp_claim_none (Pending.claim?_rest_eq_none hc hd) (spoils 1 _)
      | some d =>
        -- neither register takes what was put for the other, so their claims commute
        obtain ⟨rest, hcd, hdc⟩ := Pending.claim?_comm hu.apart_slots hc hd
        obtain ⟨c', hc', ⟨_, _, hf⟩, alike_rest⟩ := alike.values.claim?_eq_some hc
        obtain ⟨d', hd', ⟨_, _, hg⟩, _⟩ := alike.values.claim?_eq_some hd
        obtain ⟨rest', hcd', hdc'⟩ := Pending.claim?_comm hu.apart_slots hc' hd'
        obtain ⟨_, hleft, _, rests⟩ := alike_rest.claim?_eq_some hcd
        obtain rfl := Option.some.inj (hcd'.symm.trans hleft)
        apply wp_claim_some hcd
        intro told' _
        obtain order | order := order
        · rw [order]
          apply wp_leaTerms hc' hcd'
          intro _
          exact ⟨(hf.scale_one.zero_add.add hg.scale_one).agrees, ⟨rests, alike.definitions, alike.bases⟩, hw.2⟩
        · rw [order]
          apply wp_leaTerms hd' hdc'
          intro _
          exact ⟨hf.scale_one.agrees_swap hg.scale_one.zero_add, ⟨rests, alike.definitions, alike.bases⟩, hw.2⟩

end Sum

theorem settle_follows {spoils : Event → Prop} (v : Placed) {f f' : Formula}
    (hf : live → f.Agrees .id f') :
    M.FollowedBy spoils live Eq (settle settings v reg f) (settle settings v reg f') := by
  apply FollowedBy.of_updates (settle_updates settings v reg f) (settle_updates settings v reg f')
  intro l st st' h
  have value : (valueOf v.op.site reg f).Renamed .id (valueOf v.op.site reg f') := by
    unfold valueOf
    rw [(hf l).overflow]
    split
    · exact .register rfl
    · next plain => exact (hf l).renamed (by simpa using plain)
  refine ⟨h.values.push reg value, fun s => ?_, h.bases⟩
  change Option.Rel _ ((st.definitions.insert _ _).get? s) ((st'.definitions.insert _ _).get? s)
  rw [Table.get?_insert, Table.get?_insert]
  split
  · exact .some value
  · exact h.definitions s

section Rewritten

variable {g : Graph} {φ : MicroOp → MicroOp} {σ : KeySwap} {v : Placed}
  {follow follow' : Slicer.FollowFor BaseState} {spoils : Event → Prop}

theorem callValue_follows (v : Placed) :
    M.FollowedBy spoils live (Formula.Renamed .id) (callValue g v) (callValue (g.mapOps φ) v) := by
  apply FollowedBy.require_bind (rel_block? g v.block)
  rintro block _ _ rfl
  refine .ok fun _ => ?_
  have outgoing : (block.mapOps φ).outgoing = block.outgoing := rfl
  have edges : (g.mapOps φ).edge? = g.edge? := rfl
  rw [outgoing, edges]
  cases block.outgoing.head?.bind g.edge? with
  | none => exact .call _ _
  | some e =>
    simp only [Option.bind_some, Graph.block?_mapOps]
    cases g.block? e.sink with
    | none => exact .call _ _
    | some sink => exact .call _ _

theorem resolveLoad_follows (hf : Slicer.SearchesFollow spoils BaseState.Alike follow follow') :
    M.FollowedBy spoils live Eq (resolveLoad settings follow v reg) (resolveLoad settings follow' v reg) := by
  have unknown : ∀ {live' : Prop}, M.FollowedBy spoils live' Eq
      (pushSite v.op.site (.load v.op.site reg)) (pushSite v.op.site (.load v.op.site reg)) :=
    pushSite_follows _ fun _ => .load _ _
  apply FollowedBy.client_bind
  intro live₁ hl₁ st st' h
  have base : live₁ → Option.Rel (Formula.Renamed .id) (Slicer.loadBase? st.bases v.op)
      (Slicer.loadBase? st'.bases v.op) :=
    fun l => Slicer.loadBase?_renamed (h l).bases v.op
  generalize Slicer.loadBase? st.bases v.op = base?, Slicer.loadBase? st'.bases v.op = base'? at base
  apply Follows.option base
  · exact (FollowedBy.tell _ _).bind_eq fun _ => unknown
  · intro live₂ hl₂ f f' hf'
    dsimp -zeta only
    extract_lets resolved resolved'
    have resolves : ∀ saved, M.FollowedBy spoils live₂ Eq (resolved saved) (resolved' saved) := by
      intro saved
      cases saved with
      | some saved =>
        apply (claim_follows saved).bind
        intro live₃ _ c? c'? hc
        apply Follows.option hc
        · exact unknown
        · intro live₄ _ c c' hc
          apply Follows.read_bind
          intro live₅ hl₅ w w' hw
          have early : ∀ (f : Formula) (stop : Nat), stop = 0 → f.definedBefore stop = false := by
            rintro f _ rfl
            simp [definedBefore]
          apply Follows.ite
          · intro l
            rw [early c _ (hw l).2.2, early c' _ ((congrArg Bounds.stop (hw l).2.1).trans (hw l).2.2)]
          · exact unknown
          · exact (FollowedBy.tell _ _).bind_eq fun _ => pushSite_follows _ fun l => hc (hl₅ l)
      | none =>
        unfold resolved resolved'
        have same : live₂ → f'.constantValue? = f.constantValue? := fun l => (hf' l).constantValue?
        generalize f'.constantValue? = c'?, f.constantValue? = c? at same ⊢
        apply Follows.same same
        cases c? with
        | some c => exact pushSite_follows _ fun _ => .reference _ _
        | none => exact unknown
    clear_value resolved resolved'
    split
    · apply Follows.bind_eq
      · apply Follows.change
        · exact fun _ clean => clean
        · exact fun _ w w' h => ⟨h.1, by rw [h.2.1], h.2.2⟩
      · exact fun _ => (hf _ f f' hf').bind_eq resolves
    · exact resolves none

variable (h : g.Rewrites φ σ u a b opidx) (hv : v.IsIn g)

include h hv

theorem enterOp_follows (hf : Slicer.SearchesFollow spoils BaseState.Alike follow follow') :
    M.FollowedBy spoils live Eq (enterOp settings follow v reg) (enterOp settings follow' (v.mapOp φ) reg) := by
  have passes := h.passes hv
  apply Follows.read_bind
  intro live' _ w w' hw
  apply Follows.ite
  · intro l
    have alike : w.client.Alike w'.client := (hw l).1
    have contains : w'.client.definitions.contains v.op.site = w.client.definitions.contains v.op.site :=
      (alike.definitions v.op.site).isSome_eq
    change ((φ v.op).pc < w'.bounds.stop ∨ w'.client.definitions.contains (φ v.op).site = true) ↔ _
    rw [passes.pc, passes.site, contains, (hw l).2.1]
  · exact .ok fun _ => rfl
  · obtain ⟨same, _⟩ | ⟨hvu, sum, adds, _⟩ := h.op _ _ _ hv
    · have unchanged : v.mapOp φ = v := by
        unfold Placed.mapOp
        rw [same]
      rw [unchanged]
      apply (FollowedBy.classify rfl).bind_eq
      intro effect
      split
      · exact .ok fun _ => rfl
      · exact .ok fun _ => rfl
      · split
        · exact (FollowedBy.tell _ _).bind_eq fun _ => .ok fun _ => rfl
        · exact .ok fun _ => rfl
      · exact (resolveLoad_follows hf).bind_eq fun _ => .ok fun _ => rfl
    · have op : (v.mapOp φ).op = u.asAddress a b opidx := sum
      have operation : (u.asAddress a b opidx).operation = .add := adds.operation
      obtain ⟨effect, effect'⟩ := adds.effect opidx
      rw [op, operation, hvu, adds.operation]
      simp only [classify, bind_assoc, pure_bind, effect, effect']
      exact (FollowedBy.tellAll _ _).bind_eq fun _ => .ok fun _ => rfl

theorem definitionValue_follows :
    M.FollowedBy (fun e => e.missesOperand u.site = true) live (Agrees .id)
      (definitionValue settings g v reg) (definitionValue settings (g.mapOps φ) (v.mapOp φ) reg) := by
  obtain ⟨same, _⟩ | ⟨hvu, sum, adds, _⟩ := h.op _ _ _ hv
  · have unchanged : v.mapOp φ = v := by
      unfold Placed.mapOp
      rw [same]
    have words := h.words _ _ _ hv
    have unknown : (Formula.register v.op.site reg).Renamed .id (.register v.op.site reg) := .register rfl
    have value : M.FollowedBy (fun e => e.missesOperand u.site = true) live (Formula.Renamed .id)
        (definitionValue settings g v reg) (definitionValue settings (g.mapOps φ) v reg) := by
      apply (FollowedBy.classify rfl).bind_eq
      intro effect
      split
      · exact easyValue_follows words reg
      · exact normalValue_follows words reg
      · apply (claimSite_follows v.op.site).bind
        intro live' _ f? f'? hf
        apply Follows.option hf
        · exact giveUp_follows settings _ (.load _ _)
        · exact fun _ f f' hf => .ok hf
      · split
        · exact .ok fun _ => unknown
        · exact callValue_follows v
    rw [unchanged]
    exact value.mono fun _ _ => Formula.Renamed.agrees
  · exact sum_follows adds g (g.mapOps φ) hvu sum

theorem leaveOp_follows :
    M.FollowedBy (fun e => e.missesOperand u.site = true) live Eq (leaveOp settings g v reg)
      (leaveOp settings (g.mapOps φ) (v.mapOp φ) reg) := by
  have passes := h.passes hv
  have site : (v.mapOp φ).op.site = v.op.site := passes.site
  have pc : (v.mapOp φ).op.pc = v.op.pc := passes.pc
  apply Follows.read_bind
  intro live₁ _ w w' hw
  rw [pc, site]
  apply Follows.ite
  · intro l
    rw [(hw l).2.1]
  · apply push_follows
    intro l
    rw [(hw l).2.1]
    exact .register rfl
  · have known : live₁ → Option.Rel (Formula.Renamed .id) (w.client.definitions.get? v.op.site)
        (w'.client.definitions.get? v.op.site) := by
      intro l
      have alike : w.client.Alike w'.client := (hw l).1
      exact alike.definitions v.op.site
    generalize w.client.definitions.get? v.op.site = f?, w'.client.definitions.get? v.op.site = f'? at known
    apply Follows.option known
    · exact (definitionValue_follows h hv).bind fun _ _ _ hf => settle_follows v hf
    · exact fun _ f f' hf => push_follows reg hf

end Rewritten

section Slices

variable {g : Graph} {φ : MicroOp → MicroOp} {σ : KeySwap} {spoils : Event → Prop}

theorem enterEdge_follows (e : Nat) :
    M.FollowedBy spoils live Eq (enterEdge g e) (enterEdge (g.mapOps φ) e) := by
  apply FollowedBy.require_same
  intro edge _
  apply FollowedBy.require_bind (rel_block? g edge.source)
  rintro source _ _ rfl
  apply Follows.read_bind
  intro _ _ w w' hw
  refine .ok fun l => ?_
  have stop : (source.mapOps φ).stop = source.stop := rfl
  rw [stop, (hw l).2.1]

theorem enterBlock_follows (b : Nat) :
    M.FollowedBy spoils live Eq (enterBlock g b reg) (enterBlock (g.mapOps φ) b reg) := by
  apply FollowedBy.require_bind (rel_block? g b)
  rintro block _ _ rfl
  apply Follows.read_bind
  intro live' _ w w' hw
  have stays : ∀ {live'' : Prop} {f f' : Formula}, (live'' → f.Renamed .id f') →
      M.FollowedBy spoils live'' Eq (push reg f >>= fun _ => pure false) (push reg f' >>= fun _ => pure false) :=
    fun hf => (push_follows reg hf).bind_eq fun _ => .ok fun _ => rfl
  apply Follows.ite
  · intro l
    rw [(hw l).2.1]
    rfl
  · apply stays
    intro l
    rw [(hw l).2.1]
    exact .register rfl
  · apply Follows.ite
    · exact fun _ => Iff.rfl
    · exact stays fun _ => .register rfl
    · exact .ok fun _ => rfl

theorem leaveBlock_follows (b : Nat) :
    M.FollowedBy spoils live Eq (leaveBlock g b reg) (leaveBlock (g.mapOps φ) b reg) := by
  apply FollowedBy.require_bind (rel_block? g b)
  rintro block _ _ rfl
  exact push_follows reg fun _ => .register rfl

variable (h : g.Rewrites φ σ u a b opidx)

include h

theorem slicer_mirrors :
    (slicer settings g).Mirrors (fun e => e.missesOperand u.site = true) BaseState.Alike g φ
      (slicer settings (g.mapOps φ)) := by
  constructor
  · exact fun _ _ _ hv => h.passes hv
  · exact h.words
  · rfl
  · exact fun _ _ hst => hst.bases
  · exact fun _ => .ok fun _ => rfl
  · exact fun _ _ => .ok fun _ => rfl
  · exact fun _ _ hf v reg hv => enterOp_follows h hv hf
  · exact fun v reg hv _ => leaveOp_follows h hv
  · exact fun e _ => enterEdge_follows e
  · exact fun _ _ => .ok fun _ => rfl
  · exact fun b reg => enterBlock_follows b
  · exact fun b reg => leaveBlock_follows b
  · exact fun _ _ => .ok fun _ => rfl
  · exact fun reg _ _ _ v _ fits => push_follows reg fun _ => .constant fits

theorem addressRegister_follows (v : Placed) :
    M.FollowedBy (fun e => e.missesOperand u.site = true) live (Option.Rel (Formula.Renamed .id))
      (addressRegister settings g v reg) (addressRegister settings (g.mapOps φ) v reg) := by
  unfold addressRegister
  split
  · next c hc => exact .ok fun _ => .some (.constant (MicroOp.fits_hardwired hc))
  · apply Follows.bind_eq
    · exact FollowedBy.modifyClient fun _ _ _ h => ⟨.empty, h.definitions, h.bases⟩
    · intro _
      apply ((slicer_mirrors h).slice settings.depth _ reg ⟨v.op.pc, 0⟩ rfl).bind_eq
      exact fun _ => claim_follows reg

theorem addressTerms_follows (v : Placed) {terms : List (TermKey × Term)} (ht : ∀ e ∈ terms, e.2.coeff.Proper)
    {f f' : Formula} (hf : live → f.Renamed .id f') :
    M.FollowedBy (fun e => e.missesOperand u.site = true) live (Formula.Renamed .id)
      (addressTerms settings g v terms f) (addressTerms settings (g.mapOps φ) v terms f') := by
  induction terms generalizing live f f' with
  | nil => exact .ok hf
  | cons e rest ih =>
    obtain ⟨key, t⟩ := e
    obtain ⟨proper, rest_proper⟩ := List.forall_mem_cons.mp ht
    have unknown : ∀ {live' : Prop}, (live' → live) → M.FollowedBy (fun e => e.missesOperand u.site = true) live'
        (Formula.Renamed .id) (addressTerms settings g v rest (f.addTerm key t.coeff t.origin))
        (addressTerms settings (g.mapOps φ) v rest (f'.addTerm key t.coeff t.origin)) :=
      fun hl => ih rest_proper fun l => (hf (hl l)).addTerm (by cases key <;> rfl) (.inr proper) _ _
    cases key with
    | register site reg =>
      apply (addressRegister_follows h v).bind
      intro live₁ hl₁ c? c'? hc
      apply Follows.option hc
      · exact unknown hl₁
      · intro live₂ hl₂ c c' hc
        have sum : live₂ → (f + c.scale t.coeff).Renamed .id (f' + c'.scale t.coeff) :=
          fun l => (hf (hl₁ (hl₂ l))).add ((hc l).scale _)
        apply Follows.ite
        · intro l
          rw [(sum l).overflow]
        · exact (FollowedBy.tell _ _).bind_eq fun _ => unknown fun l => hl₁ (hl₂ l)
        · exact ih rest_proper sum
    | _ => exact unknown id

theorem address_follows {b' index : Nat} {v : MicroOp} (hv : g.op? b' index = some v) (hm : v.memoryOperands ≠ [])
    (o : Int) :
    M.FollowedBy (fun e => e.missesOperand u.site = true) live (Formula.Renamed .id) (address settings g b' index o)
      (address settings (g.mapOps φ) b' index o) := by
  have same : φ v = v := by
    obtain ⟨same, _⟩ | ⟨rfl, _, adds, _⟩ := h.op _ _ _ hv
    · exact same
    · exact absurd adds.memoryOperands hm
  obtain ⟨block, hblock, hop⟩ := Graph.op?_eq_some.mp hv
  have hop' : (block.mapOps φ).ops[index]? = some v := by
    unfold Block.mapOps
    rw [List.getElem?_map, hop, Option.map_some, same]
  apply FollowedBy.require_bind (rel_block? g b')
  rintro _ _ found rfl
  obtain rfl := Option.some.inj (found.symm.trans hblock)
  rw [hop, hop']
  apply FollowedBy.require_same
  rintro _ ⟨⟩
  cases hfind : v.memoryOperands.find? (·.opidx = o) with
  | none => exact FollowedBy.fail _
  | some m =>
    have words := h.words _ _ _ hv
    have terms := fun e he => (words.of_mem_addressFormula (List.mem_of_find?_eq_some hfind) (e := e) he).1
    apply (addressTerms_follows h ⟨b', index, v⟩ terms fun _ => .zero).bind
    intro live' _ f f' hf
    exact (FollowedBy.tell _ _).bind_eq fun _ => .ok hf

end Slices

end Base

end AddressFormulas
