import AddressFormulas.Proofs.Stride.Bookkeeping
import AddressFormulas.Proofs.Stride.Mirroring

namespace AddressFormulas

def StrideState.recomputes (st : StrideState) (u : MicroOp) : Bool :=
  let closing := st.atCycleStart u.site
  !(closing && u.isLoad) &&
    !(!closing && (st.progressAt u.site).formula.isSome && (st.progressAt u.site).reuse)

def Walk.computes (w : Walk StrideState) (u : Placed) : Prop :=
  w.client.outsideWindow (w.client.pathRank u.block) (u.op.pc < w.bounds.start) = false ∧
    ¬(0 < (w.client.progressAt u.op.site).loopCount ∧
      (w.client.progressAt u.op.site).loopCount < w.client.backEdges + 1) ∧
    w.client.recomputes u.op = true

theorem MicroOp.KeepsName.named {u : MicroOp} {σ : KeySwap} {reg : Register} (h : u.KeepsName σ reg)
    (target : Nat) : (ValueSource.definition u.site target).Named σ (.register reg) := by
  rintro _ _ ⟨rfl, _⟩ r hr
  exact h r (.inr hr)

namespace Stride

open WalkM

theorem settledFormula_renamed {σ : KeySwap} {u : MicroOp} {reg : Register} {v v' : StrideValue}
    (hv : v.Agrees σ v') (names : u.KeepsName σ reg) {u' : MicroOp} (site : u'.site = u.site) :
    (settledFormula u reg v).Renamed σ (settledFormula u' reg v') := by
  unfold settledFormula
  rw [hv.formula.overflow, site]
  split
  · exact Formula.Renamed.markIrregular (.register (names reg (.inl rfl)))
  · next plain => exact hv.formula.renamed (by simpa using plain)

structure Replaces (u u' : Placed) : Prop where
  block : u'.block = u.block
  index : u'.index = u.index
  passes : u.op.Passes u'.op
  isLoad : u'.op.isLoad = u.op.isLoad

variable {spoils : Event → Prop} {σ : KeySwap} {live : Prop} {task task' : Task} {u u' : Placed}
  {reg : Register} {w w' : Walk StrideState}

abbrev likeness (spoils : Event → Prop) (σ : KeySwap) : Comparison (Walk StrideState) :=
  .walks spoils (StrideState.Alike σ)

theorem resetLoopCount_follows (site : Site) {m m' : M Unit} (h : M.FollowedBy spoils σ live Eq m m') :
    M.FollowedBy spoils σ live Eq (modifyProgress site (fun pr => { pr with loopCount := 0 }) >>= fun _ => m)
      (modifyProgress site (fun pr => { pr with loopCount := 0 }) >>= fun _ => m') := by
  apply (modifyProgress_follows _ _).bind_eq
  · exact fun _ => h
  · intro _ pr pr' hpr
    rw [hpr.same]
    exact ⟨rfl, hpr.formula⟩

variable (hu : Replaces u u')

include hu

theorem outsideWindow_follows :
    M.FollowedBy spoils σ live Eq (outsideWindow u) (outsideWindow u') := by
  apply Follows.read_bind
  intro live' _ w w' h
  refine .ok fun l => ?_
  obtain ⟨state, bounds, _⟩ := h l
  rw [hu.block, hu.passes.pc, bounds, state.same]
  rfl

variable (names : u.op.KeepsName σ reg)

include names

theorem settleDefinition_follows {closing : Bool} {v v' : StrideValue} (hv : live → v.Agrees σ v') :
    M.FollowedBy spoils σ live Eq (settleDefinition task u reg closing v)
      (settleDefinition task' u' reg closing v') := by
  apply FollowedBy.of_updates (settleDefinition_updates u reg closing v)
    (settleDefinition_updates u' reg closing v')
  intro l st st' h
  have entry : settledAs closing v' (st'.progressAt u.op.site) =
      settledAs closing v (st.progressAt u.op.site) := by
    rw [(h.progressAt u.op.site).same]
    unfold settledAs
    rw [(hv l).kind, (hv l).target]
  have formula := settledFormula_renamed (hv l) names hu.passes.site
  unfold settled recorded
  rw [hu.passes.site, entry]
  refine StrideState.Alike.push (StrideState.Alike.modifyProgress ?_ _ ?_) reg (names.named _)
  · exact h.change (f := fun s => { s with
      cycles := if closing then s.cycles.dropWhile (·.site = u.op.site) else s.cycles })
      (fun _ _ => rfl) h.named
  · intro pr pr' hpr
    rw [hpr.same, h.same]
    exact ⟨rfl, .some formula⟩

theorem seedCycle_follows (hset : task'.settings = task.settings) :
    M.FollowedBy spoils σ live Eq (seedCycle task u reg) (seedCycle task' u' reg) := by
  unfold seedCycle
  rw [hu.passes.site, hu.isLoad, hset]
  apply FollowedBy.client_bind
  intro live₁ _ st st' h
  have visit : live₁ → (st'.progressAt u.op.site).visit = (st.progressAt u.op.site).visit := by
    intro l
    rw [((h l).progressAt u.op.site).same]
  apply (modifyProgress_follows _ _).bind_eq
  · intro _
    apply (FollowedBy.tell _ _).bind_eq
    intro _
    apply (push_follows reg _ _).bind_eq
    · intro _
      apply Follows.bind_eq
      · apply FollowedBy.modifyClient
        intro l st₁ st₁' h₁
        rw [visit l]
        exact h₁.change (f := fun s => { s with
          cycles := StrideState.insertCycle ⟨(st.progressAt u.op.site).visit, u.op.site⟩ s.cycles })
          (fun _ _ => rfl) h₁.named
      · intro _
        apply Follows.ite
        · intro l
          have tracked : (st'.progressAt u.op.site).tracked = (st.progressAt u.op.site).tracked := by
            rw [((h l).progressAt u.op.site).same]
          have reads : u'.op.reads = u.op.reads := by
            funext r
            unfold MicroOp.reads
            rw [hu.passes.sourceRegisters]
          rw [tracked, reads]
        · exact FollowedBy.report _ _
        · exact .ok fun _ => rfl
    · intro l
      rw [visit l]
    · exact names.named _
  · intro l pr pr' hpr
    rw [(h l).same, hpr.same]
    exact ⟨rfl, .some .zero⟩

section Finish

section Keeps

variable (keeps : (likeness spoils σ).Keeps (definitionValue task u.op reg))

include keeps

omit hu names in
theorem finishOp_keeps : (likeness spoils σ).Keeps (finishOp task u reg) := by
  have settles : ∀ closing v, (likeness spoils σ).Keeps (settleDefinition task u reg closing v) :=
    fun closing v => FollowedBy.keeps_of_updates (settleDefinition_updates u reg closing v)
  have silent : (likeness spoils σ).Keeps (client : M StrideState) := fun _ clean => clean
  have notes : ∀ f, (likeness spoils σ).Keeps (modifyProgress u.op.site f) := fun _ _ clean => clean
  have pushes : ∀ v, (likeness spoils σ).Keeps (push reg v) := fun _ _ clean => clean
  apply silent.bind
  intro st
  dsimp only
  split
  · exact settles _ _
  · split
    · exact (notes _).bind fun _ => pushes _
    · split
      · exact (notes _).bind fun _ => keeps.bind fun v => settles _ v
      · exact keeps.bind fun v => settles _ v

theorem leaveOp_keeps (hset : task'.settings = task.settings) :
    (likeness spoils σ).Keeps (leaveOp task u reg) := by
  have outside : (likeness spoils σ).Keeps (outsideWindow u) := Follows.keeps_of (outsideWindow_follows hu)
  have silent : (likeness spoils σ).Keeps (client : M StrideState) := fun _ clean => clean
  have notes : ∀ f, (likeness spoils σ).Keeps (modifyProgress u.op.site f) := fun _ _ clean => clean
  have pushes : ∀ v, (likeness spoils σ).Keeps (push reg v) := fun _ _ clean => clean
  apply outside.bind
  intro out
  split
  · exact (notes _).bind fun _ => (pushes _).bind fun _ => Follows.keeps_of (FollowedBy.report _ _)
  · apply silent.bind
    intro st
    dsimp only
    split
    · exact Follows.keeps_of (seedCycle_follows hu names hset)
    · exact finishOp_keeps keeps

end Keeps

variable {P : Walk StrideState → Prop}
  (hP : ∀ w, P w →
    P { w with client := w.client.modifyProgress u.op.site fun pr => { pr with formula := none } })
  (hval : ∀ w w', P w → (likeness spoils σ).Beside w w' → FollowsAt (likeness spoils σ) (StrideValue.Agrees σ)
    (definitionValue task u.op reg) (definitionValue task' u'.op reg) w w')

include hP hval

omit hP in
theorem recompute_follows_at {closing : Bool} (hw : P w) (h : (likeness spoils σ).Beside w w') :
    FollowsAt (likeness spoils σ) Eq
      (definitionValue task u.op reg >>= settleDefinition task u reg closing)
      (definitionValue task' u'.op reg >>= settleDefinition task' u' reg closing) w w' := by
  apply Follows.bind_at (hval w w' hw h)
  · exact fun v => FollowedBy.keeps_of_updates (settleDefinition_updates u reg closing v)
  · intro v v' hv
    have settles : M.FollowedBy spoils σ True Eq (settleDefinition task u reg closing v)
        (settleDefinition task' u' reg closing v') :=
      settleDefinition_follows hu names fun _ => hv
    exact settles.ends trivial

theorem finishOp_follows_at (h : (likeness spoils σ).Beside w w') (hw : w.client.recomputes u.op → P w) :
    FollowsAt (likeness spoils σ) Eq (finishOp task u reg) (finishOp task' u' reg) w w' := by
  have alike : w.client.Alike σ w'.client := h.1
  have progress := alike.progressAt u.op.site
  have closes : w'.client.atCycleStart u'.op.site = w.client.atCycleStart u.op.site := by
    rw [hu.passes.site, alike.same]
    rfl
  unfold finishOp
  apply FollowedBy.client_bind_at
  unfold StrideState.recomputes at hw
  rw [closes, hu.isLoad, hu.passes.site]
  have reuse : (w'.client.progressAt u.op.site).reuse = (w.client.progressAt u.op.site).reuse := by
    rw [progress.same]
  dsimp only
  rw [progress.formula.isSome_eq, reuse]
  -- three ways to finish: close the cycle of a load, reuse the formula, or compute it anew
  cases hload : w.client.atCycleStart u.op.site && u.op.isLoad with
  | true =>
    simp only [if_true]
    have settles : ∀ {closing v v'}, StrideValue.Agrees σ v v' → M.FollowedBy spoils σ True Eq
        (settleDefinition task u reg closing v) (settleDefinition task' u' reg closing v') :=
      fun hv => settleDefinition_follows hu names fun _ => hv
    apply (settles _).ends trivial w w' h
    rw [progress.same]
    have formula := progress.formula
    generalize (w.client.progressAt u.op.site).formula = f?,
      (w'.client.progressAt u.op.site).formula = f'? at formula ⊢
    cases formula with
    | none => exact (StrideValue.Renamed.of_formula .zero _ _).agrees
    | some hf => exact (StrideValue.Renamed.of_formula hf _ _).agrees
  | false =>
    simp only [Bool.false_eq_true, if_false]
    cases hreuse : !w.client.atCycleStart u.op.site && (w.client.progressAt u.op.site).formula.isSome &&
        (w.client.progressAt u.op.site).reuse with
    | true =>
      simp only [if_true]
      have leaves : M.FollowedBy spoils σ True Eq
          (push reg (.definition u.op.site (w.client.progressAt u.op.site).target))
          (push reg (.definition u.op.site (w'.client.progressAt u.op.site).target)) := by
        apply push_follows
        · intro _
          rw [progress.same]
        · exact names.named _
      exact (resetLoopCount_follows _ leaves).ends trivial w w' h
    | false =>
      have ready : P w := hw (by simp [hload, hreuse])
      simp only [Bool.false_eq_true, if_false]
      cases w.client.atCycleStart u.op.site with
      | true => exact recompute_follows_at hu names hval ready h
      | false =>
        apply FollowedBy.modifyClient_bind_at
        apply recompute_follows_at hu names hval (hP w ready)
        refine ⟨?_, h.2⟩
        apply alike.modifyProgress
        intro pr pr' hpr
        rw [hpr.same]
        exact ⟨rfl, .none⟩

theorem leaveOp_follows_at (hset : task'.settings = task.settings)
    (h : (likeness spoils σ).Beside w w') (hw : w.computes u → P w) :
    FollowsAt (likeness spoils σ) Eq (leaveOp task u reg) (leaveOp task' u' reg) w w' := by
  have alike : w.client.Alike σ w'.client := h.1
  have progress := alike.progressAt u.op.site
  have out : w'.client.outsideWindow (w'.client.pathRank u'.block) (u'.op.pc < w'.bounds.start) =
      w.client.outsideWindow (w.client.pathRank u.block) (u.op.pc < w.bounds.start) := by
    rw [hu.block, hu.passes.pc, h.2.1, alike.same]
    rfl
  have loopCount : (w'.client.progressAt u.op.site).loopCount = (w.client.progressAt u.op.site).loopCount := by
    rw [progress.same]
  have backEdges : w'.client.backEdges = w.client.backEdges := by rw [alike.same]
  have reports : M.FollowedBy spoils σ True Eq
      (do
        push reg .outside
        report task.settings.strict (.outsideIterationWindow u.op.site))
      (do
        push reg .outside
        report task.settings.strict (.outsideIterationWindow u.op.site)) :=
    (push_outside reg).bind_eq fun _ => FollowedBy.report _ _
  change FollowsAt (likeness spoils σ) Eq
    (if w.client.outsideWindow (w.client.pathRank u.block) (u.op.pc < w.bounds.start) = true then _ else _)
    (if w'.client.outsideWindow (w'.client.pathRank u'.block) (u'.op.pc < w'.bounds.start) = true then _
      else _) w w'
  rw [out, hset, hu.passes.site]
  cases houtside : w.client.outsideWindow (w.client.pathRank u.block) (u.op.pc < w.bounds.start) with
  | true => exact (resetLoopCount_follows _ reports).ends trivial w w' h
  | false =>
    apply FollowedBy.client_bind_at
    dsimp only
    rw [loopCount, backEdges]
    split
    · exact (seedCycle_follows hu names hset).ends trivial w w' h
    · next hopen =>
      exact finishOp_follows_at hu names hP hval h fun computes => hw ⟨houtside, hopen, computes⟩

end Finish

end Stride

end AddressFormulas
