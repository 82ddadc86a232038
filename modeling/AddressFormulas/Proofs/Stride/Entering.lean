import AddressFormulas.Proofs.Stride.Leaving

namespace AddressFormulas.Stride

open WalkM

variable {spoils : Event → Prop} {σ : KeySwap} {live : Prop} {task task' : Task}
  {follow follow' : Slicer.FollowFor StrideState} {u : Placed} {reg : Register}

def SameBases (task task' : Task) : Prop :=
  ∀ o, Option.Rel (Formula.Renamed .id) (task.bases.base? o) (task'.bases.base? o)

section Load

variable (hset : task'.settings = task.settings) (hbases : SameBases task task')
  (hf : Slicer.SearchesFollow spoils (StrideState.Alike σ) follow follow')

include hf in
theorem spilledValue?_follows {base base' : Formula} (hb : live → base.Renamed .id base') :
    M.FollowedBy spoils σ live (Option.Rel (StrideValue.Renamed σ)) (spilledValue? follow u base)
      (spilledValue? follow' u base') := by
  apply Follows.bind_eq
  · apply Follows.change
    · exact fun _ clean => clean
    · exact fun _ w w' h => ⟨h.1, by rw [h.2.1], h.2.2⟩
  · intro _
    apply (hf _ base base' hb).bind_eq
    intro saved
    cases saved with
    | none => exact .ok fun _ => .none
    | some saved =>
      apply (claim_follows saved).bind_known
      intro live' _ v _
      cases v with
      | none => exact .ok fun _ => .none
      | some v =>
        cases v with
        | outside => exact .ok fun _ => .none
        | definition s target =>
          apply FollowedBy.client_bind
          intro live'' hl st st' hst
          have known : live'' → Option.Rel (Progress.Alike σ) (st.progress.get? s) (st'.progress.get? s) :=
            fun l => (hst l).progress s
          generalize st.progress.get? s = pr?, st'.progress.get? s = pr'? at known
          apply known_follows known
          · intro pr? bare
            split
            · cases bare
            · exact .ok fun _ => .none
          · intro live₃ _ pr f f' kept
            exact .ok fun l => .some (.of_formula (kept l) _ _)

include hset hbases hf in
theorem searchSpill_follows : M.FollowedBy spoils σ live (Option.Rel (StrideValue.Renamed σ))
    (searchSpill task follow u) (searchSpill task' follow' u) := by
  have bases := Slicer.loadBase?_renamed hbases u.op
  unfold searchSpill
  rw [hset]
  generalize Slicer.loadBase? task.bases u.op = b?, Slicer.loadBase? task'.bases u.op = b'? at bases
  cases bases with
  | none => exact .ok fun _ => .none
  | some h =>
    dsimp only
    split
    · exact spilledValue?_follows hf fun _ => h
    · exact .ok fun _ => .none

include hbases in
theorem unknownLoad_renamed : (unknownLoad task u reg).Renamed σ (unknownLoad task' u reg) := by
  have bases := Slicer.loadBase?_renamed hbases u.op
  have same : unknownLoad task' u reg = unknownLoad task u reg := by
    unfold unknownLoad
    generalize Slicer.loadBase? task.bases u.op = b?, Slicer.loadBase? task'.bases u.op = b'? at bases
    cases bases with
    | none => rfl
    | some h => simp only [Option.bind_some, h.constantValue?]
  rw [same]
  unfold unknownLoad
  split
  · exact .reference _ _
  · exact .load _ _

include hbases in
theorem noteLoad_follows {v? v'? : Option StrideValue}
    (hv : live → Option.Rel (StrideValue.Renamed σ) v? v'?) :
    M.FollowedBy spoils σ live Eq (noteLoad task u reg v?) (noteLoad task' u reg v'?) := by
  apply FollowedBy.of_updates (noteLoad_updates task u reg v?) (noteLoad_updates task' u reg v'?)
  intro l st st' h
  apply h.modifyProgress
  intro pr pr' hpr
  cases hv l with
  | none =>
    unfold loadedAs
    rw [hpr.same]
    exact ⟨rfl, .some ((unknownLoad_renamed hbases).markLoad _)⟩
  | some value =>
    unfold loadedAs
    dsimp only
    rw [hpr.same, value.kind, value.target]
    exact ⟨rfl, .some (value.formula.markLoad _)⟩

include hset hbases hf in
theorem resolveLoad_follows : M.FollowedBy spoils σ live Eq (resolveLoad task follow u reg)
    (resolveLoad task' follow' u reg) := by
  rw [resolveLoad_eq, resolveLoad_eq]
  exact (searchSpill_follows hset hbases hf).bind fun _ _ _ hv => noteLoad_follows hbases hv

include hset hbases hf in
theorem enterFresh_follows : M.FollowedBy spoils σ live Eq (enterFresh task follow u reg)
    (enterFresh task' follow' u reg) := by
  apply (FollowedBy.classify rfl).bind_eq
  intro effect
  split
  · exact .ok fun _ => rfl
  · exact .ok fun _ => rfl
  · split
    · exact (FollowedBy.tell _ _).bind_eq fun _ => .ok fun _ => rfl
    · split
      · apply (FollowedBy.tell _ _).bind_eq
        intro _
        apply Follows.bind_eq
        · apply modifyProgress_follows
          intro _ pr pr' hpr
          rw [hpr.same]
          exact ⟨rfl, .some .zero⟩
        · exact fun _ => .ok fun _ => rfl
      · exact .ok fun _ => rfl
  · exact (resolveLoad_follows hset hbases hf).bind_eq fun _ => .ok fun _ => rfl

end Load

theorem reusable_alike {st st' : StrideState} (h : st.Alike σ st') (s : Site) :
    reusable st' (st'.progressAt s) = reusable st (st.progressAt s) := by
  have progress := h.progressAt s
  have pending : ∀ target, st'.targetPending target = st.targetPending target := by
    intro target
    rw [h.same]
    rfl
  have slices : st'.session = st.session := by rw [h.same]
  unfold reusable
  rw [progress.formula.isSome_eq, pending, slices, progress.same]

theorem enterOp_follows {u' : Placed} (hu : Replaces u u')
    (fresh : ∀ {live' : Prop}, M.FollowedBy spoils σ live' Eq (enterFresh task follow u reg)
      (enterFresh task' follow' u' reg)) :
    M.FollowedBy spoils σ live Eq (enterOp task follow u reg) (enterOp task' follow' u' reg) := by
  apply (outsideWindow_follows hu).bind_eq
  intro outside
  split
  · exact .ok fun _ => rfl
  · apply FollowedBy.client_bind
    intro live' _ st st' h
    rw [hu.passes.site]
    have again : live' → reusable st' (st'.progressAt u.op.site) = reusable st (st.progressAt u.op.site) :=
      fun l => reusable_alike (h l) _
    have loopCount : live' → (st'.progressAt u.op.site).loopCount = (st.progressAt u.op.site).loopCount := by
      intro l
      rw [((h l).progressAt u.op.site).same]
    dsimp only
    apply Follows.ite
    · intro l
      rw [loopCount l]
    · exact .ok fun _ => rfl
    · -- counting the visit changes what `reusable` reads, so its value is fixed before
      generalize reusable st' (st'.progressAt u.op.site) = again',
        reusable st (st.progressAt u.op.site) = again₀ at again
      apply Follows.bind_eq
      · apply FollowedBy.modifyClient
        intro l st₁ st₁' h₁
        have counted : StrideState.Alike σ { st₁ with session.visits := st₁.session.visits + 1 }
            { st₁' with session.visits := st₁'.session.visits + 1 } :=
          h₁.change (f := fun s => { s with session.visits := s.session.visits + 1 }) (fun _ _ => rfl) h₁.named
        rw [again l]
        apply counted.modifyProgress
        intro pr pr' hpr
        rw [h₁.same]
        constructor
        · rw [hpr.same]
        · cases again₀ with
          | true => exact hpr.formula
          | false => exact .none
      · intro _
        apply Follows.ite
        · intro l
          rw [again l]
        · exact .ok fun _ => rfl
        · exact fresh

section Places

variable {φ : MicroOp → MicroOp} (hg : task'.graph = task.graph.mapOps φ)

include hg

theorem start_follows (hφ : ∀ b i op, task.graph.op? b i = some op → (φ op).site = op.site) (p : Position) :
    M.FollowedBy spoils σ live Eq (start task p reg) (start task' p reg) := by
  unfold start
  rw [hg]
  apply FollowedBy.require_bind (rel_block? task.graph p.block)
  rintro block _ hblock rfl
  apply Follows.bind_eq
  · apply FollowedBy.modifyClient
    intro _ st st' h
    have begun : StrideState.Alike σ
        { st with startBackEdges := st.backEdges, startRank := st.pathRank p.block }
        { st' with startBackEdges := st'.backEdges, startRank := st'.pathRank p.block } :=
      h.change (f := fun s => { s with startBackEdges := s.backEdges, startRank := s.pathRank p.block })
        (fun _ _ => rfl) h.named
    exact begun
  · intro _
    have found : (block.mapOps φ).ops[p.before]? = block.ops[p.before]?.map φ := List.getElem?_map ..
    rw [found]
    cases hop : block.ops[p.before]? with
    | none => exact .ok fun _ => rfl
    | some op =>
      simp only [Option.map_some]
      rw [hφ p.block p.before op (Graph.op?_eq_some.mpr ⟨block, hblock, hop⟩)]
      apply modifyProgress_follows
      intro _ pr pr' hpr
      rw [hpr.same]
      exact ⟨rfl, hpr.formula⟩

theorem enterEdge_follows (hm : task'.marker = task.marker) (e : Nat) :
    M.FollowedBy spoils σ live Eq (enterEdge task e) (enterEdge task' e) := by
  unfold enterEdge
  rw [hg, hm, Graph.isLoopBackEdge_mapOps, Graph.edge?_mapOps]
  apply FollowedBy.require_same
  intro _ _
  apply FollowedBy.client_bind
  intro live' _ st st' h
  apply Follows.ite
  · intro l
    rw [(h l).same]
    simp only [CyclicPath.takesEdge_mapOps]
  · split
    · apply Follows.bind_eq
      · apply FollowedBy.modifyClient
        intro _ st st' h
        exact h.change (f := fun s => { s with backEdges := s.backEdges + 1 }) (fun _ _ => rfl) h.named
      · exact fun _ => .ok fun _ => rfl
    · exact .ok fun _ => rfl
  · exact .ok fun _ => rfl

theorem leaveEdge_follows (hm : task'.marker = task.marker) (e : Nat) :
    M.FollowedBy spoils σ live Eq (leaveEdge task e) (leaveEdge task' e) := by
  unfold leaveEdge
  rw [hg, hm, Graph.isLoopBackEdge_mapOps]
  split
  · apply FollowedBy.modifyClient
    intro _ st st' h
    exact h.change (f := fun s => { s with backEdges := s.backEdges - 1 }) (fun _ _ => rfl) h.named
  · exact .ok fun _ => rfl

theorem enterBlock_follows (b : Nat) :
    M.FollowedBy spoils σ live Eq (enterBlock task b reg) (enterBlock task' b reg) := by
  unfold enterBlock
  rw [hg]
  apply FollowedBy.require_bind (rel_block? task.graph b)
  rintro block _ _ rfl
  apply Follows.read_bind
  intro live' _ w w' h
  apply Follows.ite
  · intro l
    obtain ⟨state, bounds, _⟩ := h l
    have state : w.client.Alike σ w'.client := state
    rw [bounds, state.same]
    rfl
  · exact (push_outside reg).bind_eq fun _ => .ok fun _ => rfl
  · exact .ok fun _ => rfl

end Places

theorem fixedValue_follows {op op' : MicroOp} (hop : op.Passes op') {v : Int} (hv : Word.fits v = true)
    (names : op.isStore = true → op.KeepsName σ reg) :
    M.FollowedBy spoils σ live Eq (fixedValue reg op v) (fixedValue reg op' v) := by
  unfold fixedValue
  rw [hop.isStore, hop.site]
  split
  · next store =>
    apply (push_follows reg (fun _ => rfl) ((names store).named 0)).bind_eq
    intro _
    apply modifyProgress_follows
    intro _ pr pr' hpr
    rw [hpr.same]
    exact ⟨rfl, .some (.constant hv)⟩
  · exact .ok fun _ => rfl

end AddressFormulas.Stride
