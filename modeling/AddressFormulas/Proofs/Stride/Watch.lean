import AddressFormulas.Proofs.Stride.Entering
import AddressFormulas.Proofs.Stride.Sum

namespace AddressFormulas

instance (w : Walk StrideState) (u : Placed) : Decidable (w.computes u) :=
  inferInstanceAs (Decidable (_ ∧ _ ∧ _))

namespace Stride

open WalkM

def watchOp (task : Task) (u : MicroOp) (a b : Register) (v : Placed) (reg : Register) : M Unit := do
  let w ← get
  if v.op = u ∧ w.computes v ∧ w.client.suppliesSum u a.canonical b.canonical = false then
    tell (.failure (.missingOperand u.site 0))
  leaveOp task v reg

def watched (task : Task) (u : MicroOp) (a b : Register) : Slicer StrideState :=
  { slicer task with leaveOp := watchOp task u a b }

section Sum

variable {g : Graph} {u : MicroOp} {a b reg : Register} {task task' : Task} {opidx : Int}
  {φ : MicroOp → MicroOp} {σ : KeySwap} {v : Placed} (h : g.Rewrites φ σ u a b opidx)

include h

theorem replaces (hv : v.IsIn g) : Replaces v (v.mapOp φ) :=
  ⟨rfl, rfl, h.passes hv, h.isLoad hv⟩

omit h in
theorem enterSum_follows (hu : u.AddsRegisters a b) (opidx : Int) {spoils : Event → Prop} {live : Prop}
    {follow follow' : Slicer.FollowFor StrideState} {v v' : Placed} (hv : v.op = u)
    (hv' : v'.op = u.asAddress a b opidx) :
    M.FollowedBy spoils σ live Eq (enterFresh task follow v reg) (enterFresh task' follow' v' reg) := by
  have operation : (u.asAddress a b opidx).operation = .add := hu.operation
  obtain ⟨effect, effect'⟩ := hu.effect opidx
  unfold enterFresh
  rw [hv', hv, operation, hu.operation]
  simp only [classify, bind_assoc, pure_bind, effect, effect']
  exact (FollowedBy.tellAll _ _).bind_eq fun _ => .ok fun _ => rfl

theorem enterFresh_follows_rewrite {spoils : Event → Prop} {live : Prop}
    {follow follow' : Slicer.FollowFor StrideState} (hset : task'.settings = task.settings)
    (hbases : SameBases task task') (hf : Slicer.SearchesFollow spoils (StrideState.Alike σ) follow follow')
    (hv : v.IsIn g) :
    M.FollowedBy spoils σ live Eq (enterFresh task follow v reg)
      (enterFresh task' follow' (v.mapOp φ) reg) := by
  obtain ⟨same, _⟩ | ⟨hvu, sum, adds, _⟩ := h.op _ _ _ hv
  · unfold Placed.mapOp
    rw [same]
    exact enterFresh_follows hset hbases hf
  · exact enterSum_follows adds opidx hvu sum

section Leave

variable (hset : task'.settings = task.settings) (hv : v.IsIn g) (hd : v.op.CanDefine reg)

include hset hv

omit hset in
theorem definitionValue_keeps (spoils : Event → Prop) :
    (likeness spoils σ).Keeps (definitionValue task v.op reg) := by
  -- the journal does not depend on which names are exchanged
  have plain : v.op.IsPlainFor .id := ⟨fun _ _ => rfl, h.words _ _ _ hv⟩
  have followed : M.FollowedBy spoils .id False (StrideValue.Renamed .id) (definitionValue task v.op reg)
      (definitionValue task v.op reg) := definitionValue_follows rfl plain reg
  exact followed.keeps

include hd

theorem leaveOp_follows_rewrite {spoils : Event → Prop} {w w' : Walk StrideState}
    (hw : (likeness spoils σ).Beside w w')
    (supplied : v.op = u → w.computes v → w.client.suppliesSum u a.canonical b.canonical = true) :
    FollowsAt (likeness spoils σ) Eq (leaveOp task v reg) (leaveOp task' (v.mapOp φ) reg) w w' := by
  have hr := replaces h hv
  have names := h.keepsName hv hd
  obtain ⟨same, spares⟩ | ⟨hvu, sum, adds, suits⟩ := h.op _ _ _ hv
  · have plain : v.op.IsPlainFor σ := ⟨spares, h.words _ _ _ hv⟩
    have value : M.FollowedBy spoils σ True (StrideValue.Renamed σ)
        (definitionValue task v.op reg) (definitionValue task' v.op reg) :=
      definitionValue_follows hset plain reg
    apply leaveOp_follows_at hr names (P := fun _ => True) (fun _ _ => trivial) _ hset hw fun _ => trivial
    intro w w' _ hw
    unfold Placed.mapOp
    rw [same]
    exact (value.mono fun _ _ => StrideValue.Renamed.agrees).ends trivial w w' hw
  · apply leaveOp_follows_at hr names
      (P := fun w => w.client.suppliesSum u a.canonical b.canonical = true) _ _ hset hw (supplied hvu)
    · intro w supplies
      rw [hvu]
      exact StrideState.suppliesSum_forget supplies
    · intro w w' supplies hw
      have op : (v.mapOp φ).op = u.asAddress a b opidx := sum
      rw [op, hvu]
      exact sum_follows_at adds opidx suits hw supplies

theorem watchOp_follows :
    M.FollowedBy (fun e => e.missesOperand u.site = true) σ True Eq (watchOp task u a b v reg)
      (leaveOp task' (v.mapOp φ) reg) := by
  let C := likeness (fun e => e.missesOperand u.site = true) σ
  have leaves : C.Keeps (leaveOp task v reg) :=
    leaveOp_keeps (replaces h hv) (h.keepsName hv hd) (definitionValue_keeps h hv _) hset
  have tells : C.Keeps (tell (.failure (.missingOperand u.site 0)) >>= fun _ => leaveOp task v reg) :=
    (Follows.keeps_of (FollowedBy.tell _ (.failure (.missingOperand u.site 0)))).bind fun _ => leaves
  unfold watchOp
  constructor
  · have silent : C.Keeps (get : M (Walk StrideState)) := fun _ clean => clean
    apply silent.bind
    intro w
    split
    · exact tells
    · exact leaves
  · intro _ w w' hw
    change FollowsAt C Eq
      (if v.op = u ∧ w.computes v ∧ w.client.suppliesSum u a.canonical b.canonical = false then _ else _) _ w w'
    split
    · have spoiled : ∀ t : Walk StrideState,
          ¬C.Clean { t with journal := .failure (.missingOperand u.site 0) :: t.journal } :=
        fun t clean => clean _ List.mem_cons_self (decide_eq_true rfl)
      apply wp_bind.mpr
      apply (wp_tell _).mpr
      exact wp_mono (leaves _) (fun _ _ kept clean => absurd (kept clean) (spoiled w))
        fun _ _ kept clean => absurd (kept clean) (spoiled w)
    · next unwatched =>
      apply leaveOp_follows_rewrite h hset hv hd hw
      intro hvu computes
      by_contra lacks
      exact unwatched ⟨hvu, computes, eq_false_of_ne_true lacks⟩

end Leave

/-- What the watching slicer does in `g` has the same outcome as slices of the routine with `u` rewritten. -/
theorem watched_mirrors (hset : task'.settings = task.settings) (hg : task.graph = g)
    (hg' : task'.graph = g.mapOps φ) (hm : task'.marker = task.marker) (hbases : SameBases task task') :
    (watched task u a b).Mirrors (fun e => e.missesOperand u.site = true) (StrideState.Alike σ) g φ
      (slicer task') := by
  have graph : task'.graph = task.graph.mapOps φ := hg'.trans (by rw [hg])
  constructor
  · exact fun _ _ _ hv => h.passes hv
  · exact h.words
  · exact congrArg Settings.strict hset
  · exact fun _ _ _ => hbases
  · exact fun _ => .ok fun _ => rfl
  · intro p reg
    apply start_follows graph
    intro b i op hop
    exact (h.passes (hg ▸ hop)).site
  · intro follow follow' hf v reg hv
    apply enterOp_follows (replaces h hv)
    exact enterFresh_follows_rewrite h hset hbases hf hv
  · exact fun v reg hv hd => watchOp_follows h hset hv hd
  · exact fun e _ => enterEdge_follows graph hm e
  · exact fun e _ => leaveEdge_follows graph hm e
  · exact fun b reg => enterBlock_follows graph b
  · exact fun _ reg => push_outside reg
  · exact fun _ _ => .ok fun _ => rfl
  · intro reg c i v value hv fits
    apply fixedValue_follows (h.passes hv) fits
    intro store
    obtain ⟨_, spares⟩ | ⟨rfl, _, adds, _⟩ := h.op _ _ _ hv
    · exact fun r _ => spares v.idx r
    · simp [MicroOp.isStore, adds.kind] at store

end Sum

section Operand

def startSliceBy (s : Slicer StrideState) (task : Task) (p : Position) (reg : Register) (bounds : Bounds) :
    M Unit := do
  let cycles := (← client).cycles
  if !cycles.isEmpty then tell (.leftoverCycles cycles.length)
  modifyClient fun st => { st with cycles := [], session := ⟨0, st.session.slices + 1⟩ }
  ensurePath task p.block
  s.slice task.graph task.settings.depth p reg bounds

def strideTermsBy (s : Slicer StrideState) (task : Task) (v : Placed) :
    List (TermKey × Term) → Formula → M Formula
  | [], sum => return sum
  | (.register _ reg, t) :: rest, sum => do
    if (v.op.hardwired? reg).isSome then strideTermsBy s task v rest sum
    else
      clear
      startSliceBy s task ⟨v.block, v.index⟩ reg ⟨v.op.pc, 0⟩
      let stride ← registerStride reg
      let sum' := sum + stride.scale t.coeff
      if sum'.overflow then
        tell (.strideOverflow v.op.pc reg)
        strideTermsBy s task v rest (sum + (Formula.register v.op.site reg).markIrregular)
      else strideTermsBy s task v rest sum'
  | _ :: rest, sum => strideTermsBy s task v rest sum

def operandStrideBy (s : Slicer StrideState) (task : Task) (b index : Nat) (opidx : Int) : M Formula := do
  let block ← require (task.graph.block? b)
  let op ← require block.ops[index]?
  match op.memoryOperands.find? (·.opidx = opidx) with
  | none => fail (.missingMemoryOperand op.site)
  | some m =>
    let sum ← strideTermsBy s task ⟨b, index, op⟩ (op.addressFormula m).terms.entries .zero
    tell (.strideFormula op.pc m task.marker sum)
    return sum

variable {spoils : Event → Prop} {live : Prop} {σ : KeySwap} {task task' : Task} {reg : Register}
  {φ : MicroOp → MicroOp}

theorem clear_follows : M.FollowedBy spoils σ live Eq clear clear := by
  apply Follows.bind_eq
  · apply Follows.change
    · exact fun _ clean => clean
    · exact fun _ w w' h => ⟨h.1, by rw [h.2.1], h.2.2⟩
  · intro _
    apply FollowedBy.modifyClient
    intro _ st st' h
    exact h.change (f := fun s => { s with
      values := {}, cycles := [], backEdges := 0, startBackEdges := 0, session.visits := 0 })
      (fun _ _ => rfl) nofun

theorem ensurePath_follows (hset : task'.settings = task.settings) (hg : task'.graph = task.graph.mapOps φ)
    (hm : task'.marker = task.marker) (b : Nat) :
    M.FollowedBy spoils σ live Eq (ensurePath task b) (ensurePath task' b) := by
  unfold ensurePath
  rw [hset, hg, hm, CyclicPath.find_mapOps]
  apply FollowedBy.client_bind
  intro live' _ st st' h
  apply Follows.ite
  · intro l
    rw [(h l).same]
  · exact .ok fun _ => rfl
  · apply Follows.bind_eq
    · apply FollowedBy.modifyClient
      intro _ st st' h
      exact h.change (f := fun s => { s with path := none }) (fun _ _ => rfl) h.named
    · intro _
      apply FollowedBy.require_bind (rel_block? task.graph b)
      intro _ _ _ _
      apply (FollowedBy.tellAll _ _).bind_eq
      intro _
      split
      · exact FollowedBy.fail _
      · next path _ =>
        apply FollowedBy.modifyClient
        intro _ st st' h
        exact h.change (f := fun s => { s with path := some path }) (fun _ _ => rfl) h.named

theorem registerStride_follows (reg : Register) :
    M.FollowedBy spoils σ live (Formula.Renamed σ) (registerStride reg) (registerStride reg) := by
  apply (claim_follows reg).bind_known
  intro live₁ _ v? _
  cases v? with
  | none => exact (FollowedBy.tell _ _).bind_eq fun _ => .ok fun _ => .zero
  | some v =>
    apply FollowedBy.client_bind
    intro live₂ _ st st' h
    have stride : M.FollowedBy spoils σ live₂ (Formula.Renamed σ) (pure (st.strideOf v)) (pure (st'.strideOf v)) :=
      .ok fun l => (h l).strideOf v
    cases v with
    | outside => exact stride
    | definition s target =>
      apply Follows.ite
      · intro l
        have known := (h l).progress s
        generalize st.progress.get? s = pr?, st'.progress.get? s = pr'? at known ⊢
        cases known with
        | none => exact Iff.rfl
        | some known =>
          rw [known.same]
          exact Iff.rfl
      · exact (FollowedBy.tell _ _).bind_eq fun _ => stride
      · exact stride

section Rewritten

variable {g : Graph} {u : MicroOp} {a b : Register} {opidx : Int} {v : Placed}
  (h : g.Rewrites φ σ u a b opidx) (hset : task'.settings = task.settings) (hg : task.graph = g)
  (hg' : task'.graph = g.mapOps φ) (hm : task'.marker = task.marker) (hbases : SameBases task task')

include h hset hg hg' hm hbases

theorem startSlice_follows (p : Position) (bounds : Bounds) (hb : bounds.stop = 0) :
    M.FollowedBy (fun e => e.missesOperand u.site = true) σ live Eq
      (startSliceBy (watched task u a b) task p reg bounds) (startSlice task' p reg bounds) := by
  have slices : M.FollowedBy (fun e => e.missesOperand u.site = true) σ live Eq
      ((watched task u a b).slice task.graph task.settings.depth p reg bounds) (slice task' p reg bounds) := by
    unfold slice
    rw [hset, hg, hg']
    exact (watched_mirrors h hset hg hg' hm hbases).slice _ p reg bounds hb
  apply FollowedBy.client_bind
  intro live' hl st st' hst
  have begins : M.FollowedBy (fun e => e.missesOperand u.site = true) σ live' Eq
      (do
        modifyClient fun st => { st with cycles := [], session := ⟨0, st.session.slices + 1⟩ }
        ensurePath task p.block
        (watched task u a b).slice task.graph task.settings.depth p reg bounds)
      (do
        modifyClient fun st => { st with cycles := [], session := ⟨0, st.session.slices + 1⟩ }
        ensurePath task' p.block
        slice task' p reg bounds) := by
    apply Follows.bind_eq
    · apply FollowedBy.modifyClient
      intro _ st st' h
      exact h.change (f := fun s => { s with cycles := [], session := ⟨0, s.session.slices + 1⟩ })
        (fun _ _ => rfl) h.named
    · intro _
      apply (ensurePath_follows hset (hg'.trans (by rw [hg])) hm p.block).bind_eq
      exact fun _ => slices.weaken hl
  apply Follows.ite
  · intro l
    rw [(hst l).same]
  · exact (FollowedBy.tell _ _).bind_eq fun _ => begins
  · exact begins

theorem strideTerms_follows (spares : σ.Spares v.op.pc) {terms : List (TermKey × Term)} {f f' : Formula}
    (hf : live → f.Renamed σ f') :
    M.FollowedBy (fun e => e.missesOperand u.site = true) σ live (Formula.Renamed σ)
      (strideTermsBy (watched task u a b) task v terms f) (strideTerms task' v terms f') := by
  induction terms generalizing live f f' with
  | nil => exact .ok hf
  | cons e rest ih =>
    obtain ⟨key, t⟩ := e
    cases key with
    | register site reg =>
      have unknown : (Formula.register v.op.site reg).Renamed σ (.register v.op.site reg) :=
        .register (spares v.op.idx reg)
      unfold strideTermsBy strideTerms
      split
      · exact ih hf
      · apply clear_follows.bind_eq
        intro _
        apply (startSlice_follows h hset hg hg' hm hbases _ _ rfl).bind_eq
        intro _
        apply (registerStride_follows reg).bind
        intro live' hl stride stride' hstride
        have sum : live' → (f + stride.scale t.coeff).Renamed σ (f' + stride'.scale t.coeff) :=
          fun l => (hf (hl l)).add ((hstride l).scale _)
        apply Follows.ite
        · intro l
          rw [(sum l).overflow]
        · exact (FollowedBy.tell _ _).bind_eq fun _ => ih fun l => (hf (hl l)).add unknown.markIrregular
        · exact ih sum
    | _ => exact ih hf

theorem operandStride_follows {c index : Nat} {op : MicroOp} (hop : g.op? c index = some op)
    (hmem : op.memoryOperands ≠ []) (o : Int) :
    M.FollowedBy (fun e => e.missesOperand u.site = true) σ live (Formula.Renamed σ)
      (operandStrideBy (watched task u a b) task c index o) (operandStride task' c index o) := by
  obtain ⟨same, spares⟩ : φ op = op ∧ σ.Spares op.pc := by
    obtain plain | ⟨rfl, _, adds, _⟩ := h.op _ _ _ hop
    · exact plain
    · exact absurd adds.memoryOperands hmem
  obtain ⟨block, hblock, hindex⟩ := Graph.op?_eq_some.mp hop
  have hblock' : (g.mapOps φ).block? c = some (block.mapOps φ) := by
    rw [Graph.block?_mapOps, hblock]
    rfl
  have hindex' : (block.mapOps φ).ops[index]? = some op := by
    unfold Block.mapOps
    rw [List.getElem?_map, hindex, Option.map_some, same]
  unfold operandStrideBy operandStride
  rw [hg, hg', hblock, hblock']
  change M.FollowedBy _ σ live _ (require block.ops[index]? >>= _) (require (block.mapOps φ).ops[index]? >>= _)
  rw [hindex, hindex']
  change M.FollowedBy _ σ live _ (match op.memoryOperands.find? _ with | none => _ | some m => _)
    (match op.memoryOperands.find? _ with | none => _ | some m => _)
  cases hfind : op.memoryOperands.find? (·.opidx = o) with
  | none => exact FollowedBy.fail _
  | some m =>
    apply (strideTerms_follows h hset hg hg' hm hbases spares fun _ => .zero).bind
    intro live' _ f f' hf
    exact (FollowedBy.tell _ _).bind_eq fun _ => .ok hf

end Rewritten

end Operand

end Stride

end AddressFormulas
