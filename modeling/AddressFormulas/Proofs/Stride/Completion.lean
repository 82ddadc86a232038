import AddressFormulas.Proofs.Stride.Termination

namespace AddressFormulas.Stride

open WalkM Skeleton

/-- Nothing is in progress. If nothing was amiss before, no micro-op was reached outside of the
window. -/
structure Skeleton.Quiet (p : CyclicPath) (before : Prop) (sk : Skeleton) : Prop where
  path : sk.path = none ∨ sk.path = some p
  clean : before → sk.clean
  idle : ∀ s, sk.loopCount s = 0
  cycles : sk.cycles = []
  backEdges : sk.backEdges = 0

def sufficientDepth (g : Graph) : Nat :=
  (g.blocks.flatMap Block.ops).length * stretch g + reach g + 1

variable {task : Task} {p : CyclicPath} {before : Prop} {low top : Nat} {w : Walk StrideState}

namespace Skeleton

theorem Quiet.not_inProgress {sk : Skeleton} (h : sk.Quiet p before) (s : Site) : ¬sk.InProgress s := by
  unfold InProgress
  rw [h.idle s]
  exact Nat.lt_irrefl 0

theorem Quiet.inv {sk : Skeleton} (h : sk.Quiet p before) (hp : sk.path = some p) : sk.Inv p where
  path := hp
  visit_le s hs := absurd hs (h.not_inProgress s)
  visit_inj s _ hs := absurd hs (h.not_inProgress s)
  cycles_open c hc := by simp [h.cycles] at hc
  cycles_sorted := by simp [h.cycles]

theorem Quiet.behind {sk : Skeleton} (h : sk.Quiet p before) (g : Graph) (b i : Nat) :
    sk.Behind g p b i := fun s hs => absurd hs (h.not_inProgress s)

theorem Quiet.served {pc : Nat} {sk sk' : Skeleton} (h : sk.Quiet p before) (hs : Served p pc sk sk') :
    sk'.Quiet p before where
  path := .inr hs.inv.path
  clean := hs.frame.clean ∘ h.clean
  idle s := by
    rw [hs.frame.loopCount]
    exact h.idle s
  cycles := by
    refine List.eq_nil_iff_forall_not_mem.mpr fun c hc => ?_
    obtain ⟨hc, _⟩ := hs.inv.cycles_open c hc
    unfold InProgress at hc
    rw [hs.frame.loopCount] at hc
    exact h.not_inProgress _ hc
  backEdges := hs.frame.backEdges.trans h.backEdges

end Skeleton

def M.StaysQuiet (p : CyclicPath) (before : Prop) {α : Type} (m : M α) : Prop :=
  ∀ w, (skeleton w).Quiet p before → ends m (fun _ w' => (skeleton w').Quiet p before) w

theorem M.Neutral.staysQuiet {α : Type} {m : M α} (h : m.Neutral) : m.StaysQuiet p before :=
  fun _ quiet => ends_of_neutral h fun _ _ same => same ▸ quiet

theorem clear_staysQuiet : clear.StaysQuiet p before := fun _ h =>
  ⟨h.path, h.clean, h.idle, rfl, rfl⟩

theorem congruence_staysQuiet (hs : task.settings.strict = false) :
    ValueCongruence task task.settings fun _ m _ => m.StaysQuiet p before where
  ok _ _ h := h
  bind hm hf w h := wp_bind.mpr (wp_imp (hm w h) fun a w' => hf a w')
  client _ h := h
  tell _ he := (tell_neutral he).staysQuiet
  report hf he := M.Neutral.staysQuiet (.report hs hf (unconcerned_skeleton.unheard _ he))
  claim reg := (claim_neutral reg).staysQuiet

section Slices

variable (hset : Setting task p low top) {b : Nat} (hb : b ∈ p.blocks)
  (hp : CyclicPath.build? task.graph b task.marker = some p)

include hset hb hp

theorem ensurePath_ends (h : (skeleton w).Quiet p before) :
    ends (ensurePath task b) (fun _ w' => (skeleton w').Quiet p before ∧ (skeleton w').path = some p) w := by
  obtain ⟨block, hblock⟩ := hset.block_of_mem hb
  have found : CyclicPath.find task.graph b task.marker = .ok p := by simp [CyclicPath.find, hp]
  have silent : ∀ e ∈ CyclicPath.events task.settings.showPaths task.graph b task.marker (.ok p),
      e.isWindowFailure = false := by
    intro e he
    simp only [CyclicPath.events, List.mem_ite_nil_right, List.mem_singleton] at he
    rw [he.2]
    rfl
  refine ends_client.mpr ?_
  split
  · next hany =>
    obtain hn | hs := h.path
    · have none : w.client.path = none := hn
      simp [none] at hany
    · exact ⟨h, hs⟩
  · refine ends_modifyClient.mpr ?_
    simp only [ends, wp_bind, hblock, wp_require_some, found, wp_tellAll, wp_modifyClient]
    refine ⟨⟨.inr rfl, ?_, h.idle, h.cycles, h.backEdges⟩, rfl⟩
    intro hbefore e he
    obtain he | he := List.mem_append.mp he
    · exact silent e (List.mem_reverse.mp he)
    · exact h.clean hbefore e he

theorem startSlice_staysQuiet {i : Nat} {u : MicroOp} (reg : Register)
    (hu : task.graph.op? b i = some u) (hdepth : sufficientDepth task.graph ≤ task.settings.depth) :
    (startSlice task ⟨b, i⟩ reg ⟨u.pc, 0⟩).StaysQuiet p before := by
  intro w h
  have walks := (walk_and_follow_end hset task.settings.depth).1
  refine ends_client.mpr ?_
  extract_lets cycles begin'
  have begins : ∀ w', (skeleton w').Quiet p before →
      ends (begin' ()) (fun _ w' => (skeleton w').Quiet p before) w' := by
    intro w' h'
    refine ends_modifyClient.mpr ?_
    refine wp_bind.mpr (wp_imp (ensurePath_ends hset hb hp
      ⟨h'.path, h'.clean, h'.idle, rfl, h'.backEdges⟩) ?_)
    rintro _ w₁ ⟨h₁, path⟩
    have all : idle task.graph (skeleton w₁) ≤ (task.graph.blocks.flatMap Block.ops).length :=
      List.countP_le_length
    have enough := Nat.mul_le_mul_right (stretch task.graph) all
    refine wp_imp (slice_ends hset walks reg 0 hu hb (h₁.inv path) (h₁.behind _ _ _) ?_)
      fun _ w₂ h₂ => h₁.served h₂
    unfold sufficientDepth at hdepth
    omega
  split
  · exact ends_bind (tell_neutral rfl) fun _ w' h' => begins w' (h' ▸ h)
  · exact begins w h

theorem strideTerms_ends {i : Nat} {u : MicroOp} (hu : task.graph.op? b i = some u)
    (hdepth : sufficientDepth task.graph ≤ task.settings.depth) (terms : List (TermKey × Term))
    (sum : Formula) (h : (skeleton w).Quiet p before) :
    ends (strideTerms task ⟨b, i, u⟩ terms sum) (fun _ w' => (skeleton w').Quiet p before) w := by
  have slices : ∀ reg, (startSlice task ⟨b, i⟩ reg ⟨u.pc, 0⟩).StaysQuiet p before := fun reg =>
    startSlice_staysQuiet hset hb hp reg hu hdepth
  have quiet : (strideTerms task ⟨b, i, u⟩ terms sum).StaysQuiet p before :=
    (congruence_staysQuiet hset.lax).strideTerms ⟨b, i, u⟩ clear_staysQuiet slices terms sum
  exact quiet w h

end Slices

/-- Along a path with one back edge of the loop, the stride of every memory operand is computed, no
micro-op is met outside of the window, and nothing is left in progress. -/
theorem operandStride_completes (task : Task) (session : StrideSession) (hg : task.graph.Built)
    (hd : task.graph.DistinctSites) (ho : task.graph.OrderedOps)
    (hlax : task.settings.strict = false)
    (hdepth : sufficientDepth task.graph ≤ task.settings.depth)
    {b index : Nat} {opidx : Int} {op : MicroOp} (hop : task.graph.op? b index = some op)
    (hm : ∃ m ∈ op.memoryOperands, m.opidx = opidx) {p : CyclicPath}
    (hp : CyclicPath.build? task.graph b task.marker = some p)
    (hone : p.steps.countP (fun s => task.graph.isLoopBackEdge task.marker s.2) = 1) :
    ∃ f w, (operandStride task b index opidx).run { client := { session } } = .ok f w ∧
      (∀ site, .failure (.outsideIterationWindow site) ∉ w.journal) ∧
      w.client.backEdges = 0 ∧ w.client.cycles = [] ∧
      ∀ site pr, w.client.progress.get? site = some pr → pr.loopCount = 0 := by
  have hg := hg.wellFormed
  obtain ⟨hb, low, top, circuit⟩ := CyclicPath.isCircuit_of_build? hg hp hone
  have hset : Setting task p low top :=
    ⟨hlax, hg, fun b i c j u v _ _ => hd b i c j u v, fun b _ => ho b, circuit⟩
  have quiet : (skeleton { client := { session } }).Quiet p True :=
    ⟨.inl rfl, fun _ e he => absurd he List.not_mem_nil, fun _ => rfl, rfl, rfl⟩
  have completes : ends (operandStride task b index opidx)
      (fun _ w => (skeleton w).Quiet p True) { client := { session } } := by
    obtain ⟨block, hblock, hop'⟩ := Graph.op?_eq_some.mp hop
    obtain ⟨m, hm, hi⟩ := hm
    unfold operandStride
    simp only [ends, wp_bind, hblock, hop', wp_require_some]
    split
    · next hn => exact absurd hi (by simpa using List.find?_eq_none.mp hn m hm)
    · refine wp_bind.mpr (wp_imp (strideTerms_ends hset hb hp hop hdepth _ _ quiet) ?_)
      refine fun sum w h => ends_bind (tell_neutral rfl) fun _ w' h' => ?_
      rw [← h'] at h
      exact h
  unfold ends wp at completes
  change ∃ f w, operandStride task b index opidx { client := { session } } = .ok f w ∧ _
  split at completes
  · next f w run =>
    refine ⟨f, w, run, fun site hs => ?_, completes.backEdges, completes.cycles, fun site pr h => ?_⟩
    · exact absurd (completes.clean trivial _ hs) (by simp [Event.isWindowFailure])
    · have zero : (w.client.progress.getD site {}).loopCount = 0 := completes.idle site
      rwa [Table.getD, h] at zero
  · exact completes.elim

def spillLoop : Graph :=
  let rax : Register := ⟨.listed 0, 0, 63⟩
  let rbx : Register := ⟨.listed 4, 0, 63⟩
  let atRbx : Operand := .memory { base := some rbx }
  let next : MicroOp :=
    { pc := 0x10, kind := .alu, operation := .add, sources := [.register rax, .immediate 8],
      destinations := [.register rax] }
  let store : MicroOp :=
    { pc := 0x14, kind := .store, operation := .mov, sources := [.register rax],
      destinations := [atRbx] }
  let load : MicroOp :=
    { pc := 0x20, kind := .load, operation := .mov, sources := [atRbx],
      destinations := [.register rax] }
  let use : MicroOp :=
    { pc := 0x24, kind := .load, operation := .mov, sources := [.memory { base := some rax }],
      destinations := [.register rbx] }
  (((({ loopTree := [0, 0] } : Graph).addBlock 0 1 [next, store]).addBlock 1 1 [load, use]).addEdge
    0 1 false).addEdge 1 0 true

def spillBases : OperandTable :=
  let slot : Formula := .register ⟨0x10, 0⟩ ⟨.listed 4, 0, 63⟩
  (OperandTable.setBase {} ⟨0x14, 0⟩ slot).setBase ⟨0x20, 0⟩ slot

theorem operandStride_completes_spillLoop :
    ∃ w, (operandStride ⟨{}, spillLoop, spillBases, 1⟩ 1 1 0).run { client := {} } =
        .ok ((Formula.constant 8).markLoad ⟨0x20, 0⟩) w ∧
      (∀ site, .failure (.outsideIterationWindow site) ∉ w.journal) ∧
      w.client.backEdges = 0 ∧ w.client.cycles = [] ∧
      ∀ site pr, w.client.progress.get? site = some pr → pr.loopCount = 0 := by
  have start : Graph.Built ({ loopTree := [0, 0] } : Graph) := .setLoopParents [0] rfl (.empty "")
  have built : spillLoop.Built := .addEdge _ (by decide) (by decide) <|
    .addEdge _ (by decide) (by decide) <| .addBlock _ _ _ (.addBlock _ _ _ start)
  have ordered : spillLoop.OrderedOps := fun b block hb =>
    (by decide : ∀ block ∈ spillLoop.blocks, block.ops.Pairwise fun u v => u.pc ≤ v.pc)
      block (List.mem_of_getElem? hb)
  have path : CyclicPath.build? spillLoop 1 1 =
      some ⟨1, [(1, 0), (0, 1)], [(1, 2), (0, 1)]⟩ := by decide +kernel
  -- The counter is reached through the spilled value, so the walk goes round the loop.
  have answer : answer? (operandStride ⟨{}, spillLoop, spillBases, 1⟩ 1 1 0) { client := {} } =
      some ((Formula.constant 8).markLoad ⟨0x20, 0⟩) := by
    decide +kernel
  obtain ⟨w, run⟩ := run_of_answer? answer
  have use : spillLoop.op? 1 1 =
      some
        { pc := 0x24, kind := .load, operation := .mov,
          sources := [.memory { base := some ⟨.listed 0, 0, 63⟩ }],
          destinations := [.register ⟨.listed 4, 0, 63⟩] } := rfl
  obtain ⟨f, w', run', left⟩ := operandStride_completes ⟨{}, spillLoop, spillBases, 1⟩ {} built
    (Graph.distinctSites_of_nodup (by decide)) ordered rfl (by decide) use
    ⟨_, List.mem_singleton_self _, rfl⟩ path (by decide)
  cases run.symm.trans run'
  exact ⟨w, run, left⟩

end AddressFormulas.Stride
