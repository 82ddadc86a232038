import AddressFormulas.Proofs.Stride.Bookkeeping

namespace AddressFormulas.Stride

open WalkM Loop Skeleton

def Seeks (ops : List MicroOp) (sk : Skeleton) (i before : Nat) (reg : Register) : Prop :=
  before = i ∧ sk.backEdges = sk.startBackEdges ∨
    before = ops.length ∧ sk.backEdges = sk.startBackEdges + 1 ∧
      lastBefore? ops (·.defines? reg) i = none

section Walks

variable {α : Type} {task : Task} {p : CyclicPath} {low top b : Nat} {block : Block}
  {P : α → Ledger → Nat → Register → Prop} {Q : α → Ledger → Nat → Register → Ledger → Prop}
  {w w₁ : Walk StrideState} {a : α} {depth i j before : Nat} {reg : Register} {u : MicroOp}

/-- Walks at depth `depth` for register `reg` before micro-op `i` of which `P` holds leave a ledger
of which `Q` holds. -/
def WalkYields (task : Task) (p : CyclicPath) (low b : Nat) (block : Block)
    (P : α → Ledger → Nat → Register → Prop) (Q : α → Ledger → Nat → Register → Ledger → Prop)
    (depth : Nat) : Prop :=
  ∀ (a : α) (i before : Nat) (reg : Register) (bounds : Bounds) (w : Walk StrideState)
    (sk : Skeleton), sk = { skeleton w with boundStart := bounds.start } → sk.Inv p →
    sk.Behind task.graph p b before → Walking task.graph p low sk reg b before →
    idle task.graph sk * stretch task.graph +
      sk.distance task.graph.blocks.length (p.rank b) < depth →
    Seeks block.ops sk i before reg → i ≤ block.ops.length → P a (ledger w) i reg →
    yields ((slicer task).walk task.graph depth ⟨b, before⟩ reg bounds)
      (fun _ w' => Q a (ledger w) i reg (ledger w')) w

theorem enterBlock_yields (hp : (skeleton w).path = some p) (hb : task.graph.block? b = some block)
    (hr : reg.isWhole = true) :
    yields (enterBlock task b reg) (fun enter w' => skeleton w' = skeleton w ∧
      ((skeleton w).outside (p.rank b) (block.start ≤ (skeleton w).boundStart) ∧ enter = false ∧
          ledger w' = (ledger w).put reg .outside ∨
        ¬(skeleton w).outside (p.rank b) (block.start ≤ (skeleton w).boundStart) ∧ enter = true ∧
          ledger w' = ledger w)) w := by
  have iff := outsideWindow_iff hp b (decide (block.start ≤ w.bounds.start))
  simp only [decide_eq_true_eq] at iff
  unfold enterBlock
  simp only [yields, wp_bind, hb, wp_require_some, wp_get]
  split
  · next hout =>
    refine wp_bind.mpr (wp_imp (wp_and (push_yields hr .outside)
      (yields_of_ends (push_neutral reg .outside w))) ?_)
    rintro _ w' ⟨hl, hsk⟩
    exact ⟨hsk, .inl ⟨iff.mp hout, rfl, hl⟩⟩
  · next hout => exact ⟨rfl, .inr ⟨mt iff.mpr hout, rfl, rfl⟩⟩

theorem leaveOp_after {u : Placed} {R : Unit → Walk StrideState → Prop}
    (h : Served p u.op.pc ((skeleton w).enter u.op.site) (skeleton w₁))
    (inside : ¬(skeleton w).outside (p.rank u.block) (u.op.pc < (skeleton w).boundStart))
    (hq : yields (finishOp task u reg) R w₁) : yields (leaveOp task u reg) R w₁ := by
  apply leaveOp_yields h.inv.path (h.inside inside)
  have count : (skeleton w₁).loopCount u.op.site = (skeleton w₁).backEdges + 1 := by
    rw [h.frame.loopCount, h.frame.backEdges]
    exact Function.update_self _ _ _
  rw [if_neg fun h => by exact Nat.lt_irrefl _ (count ▸ h.2)]
  exact hq

variable (hset : Setting task p low top) (ha : Alone task p b block)

include hset ha

section Sources

variable (hw : WalkYields task p low b block P Q depth) (hu : block.ops[j]? = some u)
  (hinv : (skeleton w).Inv p) (hbehind : (skeleton w).Behind task.graph p b j)
  (hdepth : idle task.graph (skeleton w) * stretch task.graph + reach task.graph < depth)

include hw hu hinv hbehind hdepth

theorem slice_yields (hp : P a (ledger w) j reg) :
    yields ((slicer task).sliceWith ((slicer task).walk task.graph depth) ⟨b, j⟩ reg ⟨u.pc, 0⟩)
      (fun _ w' => Q a (ledger w) j reg (ledger w')) w := by
  have hb := ha.mem
  have hop := Graph.op?_eq_some.mpr ⟨block, ha.block_eq, hu⟩
  have silent : M.Silent (start task ⟨b, j⟩ reg) := start_silent ⟨b, j⟩ reg
  refine wp_bind.mpr (wp_imp (wp_and (silent w)
    (yields_of_ends (start_ends hinv.path ⟨b, j⟩ ha.block_eq reg))) ?_)
  rintro _ w' ⟨hl, hsk⟩
  have rank := hset.circuit.rank_le b hb
  have size := hset.circuit.top_le
  rw [← hl] at hp ⊢
  refine hw a j j reg ⟨u.pc, 0⟩ w' _ rfl ?_ ?_ ?_ ?_ ?_ ?_ hp
  · rw [hsk]
    exact ⟨hinv.path, hinv.visit_le, hinv.visit_inj, hinv.cycles_open, hinv.cycles_sorted⟩
  · rw [hsk]
    exact hbehind
  · rw [hsk]
    exact .start ⟨hb, rfl, hop, rfl⟩ rfl
  · rw [hsk]
    have far : distance task.graph.blocks.length { skeleton w with
        startBackEdges := (skeleton w).backEdges, startRank := p.rank b, boundStart := u.pc }
        (p.rank b) ≤ reach task.graph := distance_le (by omega) (Nat.le_refl _)
    exact Nat.lt_of_le_of_lt (Nat.add_le_add_left far _) hdepth
  · rw [hsk]
    exact .inl ⟨rfl, rfl⟩
  · exact Nat.le_of_lt (List.getElem?_eq_some_iff.mp hu).1

theorem sliceSource_yields {source : Register} (hsource : source.isWhole = true)
    (hp : P a (ledger w) j source.canonical) :
    yields ((slicer task).sliceSource ((slicer task).walk task.graph depth) ⟨b, j, u⟩ source)
      (fun _ w' => Q a (ledger w) j source.canonical (ledger w') ∧
        Served p u.pc (skeleton w) (skeleton w')) w := by
  have whole := Register.isWhole_canonical hsource
  have counts := Base.counts_of_whole whole
  have notStack : source.canonical.isStack = false := by
    simp [Register.isStack, (Register.isWhole_iff.mp whole).1]
  have hop := Graph.op?_eq_some.mpr ⟨block, ha.block_eq, hu⟩
  have walks := (walk_and_follow_end hset depth).1
  have sources := congruence_served hset walks (u := ⟨b, j, u⟩) u.pc hop ha.mem hinv hbehind hdepth
  refine wp_and ?_ (yields_of_ends (sources.sliceSource source w rfl))
  unfold Slicer.sliceSource
  dsimp only
  rw [if_neg (by simpa using counts), Base.hardwired?_of_whole whole, notStack]
  exact slice_yields hset ha hw hu hinv hbehind hdepth hp

end Sources

section Definition

variable (hu : block.ops[j]? = some u) (hd : u.defines? reg ≠ none)
  (hinv : (skeleton w).Inv p) (hj : j < before)
  (hbehind : (skeleton w).Behind task.graph p b before)

include hu hinv hj hbehind

theorem leaveOp_seeds {written : Register} (hr : written.isWhole = true)
    (hprogress : (skeleton w).InProgress u.site)
    (inside : ¬(skeleton w).outside (p.rank b) (u.pc < (skeleton w).boundStart)) :
    yields (leaveOp task ⟨b, j, u⟩ written)
      (fun _ w' => ledger w' = (ledger w).seed u.site written) w := by
  have hop := Graph.op?_eq_some.mpr ⟨block, ha.block_eq, hu⟩
  have earlier := hset.entered_before hbehind hj hop ha.mem hprogress
  apply leaveOp_yields hinv.path inside
  rw [if_pos ⟨hprogress, earlier⟩]
  exact seedCycle_yields hset.lax hr

variable (hwalk : Walking task.graph p low (skeleton w) reg b before)
  (hdepth : idle task.graph (skeleton w) * stretch task.graph ≤ depth)
  (hvalid : u.effect = .normal → u.operation ≠ .invalid)
  (hxor : u.effect = .normal → u.operation = .xor → readsSameTwice u = false)
  (hcall : u.effect ≠ .impossible)

include hd hwalk hdepth hvalid hxor hcall

theorem definition_yields {R : Ledger → Prop} {written : Register} (hr : written.isWhole = true)
    (hseed : (skeleton w).InProgress u.site → R ((ledger w).seed u.site written))
    (hpass : ∀ w₁, Entered (ledger w) u (w.client.backEdges + 1) false (ledger w₁) →
      ((ledger w).notes u.site).loopCount = 0 →
      Served p u.pc ((skeleton w).enter u.site) (skeleton w₁) →
      yields (finishOp task ⟨b, j, u⟩ written) (fun _ w' => R (ledger w')) w₁)
    (hsources : ∀ w₁, Entered (ledger w) u (w.client.backEdges + 1) true (ledger w₁) →
      Served p u.pc ((skeleton w).enter u.site) (skeleton w₁) →
      (skeleton w₁).Behind task.graph p b j →
      idle task.graph (skeleton w₁) * stretch task.graph + reach task.graph < depth →
      yields ((slicer task).sliceSources ((slicer task).walk task.graph depth) ⟨b, j, u⟩
          u.sourceRegisters)
        (fun _ w₂ => Served p u.pc ((skeleton w).enter u.site) (skeleton w₂) ∧
          yields (finishOp task ⟨b, j, u⟩ written) (fun _ w' => R (ledger w')) w₂) w₁) :
    yields (do
        tell (.definitionFound u.site written)
        if ← enterOp task ((slicer task).follow task.graph depth) ⟨b, j, u⟩ written then
          (slicer task).sliceSources ((slicer task).walk task.graph depth) ⟨b, j, u⟩ u.sourceRegisters
        leaveOp task ⟨b, j, u⟩ written)
      (fun _ w' => R (ledger w')) w := by
  have hop := Graph.op?_eq_some.mpr ⟨block, ha.block_eq, hu⟩
  have inside := hwalk.inside hset.circuit hset.ordered ha.mem hop hd
  have late : (skeleton w).startBackEdges ≤ (skeleton w).backEdges := by cases hwalk <;> omega
  refine wp_bind.mpr (wp_imp (wp_and (tell_silent _ w) (yields_of_ends (tell_neutral rfl w))) ?_)
  rintro _ w₁ ⟨hl, hsk⟩
  have edges : w.client.backEdges = w₁.client.backEdges := congrArg Skeleton.backEdges hsk.symm
  rw [← hl, ← hsk, edges] at hpass hsources
  rw [← hl, ← hsk] at hseed
  rw [← hsk] at hinv hbehind inside late hdepth
  refine wp_bind.mpr (wp_imp (wp_and
    (enterOp_yields (follow_yields hset ha depth) (u := ⟨b, j, u⟩) rfl hvalid hxor hcall written
      hinv.path inside)
    (yields_of_ends (enterOp_ends hset (walk_and_follow_end hset depth).2 (u := ⟨b, j, u⟩) written hop
      ha.mem hinv hj hbehind late inside hdepth))) ?_)
  -- either the definition is in progress and closes a cycle, or it is entered anew
  rintro enter w₂ ⟨entered, ⟨hprogress, rfl, h₂⟩ | ⟨hidle, served⟩⟩ <;>
    change Entered (ledger w₁) u _ _ _ at entered
  · simp only [Bool.false_eq_true, if_false]
    have same : ledger w₂ = ledger w₁ := by
      have progress : 0 < ((ledger w₁).notes u.site).loopCount := hprogress
      generalize ledger w₂ = l₂ at entered
      cases entered with
      | pending => rfl
      | again idle => omega
      | easy idle => omega
      | equal idle => omega
      | load idle => omega
    rw [← h₂] at hprogress hinv hbehind inside
    refine wp_imp (leaveOp_seeds hset ha hu hinv hj hbehind hr hprogress inside) fun _ w₃ h₃ => ?_
    rw [h₃, same]
    rw [h₂] at hprogress
    exact hseed hprogress
  · have idle : ((ledger w₁).notes u.site).loopCount = 0 := Nat.eq_zero_of_not_pos hidle
    cases enter with
    | false => exact leaveOp_after served inside (hpass w₂ entered idle served)
    | true =>
      have paid := idle_entered hop hidle hdepth served.frame
      have deep : Skeleton.idle task.graph (skeleton w₂) * stretch task.graph + reach task.graph <
          depth := by
        unfold stretch at *
        omega
      have behind := (Behind.enter (u := ⟨b, j, u⟩) hbehind hj hop ha.mem).frame served.frame
      refine wp_bind.mpr (wp_imp (hsources w₂ entered served behind deep) ?_)
      rintro _ w₃ ⟨served₃, finish⟩
      exact leaveOp_after served₃ inside finish

end Definition

theorem walkEdges_yields (hw : WalkYields task p low b block P Q depth)
    (hinv : (skeleton w).Inv p) (hbehind : (skeleton w).Behind task.graph p b i)
    (hwalk : Walking task.graph p low (skeleton w) reg b i) (hi : i ≤ block.ops.length)
    (hnear : (skeleton w).backEdges = (skeleton w).startBackEdges)
    (hnone : lastBefore? block.ops (·.defines? reg) i = none)
    (hdepth : idle task.graph (skeleton w) * stretch task.graph +
      (skeleton w).distance task.graph.blocks.length (p.rank b) ≤ depth)
    (hp : P a (ledger w) i reg)
    {edges : List Nat} (hedges : ∀ e ∈ edges, e ∈ block.incoming)
    (htaken : ∀ e, p.steps.lookup b = some e → e ∈ edges) :
    yields ((slicer task).walkEdges task.graph ((slicer task).walk task.graph depth) b reg edges)
      (fun _ w' => Q a (ledger w) i reg (ledger w')) w := by
  have hb := ha.mem
  have hblock := ha.block_eq
  obtain ⟨taken, turn, hlookup, hturn, _, hsource, hback, hstep⟩ := ha.turn hset
  have into : ∀ e ∈ edges, ∃ edge, task.graph.edge? e = some edge ∧ edge.sink = b :=
    fun e he => hset.wellFormed.mem_incoming hblock (hedges e he)
  have local_op : ∀ {j u}, task.graph.op? b j = some u → block.ops[j]? = some u := by
    intro j u hu
    obtain ⟨block', hb', hu⟩ := Graph.op?_eq_some.mp hu
    obtain rfl : block' = block := Option.some.inj (hb'.symm.trans hblock)
    exact hu
  have clear : task.graph.Undefined reg b i := fun j u hj hu =>
    lastBefore?_eq_none hnone hj (local_op hu)
  have full : ∀ j u, task.graph.op? b j = some u → j < block.ops.length := fun j u hu =>
    (List.getElem?_eq_some_iff.mp (local_op hu)).1
  have inside : ¬(skeleton w).outside (p.rank b) (block.start ≤ (skeleton w).boundStart) := by
    unfold outside
    omega
  have around : StepsTo p low top (task.graph.isLoopBackEdge task.marker taken) b b := by
    rw [hback]
    exact hstep
  have once : turns task taken = 1 := if_pos hback
  have within : (skeleton w).backEdges ≤ (skeleton w).startBackEdges + 1 := by omega
  have nearer := distance_step hset.circuit hset.circuit.top_le hb within around
  have seeks : Seeks block.ops ((skeleton w).cross (turns task taken)) i block.ops.length reg := by
    rw [once]
    exact .inr ⟨rfl, congrArg (· + 1) hnear, hnone⟩
  rw [← hsource] at hblock
  apply wp_walkEdges hinv.path hlookup into hturn hblock fun absent =>
    absurd (htaken taken hlookup) absent
  rw [hsource]
  exact hw a i block.ops.length reg w.bounds (crossed (turns task taken) w) _ rfl (hinv.cross _)
    (hbehind.step around)
    (hwalk.step hset.circuit hset.wellFormed hset.ordered hb ha.block_eq clear inside hb full around)
    (Nat.lt_of_lt_of_le (Nat.add_lt_add_left nearer _) hdepth) seeks hi hp

variable (hwhole : ∀ {a l i reg}, P a l i reg → reg.isWhole = true)
  (houtside : ∀ {a l i reg}, P a l i reg → origin? block.ops i reg = none →
    Q a l i reg (l.put reg .outside))

include hwhole houtside

theorem walkNext_yields (hw : WalkYields task p low b block P Q depth)
    (hinv : (skeleton w).Inv p) (hbehind : (skeleton w).Behind task.graph p b before)
    (hwalk : Walking task.graph p low (skeleton w) reg b before) (hi : i ≤ block.ops.length)
    (hseeks : Seeks block.ops (skeleton w) i before reg)
    (hnone : lastBefore? block.ops (·.defines? reg) before = none)
    (hdepth : idle task.graph (skeleton w) * stretch task.graph +
      (skeleton w).distance task.graph.blocks.length (p.rank b) ≤ depth)
    (hp : P a (ledger w) i reg) :
    yields ((slicer task).walkNext task.graph ((slicer task).walk task.graph depth) b reg)
      (fun _ w' => Q a (ledger w) i reg (ledger w')) w := by
  have hb := ha.mem
  have hblock := ha.block_eq
  refine wp_bind.mpr (wp_imp (enterBlock_yields hinv.path hblock (hwhole hp)) ?_)
  rintro enter w₁ ⟨hsk, entered⟩
  obtain ⟨rfl, near⟩ | ⟨rfl, far, hnone'⟩ := hseeks
  · have inside : ¬(skeleton w).outside (p.rank b) (block.start ≤ (skeleton w).boundStart) := by
      unfold outside
      omega
    obtain ⟨_, rfl, hl⟩ := entered.resolve_left fun h => inside h.1
    rw [← hl] at hp ⊢
    rw [← hsk] at hinv hbehind hwalk near hdepth
    simp only [if_true, wp_bind, hblock, wp_require_some]
    exact walkEdges_yields hset ha hw hinv hbehind hwalk hi near hnone hdepth hp
      (fun e he => (mem_sortBy _ e _).mp he)
      (fun e he => (mem_sortBy _ e _).mpr (hset.mem_incoming hblock hb he))
  · -- the walk is above its start again
    have above : (skeleton w).outside (p.rank b) (block.start ≤ (skeleton w).boundStart) := by
      obtain ⟨c, k, first, began⟩ : ∃ c k first, BeganAt task.graph p (skeleton w) c k first := by
        cases hwalk with
        | start began => exact ⟨_, _, _, began⟩
        | near began => exact ⟨_, _, _, began⟩
        | far began => exact ⟨_, _, _, began⟩
      obtain rfl := ha.only c began.mem
      refine .inl ⟨by omega, .inr ⟨began.rank, ?_⟩⟩
      rw [began.bound]
      exact Graph.start_le hset.wellFormed (hset.ordered c hb) hblock began.op
    obtain ⟨_, rfl, hl⟩ := entered.resolve_right fun h => h.1 above
    change Q _ _ _ _ (ledger w₁)
    rw [hl]
    apply houtside hp
    unfold origin?
    rw [hnone', hnone]
    rfl

theorem walk_yields
    (hdefinition : ∀ {depth a i j before d reg written u} {w : Walk StrideState},
      WalkYields task p low b block P Q depth → block.ops[j]? = some u →
      origin? block.ops i reg = some (j, d) → u.defines? reg = some written →
      (skeleton w).Inv p → j < before → (skeleton w).Behind task.graph p b before →
      Walking task.graph p low (skeleton w) reg b before →
      idle task.graph (skeleton w) * stretch task.graph ≤ depth → P a (ledger w) i reg →
      yields (do
          tell (.definitionFound u.site written)
          if ← enterOp task ((slicer task).follow task.graph depth) ⟨b, j, u⟩ written then
            (slicer task).sliceSources ((slicer task).walk task.graph depth) ⟨b, j, u⟩
              u.sourceRegisters
          leaveOp task ⟨b, j, u⟩ written)
        (fun _ w' => Q a (ledger w) i reg (ledger w')) w) (depth : Nat) :
    WalkYields task p low b block P Q depth := by
  -- `before` moves, but the definition that `reg` at `i` comes from stays the same
  induction depth with
  | zero => exact fun _ _ _ _ _ _ _ _ _ _ _ h => absurd h (Nat.not_lt_zero _)
  | succ depth ih =>
    intro a i before reg bounds w sk hsk hinv hbehind hwalk hdepth hseeks hi hp
    have now : skeleton { w with bounds } = sk := hsk.symm
    subst now
    have short : before ≤ block.ops.length := by
      obtain ⟨rfl, _⟩ | ⟨rfl, _⟩ := hseeks
      · exact hi
      · exact Nat.le_refl _
    have last : block.definition? before reg = lastBefore? block.ops (·.defines? reg) before := by
      rw [Block.definition?, Nat.min_eq_left short]
    refine wp_bind.mpr (wp_bind.mpr (wp_bind.mpr ?_))
    simp only [ha.block_eq, wp_require_some, last]
    change P a (ledger { w with bounds }) i reg at hp
    split
    · next hnone =>
      exact walkNext_yields hset ha hwhole houtside ih hinv hbehind hwalk hi hseeks hnone
        (Nat.le_of_lt_succ hdepth) hp
    · next j u written hsome =>
      obtain ⟨hj, hu, hd, _⟩ := lastBefore?_eq_some hsome
      have origin : ∃ d, origin? block.ops i reg = some (j, d) := by
        unfold origin?
        obtain ⟨rfl, _⟩ | ⟨rfl, _, hnone⟩ := hseeks
        · rw [hsome]
          exact ⟨0, rfl⟩
        · rw [hnone, hsome]
          exact ⟨1, rfl⟩
      obtain ⟨d, horigin⟩ := origin
      exact hdefinition ih hu horigin hd hinv hj hbehind hwalk (by omega) hp

end Walks

end AddressFormulas.Stride
