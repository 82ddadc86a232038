import AddressFormulas.Proofs.Stride.Course
import AddressFormulas.Proofs.Stride.Edges

/-!
Stride slices come to an end. Every micro-op that a walk enters stays in progress while its sources
are sliced and is not entered again, and between two of them a walk goes at most twice around the
path. So the nesting of walks is bounded by the size of the routine. A slice leaves no micro-op in
progress and no cycle open, and never leaves its window.
-/

namespace AddressFormulas.Stride

open WalkM Skeleton

structure Setting (task : Task) (p : CyclicPath) (low top : Nat) : Prop where
  lax : task.settings.strict = false
  wellFormed : task.graph.WellFormed
  distinct : ∀ b i c j u v, b ∈ p.blocks → c ∈ p.blocks → task.graph.op? b i = some u →
    task.graph.op? c j = some v → u.site = v.site → b = c ∧ i = j
  ordered : ∀ b ∈ p.blocks, task.graph.OrderedIn b
  circuit : p.IsCircuit task.graph task.marker low top

theorem Setting.mem_incoming {task : Task} {p : CyclicPath} {low top : Nat}
    (hset : Setting task p low top) {b e : Nat} {block : Block}
    (hblock : task.graph.block? b = some block) (hb : b ∈ p.blocks)
    (he : p.steps.lookup b = some e) : e ∈ block.incoming := by
  obtain ⟨taken, edge, hlookup, hedge, hsink, _⟩ := hset.circuit.step b hb
  obtain rfl : taken = e := Option.some.inj (hlookup.symm.trans he)
  rw [hset.wellFormed.incoming_eq b block hblock]
  exact Graph.mem_edgesInto.mpr ⟨edge, hedge, hsink⟩

theorem Setting.block_of_mem {task : Task} {p : CyclicPath} {low top : Nat}
    (hset : Setting task p low top) {b : Nat} (hb : b ∈ p.blocks) :
    ∃ block, task.graph.block? b = some block := by
  obtain ⟨_, edge, _, hedge, rfl, _⟩ := hset.circuit.step b hb
  exact Option.isSome_iff_exists.mp (by simpa [Graph.block?] using hset.wellFormed.sink_lt _ _ hedge)

structure Done (p : CyclicPath) (sk sk' : Skeleton) : Prop where
  frame : Frame sk sk'
  inv : sk'.Inv p
  later : sk.startBackEdges ≤ sk'.startBackEdges

/-- Something was done for the micro-op at address `pc`. If the window was moved at all, it was moved
to where the walk is, or begins at the micro-op. -/
structure Served (p : CyclicPath) (pc : Nat) (sk sk' : Skeleton) : Prop where
  frame : Frame sk sk'
  inv : sk'.Inv p
  window : sk.backEdges ≤ sk'.startBackEdges ∨
    sk'.startBackEdges = sk.startBackEdges ∧ sk'.startRank = sk.startRank ∧
      (sk'.boundStart = sk.boundStart ∨ sk'.boundStart = pc)

variable {task : Task} {p : CyclicPath} {low top : Nat} {w : Walk StrideState}

theorem Served.refl {sk : Skeleton} (h : sk.Inv p) (pc : Nat) : Served p pc sk sk :=
  ⟨.refl sk, h, .inr ⟨rfl, rfl, .inl rfl⟩⟩

theorem Served.trans {pc : Nat} {a b c : Skeleton} (h : Served p pc a b) (h' : Served p pc b c) :
    Served p pc a c := by
  refine ⟨h.frame.trans h'.frame, h'.inv, ?_⟩
  have same := h.frame.backEdges
  obtain hw | ⟨h₁, h₂, h₃⟩ := h'.window
  · exact .inl (by omega)
  · obtain hw' | ⟨h₁', h₂', h₃'⟩ := h.window
    · exact .inl (by omega)
    · exact .inr ⟨by omega, by omega, by omega⟩

theorem Served.inside {pc rank : Nat} {sk sk' : Skeleton} (h : Served p pc sk sk')
    (hin : ¬sk.outside rank (pc < sk.boundStart)) : ¬sk'.outside rank (pc < sk'.boundStart) := by
  have same := h.frame.backEdges
  unfold outside at *
  obtain hw | ⟨h₁, h₂, h₃⟩ := h.window <;> omega

theorem Served.inProgress {pc : Nat} {sk sk' : Skeleton} {site s : Site}
    (h : Served p pc (sk.enter site) sk') : sk'.InProgress s ↔ s = site ∨ sk.InProgress s := by
  rw [← inProgress_enter]
  unfold InProgress
  rw [h.frame.loopCount]

theorem Served.visit_lt {pc : Nat} {sk sk' : Skeleton} {site s : Site} (hinv : sk.Inv p)
    (h : Served p pc (sk.enter site) sk') (hs : sk'.InProgress s) (hne : s ≠ site) :
    sk'.visit s < sk'.visit site := by
  have visit : ∀ s, sk'.InProgress s →
      sk'.visit s = Function.update sk.visit site (sk.visits + 1) s := fun s hs =>
    h.frame.visit s (inProgress_enter.mpr (h.inProgress.mp hs))
  have := hinv.visit_le s ((h.inProgress.mp hs).resolve_left hne)
  rw [visit s hs, visit site (h.inProgress.mpr (.inl rfl)), Function.update_self,
    Function.update_of_ne hne]
  omega

theorem Served.leave {pc : Nat} {sk sk' : Skeleton} {site : Site} (hinv : sk.Inv p)
    (hidle : ¬sk.InProgress site) (hlate : sk.startBackEdges ≤ sk.backEdges)
    (h : Served p pc (sk.enter site) sk') : Done p sk (sk'.leave site) := by
  refine ⟨⟨h.frame.path, h.frame.clean, h.frame.backEdges, ?_, fun s hs => ?_⟩,
    h.inv.leave fun s => h.visit_lt hinv, ?_⟩
  · funext s
    change Function.update sk'.loopCount site 0 s = sk.loopCount s
    by_cases hs : s = site
    · subst hs
      unfold InProgress at hidle
      rw [Function.update_self]
      omega
    · rw [Function.update_of_ne hs, h.frame.loopCount]
      exact Function.update_of_ne hs _ _
  · have other : s ≠ site := by
      rintro rfl
      exact hidle hs
    exact (h.frame.visit s (inProgress_enter.mpr (.inr hs))).trans (Function.update_of_ne other _ _)
  · change sk.startBackEdges ≤ sk'.startBackEdges
    obtain hw | ⟨hw, _⟩ := h.window
    · exact Nat.le_trans hlate hw
    · exact Nat.le_of_eq hw.symm

/-- The longest way of a walk, along which every step is one deeper. -/
def reach (g : Graph) : Nat := 3 * (g.blocks.length + 1)

/-- The depth that one micro-op in progress can use: a search for a store, then a walk. -/
def stretch (g : Graph) : Nat := 2 * reach g + 4

def WalkEnds (task : Task) (p : CyclicPath) (low depth : Nat) : Prop :=
  ∀ (pos : Position) (reg : Register) (bounds : Bounds) (w : Walk StrideState) (sk : Skeleton),
    sk = { skeleton w with boundStart := bounds.start } → sk.Inv p → pos.block ∈ p.blocks →
    sk.Behind task.graph p pos.block pos.before →
    Walking task.graph p low sk reg pos.block pos.before →
    idle task.graph sk * stretch task.graph +
      sk.distance task.graph.blocks.length (p.rank pos.block) < depth →
    ends ((slicer task).walk task.graph depth pos reg bounds)
      (fun _ w' => Done p sk (skeleton w')) w

def FollowEnds (task : Task) (p : CyclicPath) (depth : Nat) : Prop :=
  ∀ (pos : Position) (address : Formula) (w : Walk StrideState) (pc : Nat),
    (skeleton w).Inv p → pos.block ∈ p.blocks →
    (skeleton w).Behind task.graph p pos.block pos.before →
    (skeleton w).startBackEdges ≤ (skeleton w).backEdges →
    idle task.graph (skeleton w) * stretch task.graph + reach task.graph + 1 +
      (skeleton w).distance task.graph.blocks.length (p.rank pos.block) < depth →
    ends ((slicer task).follow task.graph depth pos address)
      (fun _ w' => Served p pc (skeleton w) (skeleton w')) w

theorem Setting.entered_before (hset : Setting task p low top) {b before i : Nat} {u : MicroOp}
    {sk : Skeleton} (hbehind : sk.Behind task.graph p b before) (hi : i < before)
    (hu : task.graph.op? b i = some u) (hb : b ∈ p.blocks) (hs : sk.InProgress u.site) :
    sk.loopCount u.site < sk.backEdges + 1 := by
  obtain ⟨hle, hplace⟩ := hbehind u.site hs
  by_contra heq
  obtain ⟨c, j, v, hv, hsite, hc, hpos⟩ := hplace (by omega)
  obtain ⟨rfl, rfl⟩ := hset.distinct _ _ _ _ _ _ hc hb hv hu hsite
  omega

theorem idle_frame {g : Graph} {sk sk' : Skeleton} (h : Frame sk sk') : idle g sk' = idle g sk := by
  unfold idle
  rw [h.loopCount]

/-- One idle micro-op less pays for the depth that it can use while it is in progress. -/
theorem idle_entered {g : Graph} {b i depth : Nat} {u : MicroOp} {sk sk' : Skeleton}
    (hu : g.op? b i = some u) (hidle : ¬sk.InProgress u.site)
    (hdepth : idle g sk * stretch g ≤ depth) (h : Frame (sk.enter u.site) sk') :
    idle g sk' * stretch g + stretch g ≤ depth := by
  rw [idle_frame h, ← Nat.succ_mul]
  exact (Nat.mul_le_mul_right _ (idle_enter hu hidle)).trans hdepth

theorem Skeleton.Behind.frame {g : Graph} {b before : Nat} {sk sk' : Skeleton}
    (hb : sk.Behind g p b before) (h : Frame sk sk') : sk'.Behind g p b before := by
  intro s hs
  unfold InProgress at hs
  rw [h.loopCount] at hs ⊢
  rw [h.backEdges]
  exact hb s hs

theorem Skeleton.Behind.earlier {g : Graph} {b before i : Nat} {sk : Skeleton}
    (hb : sk.Behind g p b before) (hi : i ≤ before) : sk.Behind g p b i := by
  intro s hs
  obtain ⟨hle, hpos⟩ := hb s hs
  refine ⟨hle, fun he => ?_⟩
  obtain ⟨c, j, u, hu, hsite, hc, hplace⟩ := hpos he
  exact ⟨c, j, u, hu, hsite, hc, hplace.imp id fun h => ⟨h.1, by omega⟩⟩

section Depth

variable (hset : Setting task p low top) {depth : Nat} (hw : WalkEnds task p low depth)

include hset hw

theorem slice_ends {b i : Nat} {u : MicroOp} (reg : Register) (pc : Nat) (hu : task.graph.op? b i = some u)
    (hb : b ∈ p.blocks) (hinv : (skeleton w).Inv p)
    (hbehind : (skeleton w).Behind task.graph p b i)
    (hdepth : idle task.graph (skeleton w) * stretch task.graph + reach task.graph < depth) :
    ends ((slicer task).sliceWith ((slicer task).walk task.graph depth) ⟨b, i⟩ reg ⟨u.pc, 0⟩)
      (fun _ w' => Served p pc (skeleton w) (skeleton w')) w := by
  obtain ⟨block, hblock, _⟩ := Graph.op?_eq_some.mp hu
  refine wp_bind.mpr (wp_imp (start_ends hinv.path ⟨b, i⟩ hblock reg) ?_)
  intro _ w' hw'
  have rank := hset.circuit.rank_le b hb
  have size := hset.circuit.top_le
  refine wp_imp (hw ⟨b, i⟩ reg ⟨u.pc, 0⟩ w' _ rfl ?_ hb ?_ ?_ ?_) ?_
  · rw [hw']
    exact ⟨hinv.path, hinv.visit_le, hinv.visit_inj, hinv.cycles_open, hinv.cycles_sorted⟩
  · rw [hw']
    exact hbehind
  · rw [hw']
    exact .start ⟨hb, rfl, hu, rfl⟩ rfl
  · rw [hw']
    have far : distance task.graph.blocks.length { skeleton w with
        startBackEdges := (skeleton w).backEdges, startRank := p.rank b, boundStart := u.pc }
        (p.rank b) ≤ reach task.graph := distance_le (by omega) (Nat.le_refl _)
    exact Nat.lt_of_le_of_lt (Nat.add_le_add_left far _) hdepth
  · intro _ w'' h
    rw [hw'] at h
    exact ⟨⟨h.frame.path, h.frame.clean, h.frame.backEdges, h.frame.loopCount, h.frame.visit⟩, h.inv,
      .inl h.later⟩

theorem congruence_served {u : Placed} (pc : Nat) (hu : task.graph.op? u.block u.index = some u.op)
    (hb : u.block ∈ p.blocks) (hinv : (skeleton w).Inv p)
    (hbehind : (skeleton w).Behind task.graph p u.block u.index)
    (hdepth : idle task.graph (skeleton w) * stretch task.graph + reach task.graph < depth) :
    Slicer.SourceCongruence (slicer task) (slicer task) ((slicer task).walk task.graph depth)
      ((slicer task).walk task.graph depth) u
      fun _ m _ => ∀ w₁, skeleton w₁ = skeleton w →
        ends m (fun _ w' => Served p pc (skeleton w) (skeleton w')) w₁ where
  ok _ w₁ h := by
    change Served p pc (skeleton w) (skeleton w₁)
    rw [h]
    exact .refl hinv pc
  answer _ hm w₁ h := wp_bind.mpr (wp_imp (hm w₁ h) fun _ _ served => served)
  reported {_ f _ _} hf hm w₁ h := by
    have gap := Failure.isCoverageGap_of_isAboutSources hf
    have harmless : (Event.failure f).isWindowFailure = false := by
      cases f <;> first | rfl | cases hf
    have neutral : M.Neutral (report task.settings.strict f) :=
      .report hset.lax gap (unconcerned_skeleton.unheard _ harmless)
    exact ends_bind neutral fun _ w₂ h₂ => hm w₂ (h₂.trans h)
  slice reg w₁ h := by
    rw [← h] at hinv hbehind hdepth ⊢
    exact slice_ends hset hw reg pc hu hb hinv hbehind hdepth
  fixedValue reg v _ w₁ h := by
    refine ends_of_neutral (fixedValue_neutral reg u.op v) fun _ w₂ h₂ => ?_
    rw [h₂, h]
    exact .refl hinv pc

theorem sliceSources_ends {u : Placed} (sources : List Register) (pc : Nat)
    (hu : task.graph.op? u.block u.index = some u.op) (hb : u.block ∈ p.blocks)
    (hinv : (skeleton w).Inv p) (hbehind : (skeleton w).Behind task.graph p u.block u.index)
    (hdepth : idle task.graph (skeleton w) * stretch task.graph + reach task.graph < depth) :
    ends ((slicer task).sliceSources ((slicer task).walk task.graph depth) u sources)
      (fun _ w' => Served p pc (skeleton w) (skeleton w')) w := by
  induction sources generalizing w with
  | nil => exact .refl hinv pc
  | cons source rest ih =>
    have sources := congruence_served hset hw pc hu hb hinv hbehind hdepth
    refine wp_bind.mpr (wp_imp (sources.sliceSource source w rfl) ?_)
    intro _ w' h
    refine wp_imp (ih h.inv (hbehind.frame h.frame) ?_) fun _ w'' h' => h.trans h'
    rw [idle_frame h.frame]
    exact hdepth

end Depth

section Follow

variable (hset : Setting task p low top) {depth : Nat} (hf : FollowEnds task p depth)

include hset hf

theorem spilledValue?_ends {u : Placed} (base : Formula) (hb : u.block ∈ p.blocks)
    (hinv : (skeleton w).Inv p) (hbehind : (skeleton w).Behind task.graph p u.block u.index)
    (hlate : (skeleton w).startBackEdges ≤ (skeleton w).backEdges)
    (hdepth : idle task.graph (skeleton w) * stretch task.graph + 2 * reach task.graph + 1 < depth) :
    ends (spilledValue? ((slicer task).follow task.graph depth) u base)
      (fun _ w' => Served p u.op.pc (skeleton w) (skeleton w')) w := by
  have rank := hset.circuit.rank_le u.block hb
  have size := hset.circuit.top_le
  -- the window now begins at the load
  let w₁ : Walk StrideState := { w with bounds.start := u.op.pc }
  have moved : Served p u.op.pc (skeleton w) (skeleton w₁) :=
    ⟨⟨rfl, id, rfl, rfl, fun _ _ => rfl⟩, ⟨hinv.path, hinv.visit_le, hinv.visit_inj,
      hinv.cycles_open, hinv.cycles_sorted⟩, .inr ⟨rfl, rfl, .inr rfl⟩⟩
  have far : (skeleton w₁).distance task.graph.blocks.length (p.rank u.block) ≤
      reach task.graph := distance_le (by omega) hlate
  have deep : idle task.graph (skeleton w₁) * stretch task.graph + reach task.graph + 1 +
      (skeleton w₁).distance task.graph.blocks.length (p.rank u.block) < depth := by
    rw [idle_frame moved.frame]
    omega
  refine wp_bind.mpr (wp_bind.mpr (wp_imp (hf ⟨u.block, u.index⟩ base w₁ u.op.pc moved.inv hb
    (hbehind.frame moved.frame) hlate deep) ?_))
  intro saved? w₂ h₂
  refine ends_of_neutral ?_ fun v? w₃ h₃ => by rw [h₃]; exact moved.trans h₂
  split
  · exact .ok _
  · refine .bind (claim_neutral _) fun source? => ?_
    split
    · refine .bind .client fun st => ?_
      split
      · exact .ok _
      · exact .ok _
    · exact .ok _

theorem resolveLoad_ends {u : Placed} (reg : Register) (hb : u.block ∈ p.blocks)
    (hinv : (skeleton w).Inv p) (hbehind : (skeleton w).Behind task.graph p u.block u.index)
    (hlate : (skeleton w).startBackEdges ≤ (skeleton w).backEdges)
    (hdepth : idle task.graph (skeleton w) * stretch task.graph + 2 * reach task.graph + 1 < depth) :
    ends (resolveLoad task ((slicer task).follow task.graph depth) u reg)
      (fun _ w' => Served p u.op.pc (skeleton w) (skeleton w')) w := by
  have searched : ends (searchSpill task ((slicer task).follow task.graph depth) u)
      (fun _ w' => Served p u.op.pc (skeleton w) (skeleton w')) w := by
    unfold searchSpill
    split
    · split
      · exact spilledValue?_ends hset hf _ hb hinv hbehind hlate hdepth
      · exact .refl hinv _
    · exact .refl hinv _
  rw [resolveLoad_eq]
  refine wp_bind.mpr (wp_imp searched fun v? w₁ h₁ => ?_)
  exact ends_of_neutral (noteLoad_neutral u reg v?) fun _ w₂ h₂ => by rw [h₂]; exact h₁

theorem enterFresh_ends {u : Placed} (reg : Register) (hb : u.block ∈ p.blocks)
    (hinv : (skeleton w).Inv p) (hbehind : (skeleton w).Behind task.graph p u.block u.index)
    (hlate : (skeleton w).startBackEdges ≤ (skeleton w).backEdges)
    (hdepth : idle task.graph (skeleton w) * stretch task.graph + 2 * reach task.graph + 1 < depth) :
    ends (enterFresh task ((slicer task).follow task.graph depth) u reg)
      (fun _ w' => Served p u.op.pc (skeleton w) (skeleton w')) w := by
  have same : ∀ {w' : Walk StrideState}, skeleton w' = skeleton w →
      Served p u.op.pc (skeleton w) (skeleton w') := by
    intro w' h
    rw [h]
    exact .refl hinv _
  refine ends_bind ((unconcerned_skeleton.congruence (tolerates_of_lax hset.lax)).classify u.op) fun effect w₁ h₁ => ?_
  split
  · exact same h₁
  · exact same h₁
  · split
    · exact ends_bind (tell_neutral rfl) fun _ w₂ h₂ => same (h₂.trans h₁)
    · split
      · refine ends_bind (tell_neutral rfl) fun _ w₂ h₂ => ?_
        exact ends_bind (modifyProgress_neutral _ _ fun _ => ⟨rfl, rfl⟩) fun _ w₃ h₃ => same (h₃.trans (h₂.trans h₁))
      · exact same h₁
  · rw [← h₁] at hinv hbehind hlate hdepth ⊢
    exact wp_bind.mpr (wp_imp (resolveLoad_ends hset hf reg hb hinv hbehind hlate hdepth)
      fun _ _ h => h)

theorem enterOp_ends {u : Placed} {before : Nat} (reg : Register)
    (hu : task.graph.op? u.block u.index = some u.op) (hb : u.block ∈ p.blocks)
    (hinv : (skeleton w).Inv p) (hi : u.index < before)
    (hbehind : (skeleton w).Behind task.graph p u.block before)
    (hlate : (skeleton w).startBackEdges ≤ (skeleton w).backEdges)
    (hin : ¬(skeleton w).outside (p.rank u.block) (u.op.pc < (skeleton w).boundStart))
    (hdepth : idle task.graph (skeleton w) * stretch task.graph ≤ depth) :
    ends (enterOp task ((slicer task).follow task.graph depth) u reg) (fun enter w' =>
      (skeleton w).InProgress u.op.site ∧ enter = false ∧ skeleton w' = skeleton w ∨
      ¬(skeleton w).InProgress u.op.site ∧
        Served p u.op.pc ((skeleton w).enter u.op.site) (skeleton w')) w := by
  refine wp_bind.mpr (wp_imp (outsideWindow_ends hinv.path u) ?_)
  rintro out w' ⟨rfl, hout⟩
  have inside : out = false := by simpa using mt hout.mp hin
  subst inside
  simp only [Bool.false_eq_true, if_false]
  refine ends_client.mpr ?_
  split
  · next h => exact .inl ⟨h, rfl, rfl⟩
  · next h =>
    have idle' : ¬(skeleton w').InProgress u.op.site := h
    have inv := hinv.enter idle'
    refine ends_of_skeleton ((skeleton w').enter u.op.site)
      (skeleton_modifyProgress { w' with client :=
        { w'.client with session.visits := w'.client.session.visits + 1 } } _ _) fun w₁ h₁ => ?_
    split
    · exact .inr ⟨idle', by rw [h₁]; exact .refl inv _⟩
    · have frame : Frame ((skeleton w').enter u.op.site) (skeleton w₁) := h₁ ▸ .refl _
      have paid := idle_entered hu idle' hdepth frame
      have depth' : idle task.graph (skeleton w₁) * stretch task.graph + 2 * reach task.graph + 1 <
          depth := by
        unfold stretch at *
        omega
      refine wp_imp (enterFresh_ends hset hf reg hb (h₁ ▸ inv) (h₁ ▸ hbehind.enter hi hu hb)
        (h₁ ▸ hlate) depth') fun _ w₂ h₂ => .inr ⟨idle', ?_⟩
      rw [h₁] at h₂
      exact h₂

end Follow

section Step

variable (hset : Setting task p low top) {depth : Nat} (hw : WalkEnds task p low depth)
  (hf : FollowEnds task p depth)

include hset hw hf

theorem definition_ends {u : Placed} {before : Nat} {reg written : Register} {sk : Skeleton}
    (hsk : skeleton w = sk) (hu : task.graph.op? u.block u.index = some u.op)
    (hd : u.op.defines? reg = some written) (hi : u.index < before) (hb : u.block ∈ p.blocks)
    (hinv : sk.Inv p) (hbehind : sk.Behind task.graph p u.block before)
    (hwalk : Walking task.graph p low sk reg u.block before)
    (hdepth : idle task.graph sk * stretch task.graph ≤ depth) :
    ends (do
        tell (.definitionFound u.op.site written)
        if ← enterOp task ((slicer task).follow task.graph depth) u written then
          (slicer task).sliceSources ((slicer task).walk task.graph depth) u u.op.sourceRegisters
        leaveOp task u written)
      (fun _ w' => Done p sk (skeleton w')) w := by
  have inside := hwalk.inside hset.circuit hset.ordered hb hu (by simp [hd])
  have late : sk.startBackEdges ≤ sk.backEdges := by cases hwalk <;> omega
  refine ends_bind (tell_neutral rfl) fun _ w₁ h₁ => ?_
  rw [hsk] at h₁
  subst h₁
  refine wp_bind.mpr (wp_imp (enterOp_ends hset hf written hu hb hinv hi hbehind late inside
    hdepth) ?_)
  rintro enter w₂ (⟨hprogress, rfl, h₂⟩ | ⟨hidle, h₂⟩)
  · -- the walk has come around to a micro-op in progress
    have earlier := hset.entered_before hbehind hi hu hb hprogress
    simp only [Bool.false_eq_true, if_false]
    rw [← h₂] at inside hprogress earlier hinv
    refine wp_imp (leaveOp_ends hset.lax hinv.path u written inside) fun _ w₃ h₃ => ?_
    rw [if_pos ⟨hprogress, earlier⟩] at h₃
    rw [h₃, ← h₂]
    exact ⟨⟨rfl, id, rfl, rfl, fun _ _ => rfl⟩, hinv.seed hprogress, Nat.le_refl _⟩
  · have leave : ∀ w₃, Served p u.op.pc ((skeleton w₁).enter u.op.site) (skeleton w₃) →
        ends (leaveOp task u written) (fun _ w' => Done p (skeleton w₁) (skeleton w')) w₃ := by
      intro w₃ h₃
      refine wp_imp (leaveOp_ends hset.lax h₃.inv.path u written (h₃.inside inside))
        fun _ w₄ h₄ => ?_
      have count : (skeleton w₃).loopCount u.op.site = (skeleton w₃).backEdges + 1 := by
        rw [h₃.frame.loopCount, h₃.frame.backEdges]
        exact Function.update_self _ _ _
      rw [if_neg (by omega)] at h₄
      rw [h₄]
      exact h₃.leave hinv hidle late
    split
    · have behind := (hbehind.enter hi hu hb).frame h₂.frame
      have paid := idle_entered hu hidle hdepth h₂.frame
      have depth' : idle task.graph (skeleton w₂) * stretch task.graph + reach task.graph < depth := by
        unfold stretch at *
        omega
      exact wp_bind.mpr (wp_imp (sliceSources_ends hset hw _ u.op.pc hu hb h₂.inv behind depth')
        fun _ w₃ h₃ => leave w₃ (h₂.trans h₃))
    · exact leave w₂ h₂

end Step

theorem skeleton_uncrossed (count : Nat) (w : Walk StrideState) :
    skeleton (uncrossed count w) = (skeleton w).uncross count := rfl

theorem Done.uncross {count : Nat} {sk sk' : Skeleton} (h : Done p (sk.cross count) sk') :
    Done p sk (sk'.uncross count) :=
  ⟨h.frame.uncross, h.inv.uncross count, h.later⟩

theorem Served.uncross {pc count : Nat} {sk sk' : Skeleton} (h : Served p pc (sk.cross count) sk') :
    Served p pc sk (sk'.uncross count) := by
  refine ⟨h.frame.uncross, h.inv.uncross count, h.window.imp (fun hw => ?_) id⟩
  exact Nat.le_trans (Nat.le_add_right _ _) hw

section Edges

variable (hset : Setting task p low top) {depth : Nat}

include hset

theorem Setting.next_of_inside {sk : Skeleton} {b : Nat} {early : Prop} (hb : b ∈ p.blocks)
    (hin : ¬sk.outside (p.rank b) early) : ∃ taken edge source, p.steps.lookup b = some taken ∧
      task.graph.edge? taken = some edge ∧ task.graph.block? edge.source = some source ∧
      edge.source ∈ p.blocks ∧
      StepsTo p low top (task.graph.isLoopBackEdge task.marker taken) b edge.source ∧
      (sk.cross (turns task taken)).distance task.graph.blocks.length (p.rank edge.source) <
        sk.distance task.graph.blocks.length (p.rank b) := by
  obtain ⟨taken, edge, hlookup, hedge, -, hsource, hstep⟩ := hset.circuit.step b hb
  obtain ⟨source, hblock⟩ := hset.block_of_mem hsource
  have once : sk.backEdges ≤ sk.startBackEdges + 1 := by
    unfold outside at hin
    omega
  exact ⟨taken, edge, source, hlookup, hedge, hblock, hsource, hstep,
    distance_step hset.circuit hset.circuit.top_le hsource once hstep⟩

theorem walkEdges_ends (hw : WalkEnds task p low depth) {b before : Nat} {reg : Register}
    {block : Block} (hblock : task.graph.block? b = some block) (hb : b ∈ p.blocks)
    (hinv : (skeleton w).Inv p) (hbehind : (skeleton w).Behind task.graph p b before)
    (hwalk : Walking task.graph p low (skeleton w) reg b before)
    (hclear : task.graph.Undefined reg b before)
    (hin : ¬(skeleton w).outside (p.rank b) (block.start ≤ (skeleton w).boundStart))
    (hdepth : idle task.graph (skeleton w) * stretch task.graph +
      (skeleton w).distance task.graph.blocks.length (p.rank b) ≤ depth)
    {edges : List Nat} (hedges : ∀ e ∈ edges, e ∈ block.incoming)
    (htaken : ∀ e, p.steps.lookup b = some e → e ∈ edges) :
    ends ((slicer task).walkEdges task.graph ((slicer task).walk task.graph depth) b reg edges)
      (fun _ w' => Done p (skeleton w) (skeleton w')) w := by
  obtain ⟨taken, edge, source, hlookup, hedge, hblock', hsource, hstep, nearer⟩ :=
    hset.next_of_inside hb hin
  have into : ∀ e ∈ edges, ∃ edge, task.graph.edge? e = some edge ∧ edge.sink = b :=
    fun e he => hset.wellFormed.mem_incoming hblock (hedges e he)
  have full : ∀ j u, task.graph.op? edge.source j = some u → j < source.ops.length := by
    intro j u hu
    obtain ⟨source', hs, hu⟩ := Graph.op?_eq_some.mp hu
    obtain rfl : source = source' := Option.some.inj (hblock'.symm.trans hs)
    exact (List.getElem?_eq_some_iff.mp hu).1
  apply wp_walkEdges hinv.path hlookup into hedge hblock' fun absent =>
    absurd (htaken taken hlookup) absent
  have done := hw ⟨edge.source, source.ops.length⟩ reg w.bounds (crossed (turns task taken) w) _ rfl
    (hinv.cross _) hsource (hbehind.step hstep)
    (hwalk.step hset.circuit hset.wellFormed hset.ordered hb hblock hclear hin hsource full hstep)
    (Nat.lt_of_lt_of_le (Nat.add_lt_add_left nearer _) hdepth)
  apply wp_imp done
  intro _ w' done
  rw [skeleton_uncrossed]
  exact done.uncross

theorem walkNext_ends (hw : WalkEnds task p low depth) {b before : Nat} {reg : Register}
    {block : Block} (hblock : task.graph.block? b = some block) (hb : b ∈ p.blocks)
    (hinv : (skeleton w).Inv p) (hbehind : (skeleton w).Behind task.graph p b before)
    (hwalk : Walking task.graph p low (skeleton w) reg b before)
    (hclear : task.graph.Undefined reg b before)
    (hdepth : idle task.graph (skeleton w) * stretch task.graph +
      (skeleton w).distance task.graph.blocks.length (p.rank b) ≤ depth) :
    ends ((slicer task).walkNext task.graph ((slicer task).walk task.graph depth) b reg)
      (fun _ w' => Done p (skeleton w) (skeleton w')) w := by
  have late : (skeleton w).startBackEdges ≤ (skeleton w).backEdges := by cases hwalk <;> omega
  refine wp_bind.mpr (wp_imp (enterBlock_ends hinv.path hblock reg) ?_)
  rintro enter w₁ ⟨h₁, hin⟩
  rw [← h₁] at hinv hbehind hwalk hdepth hin ⊢
  split
  · next he =>
    simp only [wp_bind, hblock, wp_require_some]
    exact walkEdges_ends hset hw hblock hb hinv hbehind hwalk hclear (hin he) hdepth
      (fun e he => (mem_sortBy _ e _).mp he)
      (fun e he => (mem_sortBy _ e _).mpr (hset.mem_incoming hblock hb he))
  · exact ⟨.refl _, hinv, Nat.le_refl _⟩

theorem followEdges_ends (hf : FollowEnds task p depth) {b before : Nat} {address : Formula}
    {block : Block} (pc : Nat) (hblock : task.graph.block? b = some block) (hb : b ∈ p.blocks)
    (hinv : (skeleton w).Inv p) (hbehind : (skeleton w).Behind task.graph p b before)
    (hlate : (skeleton w).startBackEdges ≤ (skeleton w).backEdges)
    (hin : ¬(skeleton w).outside (p.rank b) (block.start ≤ (skeleton w).boundStart))
    (hdepth : idle task.graph (skeleton w) * stretch task.graph + reach task.graph + 1 +
      (skeleton w).distance task.graph.blocks.length (p.rank b) ≤ depth)
    {edges : List Nat} (hedges : ∀ e ∈ edges, e ∈ block.incoming)
    (htaken : ∀ e, p.steps.lookup b = some e → e ∈ edges) :
    ends ((slicer task).followEdges task.graph ((slicer task).follow task.graph depth) b address
      edges) (fun _ w' => Served p pc (skeleton w) (skeleton w')) w := by
  obtain ⟨taken, edge, source, hlookup, hedge, hblock', hsource, hstep, nearer⟩ :=
    hset.next_of_inside hb hin
  have into : ∀ e ∈ edges, ∃ edge, task.graph.edge? e = some edge ∧ edge.sink = b :=
    fun e he => hset.wellFormed.mem_incoming hblock (hedges e he)
  apply wp_followEdges hinv.path hlookup into hedge hblock' fun absent =>
    absurd (htaken taken hlookup) absent
  have served := hf ⟨edge.source, source.ops.length⟩ address (crossed (turns task taken) w) pc
    (hinv.cross _) hsource (hbehind.step hstep) (Nat.le_trans hlate (Nat.le_add_right _ _))
    (Nat.lt_of_lt_of_le (Nat.add_lt_add_left nearer _) hdepth)
  apply wp_imp served
  intro _ w' served
  rw [skeleton_uncrossed]
  exact served.uncross

theorem walkStep_ends (hw : WalkEnds task p low depth) (hf : FollowEnds task p depth) :
    WalkEnds task p low (depth + 1) := by
  intro pos reg bounds w sk hsk hinv hb hbehind hwalk hdepth
  obtain ⟨block, hblock⟩ := hset.block_of_mem hb
  have now : skeleton { w with bounds } = sk := hsk.symm
  refine wp_bind.mpr (wp_bind.mpr (wp_bind.mpr ?_))
  simp only [hblock, wp_require_some]
  subst now
  split
  · next hnone =>
    exact walkNext_ends hset hw hblock hb hinv hbehind hwalk
      (Block.definition?_eq_none hblock hnone) (Nat.le_of_lt_succ hdepth)
  · next i op written hsome =>
    obtain ⟨hi, hu, hd, _⟩ := Block.definition?_eq_some hblock hsome
    refine definition_ends hset hw hf rfl (u := ⟨pos.block, i, op⟩) hu hd hi hb hinv hbehind
      hwalk ?_
    omega

theorem followStep_ends (hw : WalkEnds task p low depth) (hf : FollowEnds task p depth) :
    FollowEnds task p (depth + 1) := by
  intro pos address w pc hinv hb hbehind hlate hdepth
  obtain ⟨block, hblock⟩ := hset.block_of_mem hb
  change ends ((slicer task).followStep task.graph _ _ pos address) _ w
  unfold Slicer.followStep
  simp only [ends, wp_bind, hblock, wp_require_some, wp_client]
  split
  · next i op _ hstore =>
    obtain ⟨hi, hu, _⟩ := lastBefore?_eq_some hstore
    refine wp_bind.mpr (ends_of_neutral (tell_neutral rfl) fun _ w₁ h₁ => ?_)
    rw [← h₁] at hinv hbehind hdepth ⊢
    have earlier : i ≤ pos.before := by omega
    have placed : task.graph.op? pos.block i = some op := Graph.op?_eq_some.mpr ⟨block, hblock, hu⟩
    have sources := congruence_served hset hw (u := ⟨pos.block, i, op⟩) pc placed hb hinv
      (hbehind.earlier earlier) (by omega)
    exact sources.sliceStored w₁ rfl
  · refine wp_bind.mpr (wp_imp (enterBlock_ends hinv.path hblock .absent) ?_)
    rintro enter w₁ ⟨h₁, hin⟩
    rw [← h₁] at hinv hbehind hlate hdepth hin ⊢
    split
    · next he =>
      exact followEdges_ends hset hf pc hblock hb hinv hbehind hlate (hin he)
        (Nat.le_of_lt_succ hdepth) (fun _ he => he) fun _ he => hset.mem_incoming hblock hb he
    · exact .refl hinv pc

theorem walk_and_follow_end (depth : Nat) :
    WalkEnds task p low depth ∧ FollowEnds task p depth := by
  induction depth with
  | zero =>
    exact ⟨fun _ _ _ _ _ _ _ _ _ _ h => absurd h (Nat.not_lt_zero _),
      fun _ _ _ _ _ _ _ _ h => absurd h (Nat.not_lt_zero _)⟩
  | succ depth ih => exact ⟨walkStep_ends hset ih.1 ih.2, followStep_ends hset ih.1 ih.2⟩

end Edges

end AddressFormulas.Stride
