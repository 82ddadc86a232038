import AddressFormulas.Stride.Slicer

/-!
Relations between two runs of stride slicing, under two settings, that hold from one action to the
next. How much of the slicer such a relation follows depends on the actions of which it holds: the
values of definitions need no more than claims and reports, the way into a definition also notes what
was found, and the way out of it changes the state at will.
-/

namespace AddressFormulas

def Event.isWindowFailure : Event → Bool
  | .failure (.outsideIterationWindow _) => true
  | _ => false

namespace Stride

structure ValueCongruence (task : Task) (settings : Settings)
    (R : ∀ α : Type, M α → M α → Prop) : Prop where
  ok : ∀ {α : Type} (a : α), R α (pure a) (pure a)
  bind : ∀ {α β : Type} {m m' : M α} {f f' : α → M β}, R α m m' → (∀ a, R β (f a) (f' a)) →
    R β (m >>= f) (m' >>= f')
  client : R _ WalkM.client WalkM.client
  tell : ∀ e : Event, e.isWindowFailure = false → R Unit (WalkM.tell e) (WalkM.tell e)
  report : ∀ {f : Failure}, f.isCoverageGap = true → (Event.failure f).isWindowFailure = false →
    R Unit (WalkM.report task.settings.strict f) (WalkM.report settings.strict f)
  claim : ∀ reg, R _ (claim reg) (claim reg)

variable {task : Task} {settings : Settings} {R : ∀ α : Type, M α → M α → Prop}

namespace ValueCongruence

variable (c : ValueCongruence task settings R) (u : MicroOp) (reg : Register)

include c

theorem tellAll (es : List Event) (he : ∀ e ∈ es, e.isWindowFailure = false) :
    R Unit (WalkM.tellAll es) (WalkM.tellAll es) := by
  induction es with
  | nil => exact c.ok ()
  | cons e es ih =>
    have rest := ih fun e' h => he e' (List.mem_cons_of_mem e h)
    exact c.bind (c.tell e (he e List.mem_cons_self)) fun _ => rest

theorem classify : R Effect (WalkM.classify u) (WalkM.classify u) := by
  refine c.bind (c.tellAll _ fun e he => ?_) fun _ => c.ok _
  obtain ⟨r, _, rfl⟩ := List.mem_map.mp he
  rfl

theorem operandValue (i : Nat) : R _ (operandValue u i) (operandValue u i) := by
  unfold Stride.operandValue
  extract_lets fromRegister
  have claimed : ∀ reg, R _ (fromRegister reg) (fromRegister reg) := by
    intro reg
    refine c.bind (c.claim reg) fun v? => ?_
    split
    · exact c.bind (c.tell _ rfl) fun _ => c.ok _
    · exact c.ok _
    · refine c.bind c.client fun st => ?_
      split
      · exact c.ok _
      · exact c.ok _
  split
  · exact c.ok _
  · split
    · exact c.ok _
    · exact claimed _
  · exact claimed _
  · exact c.ok _
  · exact c.ok _

theorem leaPart (key : TermKey) (t : Term) : R _ (leaPart u key t) (leaPart u key t) := by
  unfold Stride.leaPart
  dsimp only
  split
  · split
    · exact c.ok _
    · refine c.bind (c.claim _) fun v? => ?_
      split
      · exact c.bind (c.tell _ rfl) fun _ => c.ok _
      · exact c.ok _
      · refine c.bind c.client fun st => ?_
        split
        · exact c.ok _
        · exact c.ok _
  · exact c.ok _

theorem leaTerms (terms : List (TermKey × Term)) (sum : StrideValue) (access : Access) :
    R _ (leaTerms u terms sum access) (leaTerms u terms sum access) := by
  induction terms generalizing sum access with
  | nil => exact c.ok _
  | cons e rest ih => exact c.bind (c.leaPart u _ _) fun _ => ih _ _

theorem leaValue : R _ (leaValue u) (leaValue u) := by
  unfold Stride.leaValue
  split
  · exact c.leaTerms u _ _ _
  · exact c.ok _

theorem giveUp {failure : Failure} (hf : failure.isCoverageGap = true)
    (he : (Event.failure failure).isWindowFailure = false) (f : Formula) :
    R _ (giveUp task failure f) (giveUp { task with settings } failure f) :=
  c.bind (c.report hf he) fun _ => c.ok _

theorem easyValue : R _ (easyValue task u reg) (easyValue { task with settings } u reg) := by
  unfold Stride.easyValue
  dsimp only
  split
  · exact c.giveUp rfl rfl _
  · split
    · exact c.ok _
    · exact c.giveUp rfl rfl _

theorem secondOperand (count second : Nat) :
    R _ (secondOperand task u count second) (secondOperand { task with settings } u count second) := by
  unfold Stride.secondOperand
  split
  · exact c.operandValue u second
  · split
    · exact c.bind (c.report rfl rfl) fun _ => c.ok _
    · exact c.ok _

theorem combinedValue (count : Nat) :
    R _ (combinedValue task u reg count) (combinedValue { task with settings } u reg count) := by
  have missing : ∀ i f, R _ (Stride.giveUp task (.missingOperand u.site i) f)
      (Stride.giveUp { task with settings } (.missingOperand u.site i) f) :=
    fun _ f => c.giveUp rfl rfl f
  refine c.bind (c.operandValue u 0) fun o₁? => ?_
  split
  · exact missing _ _
  · split
    · refine c.bind (c.operandValue u 1) fun middle? => ?_
      split
      · exact missing _ _
      · refine c.bind (c.secondOperand u _ _) fun o₂? => ?_
        split
        · exact missing _ _
        · exact c.ok _
    · refine c.bind (c.secondOperand u _ _) fun o₂? => ?_
      split
      · exact missing _ _
      · exact c.ok _

theorem normalValue : R _ (normalValue task u reg) (normalValue { task with settings } u reg) := by
  unfold Stride.normalValue
  dsimp only
  split
  · exact c.giveUp rfl rfl _
  · split
    · exact c.leaValue u
    · split
      · exact c.ok _
      · exact c.combinedValue u reg _

theorem definitionValue :
    R _ (definitionValue task u reg) (definitionValue { task with settings } u reg) := by
  refine c.bind (c.classify u) fun effect => ?_
  split
  · exact c.easyValue u reg
  · exact c.normalValue u reg
  · exact c.giveUp rfl rfl _
  · exact c.ok _

theorem registerStride : R _ (registerStride reg) (registerStride reg) := by
  refine c.bind (c.claim reg) fun source? => ?_
  split
  · exact c.bind (c.tell _ rfl) fun _ => c.ok _
  · refine c.bind c.client fun st => ?_
    dsimp only
    split
    · split
      · exact c.bind (c.tell _ rfl) fun _ => c.ok _
      · exact c.ok _
    · exact c.ok _

omit u in
theorem strideTerms (u : Placed) (hc : R _ clear clear)
    (hs : ∀ reg, R _ (startSlice task ⟨u.block, u.index⟩ reg ⟨u.op.pc, 0⟩)
      (startSlice { task with settings } ⟨u.block, u.index⟩ reg ⟨u.op.pc, 0⟩))
    (terms : List (TermKey × Term)) (sum : Formula) :
    R _ (strideTerms task u terms sum) (strideTerms { task with settings } u terms sum) := by
  induction terms generalizing sum with
  | nil => exact c.ok _
  | cons e rest ih =>
    obtain ⟨key, t⟩ := e
    cases key with
    | register site reg =>
      unfold Stride.strideTerms
      split
      · exact ih _
      · refine c.bind hc fun _ => c.bind (hs reg) fun _ => ?_
        refine c.bind (c.registerStride reg) fun stride => ?_
        dsimp only
        split
        · exact c.bind (c.tell _ rfl) fun _ => ih _
        · exact ih _
    | _ => exact ih _

end ValueCongruence

structure EntryCongruence (task : Task) (settings : Settings) (R : ∀ α : Type, M α → M α → Prop) : Prop
    extends ValueCongruence task settings R where
  followSpills : settings.followSpills = task.settings.followSpills
  setStart : ∀ start, R Unit (modify fun w => { w with bounds.start := start })
    (modify fun w => { w with bounds.start := start })
  note : ∀ (site : Site) (f : Progress → Progress),
    (∀ pr, (f pr).loopCount = pr.loopCount ∧ (f pr).visit = pr.visit) →
    R _ (modifyProgress site f) (modifyProgress site f)

namespace EntryCongruence

variable (c : EntryCongruence task settings R) (follow follow' : Slicer.FollowFor StrideState)
  {u : Placed}
  (hf : ∀ address, R _ (follow ⟨u.block, u.index⟩ address) (follow' ⟨u.block, u.index⟩ address))

include c hf

theorem spilledValue? (base : Formula) :
    R _ (spilledValue? follow u base) (spilledValue? follow' u base) := by
  refine c.bind (c.setStart _) fun _ => c.bind (hf _) fun saved? => ?_
  split
  · exact c.ok _
  · refine c.bind (c.claim _) fun source? => ?_
    split
    · refine c.bind c.client fun st => ?_
      split
      · exact c.ok _
      · exact c.ok _
    · exact c.ok _

theorem resolveLoad (reg : Register) :
    R _ (resolveLoad task follow u reg) (resolveLoad { task with settings } follow' u reg) := by
  unfold Stride.resolveLoad
  rw [c.followSpills]
  dsimp only
  cases Slicer.loadBase? task.bases u.op with
  | none => exact c.note _ _ fun _ => ⟨rfl, rfl⟩
  | some base =>
    dsimp only
    split
    · refine c.bind (c.spilledValue? follow follow' hf base) fun v? => ?_
      cases v? with
      | none => exact c.note _ _ fun _ => ⟨rfl, rfl⟩
      | some v => exact c.bind (c.tell _ rfl) fun _ => c.note _ _ fun _ => ⟨rfl, rfl⟩
    · exact c.note _ _ fun _ => ⟨rfl, rfl⟩

theorem enterFresh (reg : Register) :
    R _ (enterFresh task follow u reg) (enterFresh { task with settings } follow' u reg) := by
  refine c.bind (c.classify u.op) fun effect => ?_
  split
  · exact c.ok _
  · exact c.ok _
  · split
    · exact c.bind (c.tell _ rfl) fun _ => c.ok _
    · split
      · exact c.bind (c.tell _ rfl) fun _ => c.bind (c.note _ _ fun _ => ⟨rfl, rfl⟩) fun _ => c.ok _
      · exact c.ok _
  · exact c.bind (c.resolveLoad follow follow' hf reg) fun _ => c.ok _

end EntryCongruence

/-- A relation that holds of all actions, whatever they change about the state of the slicer. The two
settings may differ in strictness and in the depth of walks. -/
structure Congruence (task : Task) (settings : Settings) (R : ∀ α : Type, M α → M α → Prop) : Prop
    extends EntryCongruence task settings R where
  showValues : settings.showValues = task.settings.showValues
  read : R _ get get
  modifyClient : ∀ f, R _ (WalkM.modifyClient f) (WalkM.modifyClient f)
  leaveWindow : ∀ site, R _ (WalkM.report task.settings.strict (.outsideIterationWindow site))
    (WalkM.report settings.strict (.outsideIterationWindow site))

namespace Congruence

variable (c : Congruence task settings R) (u : Placed) (reg : Register)

include c

theorem push (v : ValueSource) : R _ (push reg v) (push reg v) := c.modifyClient _

theorem modifyProgress (site : Site) (f : Progress → Progress) :
    R _ (modifyProgress site f) (modifyProgress site f) := c.modifyClient _

theorem clear : R _ clear clear := c.bind (c.setStart 0) fun _ => c.modifyClient _

theorem outsideWindow : R _ (outsideWindow u) (outsideWindow u) := c.bind c.read fun _ => c.ok _

theorem enterOp (follow follow' : Slicer.FollowFor StrideState) {u : Placed}
    (hf : ∀ address, R _ (follow ⟨u.block, u.index⟩ address) (follow' ⟨u.block, u.index⟩ address)) :
    R _ (enterOp task follow u reg) (enterOp { task with settings } follow' u reg) := by
  refine c.bind (c.outsideWindow u) fun outside => ?_
  split
  · exact c.ok _
  · refine c.bind c.client fun st => ?_
    dsimp only
    split
    · exact c.ok _
    · refine c.bind (c.modifyClient _) fun _ => ?_
      split
      · exact c.ok _
      · exact c.enterFresh follow follow' hf reg

theorem seedCycle : R _ (seedCycle task u reg) (seedCycle { task with settings } u reg) := by
  refine c.bind c.client fun st => c.bind (c.modifyProgress _ _) fun _ => c.bind (c.tell _ rfl) fun _ => ?_
  refine c.bind (c.push _ _) fun _ => c.bind (c.modifyClient _) fun _ => ?_
  split
  · exact c.report rfl rfl
  · exact c.ok _

theorem settleDefinition (closing : Bool) (value : StrideValue) :
    R _ (settleDefinition task u reg closing value)
      (settleDefinition { task with settings } u reg closing value) := by
  unfold Stride.settleDefinition
  rw [c.showValues]
  extract_lets settled
  have settled_alike : ∀ f, R _ (settled f) (settled f) := by
    intro f
    refine c.bind c.client fun st => c.bind (c.modifyClient _) fun _ => c.bind (c.tell _ rfl) fun _ => ?_
    refine c.bind (c.push _ _) fun _ => ?_
    split
    · refine c.bind c.client fun st' => c.tellAll _ fun e he => ?_
      obtain ⟨x, _, rfl⟩ := List.mem_map.mp he
      rfl
    · exact c.ok _
  split
  · exact c.bind (c.tell _ rfl) fun _ => c.bind (c.ok _) settled_alike
  · exact c.bind (c.ok _) settled_alike

theorem finishOp : R _ (finishOp task u reg) (finishOp { task with settings } u reg) := by
  have finish : ∀ closing, R _ (Stride.definitionValue task u.op reg >>= Stride.settleDefinition task u reg closing)
      (Stride.definitionValue { task with settings } u.op reg >>=
        Stride.settleDefinition { task with settings } u reg closing) := fun closing =>
    c.bind (c.definitionValue u.op reg) fun value => c.settleDefinition u reg closing value
  refine c.bind c.client fun st => ?_
  dsimp only
  split
  · exact c.settleDefinition u reg _ _
  · split
    · exact c.bind (c.modifyProgress _ _) fun _ => c.push _ _
    · split
      · exact c.bind (c.modifyProgress _ _) fun _ => finish _
      · exact finish _

theorem leaveOp : R _ (leaveOp task u reg) (leaveOp { task with settings } u reg) := by
  refine c.bind (c.outsideWindow u) fun outside => ?_
  split
  · exact c.bind (c.modifyProgress _ _) fun _ => c.bind (c.push _ _) fun _ => c.leaveWindow _
  · refine c.bind c.client fun st => ?_
    dsimp only
    split
    · exact c.seedCycle u reg
    · exact c.finishOp u reg

theorem enterEdge {e : Nat}
    (he : R _ (WalkM.require (task.graph.edge? e)) (WalkM.require (task.graph.edge? e))) :
    R _ (enterEdge task e) (enterEdge { task with settings } e) := by
  refine c.bind he fun _ => c.bind c.client fun st => ?_
  split
  · dsimp only
    split
    · exact c.bind (c.modifyClient _) fun _ => c.ok _
    · exact c.ok _
  · exact c.ok _

theorem leaveEdge (e : Nat) : R _ (leaveEdge task e) (leaveEdge { task with settings } e) := by
  unfold Stride.leaveEdge
  dsimp only
  split
  · exact c.modifyClient _
  · exact c.ok _

theorem enterBlock {b : Nat}
    (hb : R _ (WalkM.require (task.graph.block? b)) (WalkM.require (task.graph.block? b))) :
    R _ (enterBlock task b reg) (enterBlock { task with settings } b reg) := by
  refine c.bind hb fun block => c.bind c.read fun w => ?_
  split
  · exact c.bind (c.push _ _) fun _ => c.ok _
  · exact c.ok _

theorem start {p : Position}
    (hp : R _ (WalkM.require (task.graph.block? p.block)) (WalkM.require (task.graph.block? p.block))) :
    R _ (start task p reg) (start { task with settings } p reg) := by
  refine c.bind hp fun block => c.bind (c.modifyClient _) fun _ => ?_
  split
  · exact c.modifyProgress _ _
  · exact c.ok _

theorem fixedValue (v : MicroOp) (value : Int) :
    R _ (fixedValue reg v value) (fixedValue reg v value) := by
  unfold Stride.fixedValue
  split
  · exact c.bind (c.push _ _) fun _ => c.modifyProgress _ _
  · exact c.ok _

theorem startSlice {p : Position} {bounds : Bounds}
    (hp : R _ (ensurePath task p.block) (ensurePath { task with settings } p.block))
    (hs : R _ (slice task p reg bounds) (slice { task with settings } p reg bounds)) :
    R _ (startSlice task p reg bounds) (startSlice { task with settings } p reg bounds) := by
  unfold Stride.startSlice
  refine c.bind c.client fun st => ?_
  dsimp only
  split
  · exact c.bind (c.tell _ rfl) fun _ => c.bind (c.modifyClient _) fun _ => c.bind hp fun _ => hs
  · exact c.bind (c.modifyClient _) fun _ => c.bind hp fun _ => hs

end Congruence

end Stride

end AddressFormulas
