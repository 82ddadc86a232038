import AddressFormulas.Proofs.Stride.Completion
import AddressFormulas.Proofs.Walk.Invariance

/-!
What a stride slice leaves in progress. A walk that comes to an end is behind as many back edges as
at its beginning, and every micro-op that it began to compute is done with. A failure within a walk
leaves micro-ops in progress, also for the slices after it; such failures are gaps in the model, on
which only strict slicing stops.
-/

namespace AddressFormulas.Stride

open WalkM Skeleton

variable {task : Task} {w : Walk StrideState}

structure Unwinds (w w' : Walk StrideState) : Prop where
  backEdges : (skeleton w').backEdges = (skeleton w).backEdges
  loopCount : ∀ s, (skeleton w').loopCount s = 0 ∨
    (skeleton w').loopCount s = (skeleton w).loopCount s

theorem Unwinds.of_eq {w' : Walk StrideState} (h : skeleton w' = skeleton w) : Unwinds w w' where
  backEdges := by rw [h]
  loopCount s := .inr (by rw [h])

theorem unwinds_lasting : Lasting Unwinds where
  refl _ := .of_eq rfl
  trans h h' := by
    refine ⟨h'.backEdges.trans h.backEdges, fun s => ?_⟩
    obtain hs | hs := h'.loopCount s
    · exact .inl hs
    · rw [hs]
      exact h.loopCount s
  told _ _ := ⟨rfl, fun _ => .inr rfl⟩

/-- A walk within a slice fails only on a gap in the model, and only if it is strict. -/
def Interrupted (task : Task) (stop : Stop) : Prop :=
  ∀ f, stop = .failed f → task.settings.strict = true ∧ f.isCoverageGap = true

theorem tolerates_interrupted : Tolerates (Interrupted task) task.settings.strict := by
  rintro hs f hf _ ⟨⟩
  exact ⟨hs, hf⟩

abbrev M.Unwinding (task : Task) {α : Type} (m : M α) : Prop := Ensures (Interrupted task) Unwinds m

theorem M.Neutral.unwinding {α : Type} {m : M α} (h : m.Neutral) : m.Unwinding task :=
  (h.weaken fun _ => False.elim).ensures fun _ _ => .of_eq

theorem modifyProgress_unwinding (site : Site) (f : Progress → Progress)
    (hf : ∀ pr, (f pr).loopCount = pr.loopCount ∧ (f pr).visit = pr.visit) :
    (modifyProgress site f).Unwinding task :=
  (modifyProgress_neutral site f hf).unwinding

theorem push_unwinding (reg : Register) (v : ValueSource) : (push reg v).Unwinding task :=
  (push_neutral reg v).unwinding

theorem congruence_unwinding :
    EntryCongruence task task.settings fun _ m _ => m.Unwinding task where
  ok := unwinds_lasting.ok
  bind := unwinds_lasting.bind
  client := unwinds_lasting.client
  tell e _ := unwinds_lasting.tell e
  report hf _ := unwinds_lasting.report tolerates_interrupted hf
  claim reg := (claim_neutral reg).unwinding
  followSpills := rfl
  setStart _ _ := ⟨rfl, fun _ => .inr rfl⟩
  note := modifyProgress_unwinding

structure Begins (site : Site) (w w' : Walk StrideState) : Prop where
  backEdges : (skeleton w').backEdges = (skeleton w).backEdges
  loopCount : ∀ s, (skeleton w').loopCount s = 0 ∨
    (skeleton w').loopCount s = (skeleton w).loopCount s ∨
      s = site ∧ (skeleton w').loopCount s = (skeleton w).backEdges + 1

theorem Unwinds.begins {w' : Walk StrideState} (h : Unwinds w w') (site : Site) :
    Begins site w w' :=
  ⟨h.backEdges, fun s => (h.loopCount s).imp id .inl⟩

theorem Begins.trans {site : Site} {w' w'' : Walk StrideState} (h : Begins site w w')
    (h' : Unwinds w' w'') : Begins site w w'' := by
  refine ⟨h'.backEdges.trans h.backEdges, fun s => ?_⟩
  obtain hs | hs := h'.loopCount s
  · exact .inl hs
  · rw [hs]
    exact h.loopCount s

theorem enterOp_begins {follow : Slicer.FollowFor StrideState}
    (hf : ∀ p address, M.Unwinding task (follow p address)) (u : Placed) (reg : Register) :
    wp (enterOp task follow u reg) (fun _ w' => Begins u.op.site w w')
      (fun stop _ => Interrupted task stop) w := by
  have same : Begins u.op.site w w := (unwinds_lasting.refl w).begins _
  refine wp_bind.mpr (show wp (outsideWindow u) _ _ w from ?_)
  simp only [outsideWindow, wp_bind, wp_get, wp_pure]
  split
  · exact same
  · simp only [wp_bind, wp_client]
    split
    · exact same
    · -- the micro-op gets its mark, whether it is computed anew or not
      simp only [wp_bind, wp_modifyClient]
      generalize hw : ({ w with client := _ } : Walk StrideState) = w₁
      have begun : Begins u.op.site w w₁ := by
        subst hw
        refine ⟨rfl, fun s => ?_⟩
        by_cases hs : s = u.op.site
        · exact .inr (.inr ⟨hs, by simp [skeleton, progressAt_modifyProgress, hs]⟩)
        · exact .inr (.inl (by simp [skeleton, progressAt_modifyProgress, hs]; rfl))
      split
      · exact begun
      · exact wp_imp (congruence_unwinding.enterFresh follow follow (fun _ => hf _ _) reg w₁) fun _ _ => begun.trans

theorem finishOp_leaves (u : Placed) (reg : Register) :
    wp (finishOp task u reg) (fun _ w' => skeleton w' = (skeleton w).leave u.op.site)
      (fun stop _ => Interrupted task stop) w := by
  have settles : ∀ w' value, skeleton w' = skeleton w →
      wp (settleDefinition task u reg (w.client.atCycleStart u.op.site) value)
        (fun _ w'' => skeleton w'' = (skeleton w).leave u.op.site)
        (fun stop _ => Interrupted task stop) w' := fun w' value h =>
    wp_mono (settleDefinition_ends h u reg value) (fun _ _ h => h) fun _ _ => False.elim
  have computes : ∀ w', skeleton w' = skeleton w → wp (do
      let value ← definitionValue task u.op reg
      settleDefinition task u reg (w.client.atCycleStart u.op.site) value)
      (fun _ w'' => skeleton w'' = (skeleton w).leave u.op.site)
      (fun stop _ => Interrupted task stop) w' := by
    intro w' h
    have value : WalkM.StopsOnly (Interrupted task) skeleton (definitionValue task u.op reg) :=
      unconcerned_skeleton.definitionValue tolerates_interrupted u.op reg
    exact wp_bind.mpr (wp_imp (value w') fun v w'' h' => settles w'' v (h'.trans h))
  unfold finishOp
  simp only [wp_bind, wp_client]
  split
  · exact settles w _ rfl
  · split
    · next hc =>
      have closed : w.client.atCycleStart u.op.site = false := by
        simp only [Bool.and_eq_true, Bool.not_eq_true'] at hc
        exact hc.1.1
      refine wp_bind.mpr (wp_modifyClient _ |>.mpr ?_)
      refine wp_mono (push_neutral _ _ _) (fun _ w' h => h.trans ?_) fun _ _ => False.elim
      have left := skeleton_leave (w := w) rfl u.op.site
        (f := fun pr => { pr with loopCount := 0 }) fun _ => ⟨rfl, rfl⟩
      simpa [closed] using left
    · split
      · refine wp_bind.mpr (wp_modifyClient _ |>.mpr (computes _ ?_))
        exact skeleton_modifyProgress_eq fun _ => ⟨rfl, rfl⟩
      · exact computes w rfl

theorem seedCycle_unwinding (u : Placed) (reg : Register) :
    (seedCycle task u reg).Unwinding task := by
  refine unwinds_lasting.bind unwinds_lasting.client fun st => ?_
  refine unwinds_lasting.bind (modifyProgress_unwinding _ _ fun _ => ⟨rfl, rfl⟩) fun _ => ?_
  refine unwinds_lasting.bind (unwinds_lasting.tell _) fun _ => ?_
  refine unwinds_lasting.bind (push_unwinding _ _) fun _ => ?_
  refine unwinds_lasting.bind (fun _ => ⟨rfl, fun _ => .inr rfl⟩) fun _ => ?_
  split
  · exact unwinds_lasting.report tolerates_interrupted rfl
  · exact unwinds_lasting.ok _

theorem Begins.leaveOp {u : Placed} {w' : Walk StrideState} (h : Begins u.op.site w w')
    (reg : Register) :
    wp (leaveOp task u reg) (fun _ w'' => Unwinds w w'')
      (fun stop _ => Interrupted task stop) w' := by
  have done : ∀ w'', (skeleton w'').backEdges = (skeleton w').backEdges →
      (skeleton w'').loopCount = Function.update (skeleton w').loopCount u.op.site 0 →
      Unwinds w w'' := by
    intro w'' hb hl
    refine ⟨hb.trans h.backEdges, fun s => ?_⟩
    rw [hl]
    by_cases hs : s = u.op.site
    · exact .inl (by simp [hs])
    · rw [Function.update_of_ne hs]
      obtain h | h | h := h.loopCount s
      · exact .inl h
      · exact .inr h
      · exact absurd h.1 hs
  refine wp_bind.mpr (show wp (outsideWindow u) _ _ w' from ?_)
  simp only [outsideWindow, wp_bind, wp_get, wp_pure]
  split
  · refine wp_bind.mpr (wp_modifyClient _ |>.mpr (wp_bind.mpr (wp_modifyClient _ |>.mpr ?_)))
    refine unwinds_lasting.wp_imp (unwinds_lasting.report tolerates_interrupted rfl)
      (done _ rfl ?_) fun _ _ h => h
    exact congrArg Skeleton.loopCount (skeleton_modifyProgress w' u.op.site _)
  · simp only [wp_bind, wp_client]
    split
    · next hp =>
      have hp : 0 < (skeleton w').loopCount u.op.site ∧
          (skeleton w').loopCount u.op.site < (skeleton w').backEdges + 1 := hp
      have hb := h.backEdges
      refine unwinds_lasting.wp_imp (seedCycle_unwinding u reg) ⟨hb, fun s => ?_⟩ fun _ _ h => h
      obtain h | h | ⟨rfl, h⟩ := h.loopCount s
      · exact .inl h
      · exact .inr h
      · omega
    · refine wp_imp (finishOp_leaves u reg) fun _ w'' h'' => done w'' ?_ ?_
      · rw [h'']
        rfl
      · rw [h'']
        rfl

theorem start_unwinding (p : Position) (reg : Register) : (start task p reg).Unwinding task := by
  have missing : Interrupted task .missing := fun f hf => by cases hf
  refine unwinds_lasting.bind (unwinds_lasting.require missing _) fun block => ?_
  refine unwinds_lasting.bind (fun _ => ⟨rfl, fun _ => .inr rfl⟩) fun _ => ?_
  split
  · exact modifyProgress_unwinding _ _ fun _ => ⟨rfl, rfl⟩
  · exact unwinds_lasting.ok _

theorem enterBlock_unwinding (b : Nat) (reg : Register) :
    (enterBlock task b reg).Unwinding task := by
  have missing : Interrupted task .missing := fun f hf => by cases hf
  refine unwinds_lasting.bind (unwinds_lasting.require missing _) fun block => ?_
  refine unwinds_lasting.bind unwinds_lasting.read fun w => ?_
  split
  · exact unwinds_lasting.bind (push_unwinding _ _) fun _ => unwinds_lasting.ok _
  · exact unwinds_lasting.ok _

theorem edge_unwinds (e : Nat) :
    wp (enterEdge task e) (fun entered w₁ => (entered = false → Unwinds w w₁) ∧
      (entered = true → ∀ w₂, Unwinds w₁ w₂ →
        wp (leaveEdge task e) (fun _ w₃ => Unwinds w w₃) (fun stop _ => Interrupted task stop) w₂))
      (fun stop _ => Interrupted task stop) w := by
  unfold enterEdge
  cases he : task.graph.edge? e with
  | none => exact fun f hf => by cases hf
  | some edge =>
    simp only [wp_bind, wp_require_some, wp_client]
    split
    · unfold leaveEdge
      split
      · refine ⟨(fun left => by cases left), fun _ w₂ h₂ => ⟨?_, h₂.loopCount⟩⟩
        have back : w₂.client.backEdges = w.client.backEdges + 1 := h₂.backEdges
        change w₂.client.backEdges - 1 = w.client.backEdges
        omega
      · exact ⟨(fun left => by cases left), fun _ w₂ h₂ => h₂⟩
    · exact ⟨fun _ => unwinds_lasting.refl w, fun entered => by cases entered⟩

theorem slicer_respects_unwinds (task : Task) :
    (slicer task).Respects (Interrupted task) Unwinds where
  lasting := unwinds_lasting
  missing f hf := by cases hf
  exhausted f hf := by cases hf
  gaps := tolerates_interrupted
  bounds _ _ := ⟨rfl, fun _ => .inr rfl⟩
  bound _ := unwinds_lasting.ok _
  start := start_unwinding
  op _ hf u reg _ := wp_imp (enterOp_begins hf u reg) fun _ _ h _ h' => (h.trans h').leaveOp reg
  edge e _ _ := edge_unwinds e
  enterBlock := enterBlock_unwinding
  leaveBlock _ _ := push_unwinding _ _
  tryOthers _ _ := unwinds_lasting.ok _
  fixedValue reg u v := (fixedValue_neutral reg u v).unwinding

def Still (w : Walk StrideState) : Prop := ∀ s, (skeleton w).loopCount s = 0

theorem Still.unwinds {w' : Walk StrideState} (h : Still w) (hw : Unwinds w w') : Still w' := by
  intro s
  obtain hs | hs := hw.loopCount s
  · exact hs
  · exact hs.trans (h s)

/-- If no micro-op is being computed, none is afterwards, unless a walk was interrupted. -/
def M.StaysStill (task : Task) {α : Type} (m : M α) : Prop :=
  ∀ w, Still w → wp m (fun _ w' => Still w') (fun stop w' => Interrupted task stop ∨ Still w') w

namespace M.StaysStill

variable {α β : Type} {m : M α}

theorem of_unwinding (h : m.Unwinding task) : m.StaysStill task := fun w hw =>
  wp_mono (h w) (fun _ _ => hw.unwinds) fun _ _ => .inl

theorem bind {f : α → M β} (h : m.StaysStill task) (hf : ∀ a, (f a).StaysStill task) :
    M.StaysStill task (m >>= f) := fun w hw =>
  wp_bind.mpr (wp_imp (h w hw) fun a w' => hf a w')

theorem ok (a : α) : M.StaysStill task (pure a : M α) := .of_unwinding (unwinds_lasting.ok a)

theorem tell (e : Event) : M.StaysStill task (WalkM.tell e) :=
  .of_unwinding (unwinds_lasting.tell e)

theorem change (f : StrideState → StrideState) (hf : ∀ st, (f st).progress = st.progress) :
    M.StaysStill task (modifyClient f) := by
  intro w hw s
  change ((f w.client).progress.getD s {}).loopCount = 0
  rw [hf]
  exact hw s

end M.StaysStill

theorem clear_staysStill : clear.StaysStill task :=
  .bind (fun _ h => h) fun _ => .change _ fun _ => rfl

theorem ensurePath_staysStill (b : Nat) : (ensurePath task b).StaysStill task := by
  refine .bind (fun _ h => h) fun st => ?_
  split
  · exact .ok _
  · refine .bind (.change _ fun _ => rfl) fun _ => ?_
    refine .bind (.of_unwinding (unwinds_lasting.require (fun f hf => by cases hf) _)) fun _ => ?_
    refine .bind (.of_unwinding (unwinds_lasting.tellAll _)) fun _ => ?_
    split
    · exact fun _ => .inr
    · exact .change _ fun _ => rfl

theorem congruence_staysStill :
    ValueCongruence task task.settings fun _ m _ => m.StaysStill task where
  ok := .ok
  bind := .bind
  client := .of_unwinding unwinds_lasting.client
  tell e _ := .tell e
  report hf _ := .of_unwinding (unwinds_lasting.report tolerates_interrupted hf)
  claim reg := .of_unwinding (claim_neutral reg).unwinding

theorem startSlice_staysStill (p : Position) (reg : Register) (bounds : Bounds) :
    (startSlice task p reg bounds).StaysStill task := by
  refine .bind (fun _ h => h) fun st => ?_
  extract_lets cycles begin'
  have begins : ∀ x, (begin' x).StaysStill task := fun _ =>
    .bind (.change _ fun _ => rfl) fun _ => .bind (ensurePath_staysStill p.block) fun _ =>
      .of_unwinding ((slicer_respects_unwinds task).slice task.settings.depth p reg bounds)
  split
  · exact .bind (.tell _) begins
  · exact begins ()

theorem operandStride_staysStill (b index : Nat) (opidx : Int) :
    (operandStride task b index opidx).StaysStill task := by
  have present : ∀ {α : Type} (a? : Option α), M.StaysStill task (require a?) := fun a? =>
    .of_unwinding (unwinds_lasting.require (fun f hf => by cases hf) a?)
  refine .bind (present _) fun block => .bind (present _) fun op => ?_
  split
  · exact fun _ => .inr
  · refine .bind ?_ fun _ => .bind (.tell _) fun _ => .ok _
    exact congruence_staysStill.strideTerms _ clear_staysStill (fun _ => startSlice_staysStill _ _ _) _ _

/-- What a slicer can have come to by computing strides one after another. A call that failed counts
too, unless the slicer is strict and the failure is a gap in the model. -/
inductive Called (task : Task) : Walk StrideState → Prop
  | fresh (session : StrideSession) : Called task { client := { session } }
  | answered {w w' : Walk StrideState} {f : Formula} (b index : Nat) (opidx : Int) : Called task w →
      (operandStride task b index opidx).run w = .ok f w' → Called task w'
  | failed {w w' : Walk StrideState} {f : Failure} (b index : Nat) (opidx : Int) : Called task w →
      (operandStride task b index opidx).run w = .error (.failed f) w' →
      (task.settings.strict = true → f.isCoverageGap = false) → Called task w'

theorem Called.still (h : Called task w) : Still w := by
  induction h with
  | fresh session => exact fun _ => rfl
  | answered b index opidx _ run ih => exact wp_ok (operandStride_staysStill b index opidx _ ih) run
  | failed b index opidx _ run hf ih =>
    obtain interrupted | still := wp_error (operandStride_staysStill b index opidx _ ih) run
    · obtain ⟨strict, gap⟩ := interrupted _ rfl
      rw [hf strict] at gap
      cases gap
    · exact still

/-- Once the state of the last slice is dropped, nothing is in progress: no micro-op is being
computed, no cycle is open and no back edge was crossed. -/
theorem clear_idle (task : Task) {w : Walk StrideState} (h : Called task w) :
    ∃ w', clear.run w = .ok () w' ∧ w'.client.cycles = [] ∧ w'.client.backEdges = 0 ∧
      ∀ site pr, w'.client.progress.get? site = some pr → pr.loopCount = 0 := by
  refine ⟨_, rfl, rfl, rfl, fun site pr hpr => ?_⟩
  have still : (w.client.progress.getD site {}).loopCount = 0 := h.still site
  have found : w.client.progress.get? site = some pr := hpr
  rwa [Table.getD, found] at still

def tripleLoop : Graph :=
  let rax : Register := ⟨.listed 0, 0, 63⟩
  let rbx : Register := ⟨.listed 4, 0, 63⟩
  let rcx : Register := ⟨.listed 8, 0, 63⟩
  let load (pc : Nat) : MicroOp :=
    { pc, kind := .load, operation := .mov, sources := [.memory { base := some rax }],
      destinations := [.register rcx] }
  let sum : MicroOp :=
    { pc := 0x14, kind := .alu, operation := .add,
      sources := [.register rax, .register rbx, .register rcx], destinations := [.register rax] }
  let blocks :=
    (({ loopTree := [0, 0] } : Graph).addBlock 0 0 [load 0x10]).addBlock 1 1 [sum, load 0x18]
  (blocks.addEdge 0 1 false).addEdge 1 1 true

theorem clear_idle_tripleLoop :
    ∃ w₁ f w₂ w', (operandStride ⟨{}, tripleLoop, {}, 1⟩ 0 0 0).run { client := {} } =
        .error (.failed (.noCyclicPath 0 1)) w₁ ∧
      (operandStride ⟨{}, tripleLoop, {}, 1⟩ 1 1 0).run w₁ = .ok f w₂ ∧
      clear.run w₂ = .ok () w' ∧ w'.client.cycles = [] ∧ w'.client.backEdges = 0 ∧
      ∀ site pr, w'.client.progress.get? site = some pr → pr.loopCount = 0 := by
  obtain ⟨_, w₁, first, rfl, again⟩ : ∃ stop w₁,
      (operandStride ⟨{}, tripleLoop, {}, 1⟩ 0 0 0).run { client := {} } = .error stop w₁ ∧
      stop = .failed (.noCyclicPath 0 1) ∧
      wp (operandStride ⟨{}, tripleLoop, {}, 1⟩ 1 1 0) (fun _ _ => True) (fun _ _ => False) w₁ :=
    run_of_stops (by decide +kernel)
  obtain ⟨f, w₂, second, -⟩ := run_of_ends again
  have called := Called.answered 1 1 0 (Called.failed 0 0 0 (.fresh {}) first fun _ => rfl) second
  obtain ⟨w', idle⟩ := clear_idle ⟨{}, tripleLoop, {}, 1⟩ called
  exact ⟨w₁, f, w₂, w', first, second, idle⟩

/-- Strict slicing that stops within a walk leaves a micro-op in progress for all slices to come. -/
theorem clear_not_idle :
    ∃ w w', (operandStride ⟨{ strict := true }, tripleLoop, {}, 1⟩ 1 1 0).run { client := {} } =
        .error (.failed (.unexpectedOperandCount ⟨0x14, 0⟩ 3)) w ∧
      clear.run w = .ok () w' ∧ (w'.client.progressAt ⟨0x14, 0⟩).loopCount = 1 := by
  obtain ⟨_, w, run, rfl, count⟩ : ∃ stop w,
      (operandStride ⟨{ strict := true }, tripleLoop, {}, 1⟩ 1 1 0).run { client := {} } =
        .error stop w ∧
      stop = .failed (.unexpectedOperandCount ⟨0x14, 0⟩ 3) ∧
      (w.client.progressAt ⟨0x14, 0⟩).loopCount = 1 := run_of_stops (by decide +kernel)
  exact ⟨w, _, run, rfl, count⟩

end AddressFormulas.Stride
