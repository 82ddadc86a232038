import AddressFormulas.Proofs.Stride.Claims
import AddressFormulas.Proofs.Stride.Termination

namespace AddressFormulas.Stride

open WalkM Formula Loop

variable {task : Task} {w : Walk StrideState}

theorem yields_of_ends {α : Type} {m : M α} {Q : α → Walk StrideState → Prop} (h : ends m Q w) :
    yields m Q w :=
  wp_mono h (fun _ _ h => h) fun _ _ h => h.elim

theorem yields_bind {α β : Type} {m : M α} {f : α → M β} {Q : β → Walk StrideState → Prop}
    (hm : m.Silent) (hf : ∀ a w', ledger w' = ledger w → yields (f a) Q w') :
    yields (m >>= f) Q w :=
  wp_bind.mpr (wp_imp (hm w) hf)

theorem modifyProgress_yields {site : Site} {f : Progress → Progress}
    (hf : ∀ pr, { f pr with tracked := none } = f { pr with tracked := none }) :
    yields (modifyProgress site f) (fun _ w' => ledger w' = (ledger w).note site f) w :=
  ledger_modifyProgress hf

theorem push_yields {reg : Register} (hr : reg.isWhole = true) (source : ValueSource) :
    yields (push reg source) (fun _ w' => ledger w' = (ledger w).put reg source) w := by
  have present : reg.isAbsent = false := by
    simp [Register.isAbsent, (Register.isWhole_iff.mp hr).1]
  have pushed : (w.client.values.push reg source).newestFirst =
      (.register reg, source) :: w.client.values.newestFirst := by
    simp [Pending.push, present]
  exact congrArg (fun vs => { ledger w with values := vs }) pushed

theorem push_absent (source : ValueSource) :
    yields (push .absent source) (fun _ w' => w' = w) w := by
  have absent : Register.absent.isAbsent = true := by decide
  change { w with client := w.client.push .absent source } = w
  rw [StrideState.push, Pending.push, absent, if_pos rfl]

theorem start_silent (pos : Position) (reg : Register) : M.Silent (start task pos reg) := by
  have tracked : ∀ site, M.Silent (modifyProgress site fun pr => { pr with tracked := some reg }) := by
    intro site
    refine .modifyClient _ fun w => ?_
    have same : ∀ s, { (w.client.modifyProgress site fun pr =>
        { pr with tracked := some reg }).progressAt s with tracked := none } =
        { w.client.progressAt s with tracked := none } := by
      intro s
      rw [progressAt_modifyProgress]
      by_cases h : s = site
      · simp [h]
      · simp [h]
    simp only [ledger, same]
    rfl
  intro w
  unfold start
  cases hb : task.graph.block? pos.block with
  | none => trivial
  | some block =>
    refine wp_bind.mpr ?_
    simp only [wp_require_some]
    let began : Walk StrideState := { w with client := { w.client with
      startBackEdges := w.client.backEdges, startRank := w.client.pathRank pos.block } }
    change wp _ _ _ began
    have same : ledger began = ledger w := rfl
    rw [← same]
    split
    · exact tracked _ began
    · rfl

theorem settleDefinition_yields {u : Placed} {reg : Register} (hr : reg.isWhole = true)
    (closing : Bool) (v : StrideValue) :
    yields (settleDefinition task u reg closing v) (fun _ w' =>
      ledger w' = (ledger w).settle u.op.site reg closing (settledFormula u.op reg v)
        (if closing && v.target = ((ledger w).notes u.op.site).visit then .stride
          else if closing then ((ledger w).notes u.op.site).kind else v.kind)
        (if closing && v.target = ((ledger w).notes u.op.site).visit then 0 else v.target)) w := by
  refine (settleDefinition_updates u reg closing v).wp fun told _ => ?_
  let dropped : Walk StrideState := { w with client := { w.client with
    cycles := if closing then w.client.cycles.dropWhile (·.site = u.op.site) else w.client.cycles } }
  let entry := settledAs closing v (w.client.progressAt u.op.site)
  let notes (pr : Progress) : Progress :=
    { pr with
      formula := some (settledFormula u.op reg v)
      slice := w.client.session.slices
      kind := entry.1
      target := entry.2
      loopCount := 0 }
  have noted : ledger { dropped with client := dropped.client.modifyProgress u.op.site notes } =
      (ledger dropped).note u.op.site notes := ledger_modifyProgress fun _ => rfl
  exact (push_yields hr (.definition u.op.site entry.2)).trans (congrArg (Ledger.put · reg _) noted)

theorem seedCycle_yields (hs : task.settings.strict = false) {u : Placed} {reg : Register}
    (hr : reg.isWhole = true) :
    yields (seedCycle task u reg) (fun _ w' => ledger w' = (ledger w).seed u.op.site reg) w := by
  refine wp_bind.mpr ?_
  simp only [wp_client]
  refine wp_bind.mpr (wp_imp (modifyProgress_yields (fun _ => rfl)) fun _ w₁ h₁ => ?_)
  refine yields_bind (tell_silent _) fun _ w₂ h₂ => ?_
  refine wp_bind.mpr (wp_imp (push_yields hr _) fun _ w₃ h₃ => ?_)
  let opened : OpenCycle := ⟨((ledger w).notes u.op.site).visit, u.op.site⟩
  have seeded : { ledger w₃ with
      cycles := StrideState.insertCycle opened (ledger w₃).cycles } =
      (ledger w).seed u.op.site reg := by
    rw [h₃, h₂, h₁]
    rfl
  simp only [wp_bind, wp_modifyClient]
  split
  · have silent : M.Silent (report task.settings.strict (.cycleWithoutTrackedRegister u.op.site)) :=
      .report hs rfl fun _ => rfl
    exact wp_imp (silent _) fun _ w₄ h₄ => h₄.trans seeded
  · exact seeded

theorem finishOp_again {u : Placed} {reg : Register} (hr : reg.isWhole = true)
    (hcalm : ∀ c ∈ (ledger w).cycles, c.site ≠ u.op.site)
    (hformula : ((ledger w).notes u.op.site).formula ≠ none)
    (hreuse : ((ledger w).notes u.op.site).reuse = true) :
    yields (finishOp task u reg) (fun _ w' => ledger w' =
      ((ledger w).note u.op.site fun pr => { pr with loopCount := 0 }).put reg
        (.definition u.op.site ((ledger w).notes u.op.site).target)) w := by
  have calm : w.client.atCycleStart u.op.site = false := by
    rw [StrideState.atCycleStart, Option.any_eq_false_iff_get]
    intro hsome
    have := hcalm _ (List.mem_of_mem_head? (Option.get_mem hsome))
    simpa using this
  have formula : (w.client.progressAt u.op.site).formula.isSome = true :=
    Option.isSome_iff_ne_none.mpr hformula
  have reuse : (w.client.progressAt u.op.site).reuse = true := hreuse
  refine wp_bind.mpr ?_
  simp only [wp_client, calm, Bool.false_and, Bool.not_false, Bool.true_and, formula, reuse]
  refine wp_bind.mpr (wp_imp (modifyProgress_yields (fun _ => rfl)) fun _ w₁ h₁ => ?_)
  refine wp_imp (push_yields hr _) fun _ w₂ h₂ => ?_
  rw [h₂, h₁]
  rfl

theorem finishOp_compute {u : Placed} {reg : Register} (hr : reg.isWhole = true) {closing : Bool}
    (hclosing : w.client.atCycleStart u.op.site = closing)
    (hload : closing = true → u.op.isLoad = false)
    (hformula : closing = false → ((ledger w).notes u.op.site).formula = none)
    {Q : StrideValue → Ledger → Prop}
    (hvalue : ∀ w', ledger w' = ledger w →
      yields (definitionValue task u.op reg) (fun v w'' => Q v (ledger w'')) w') :
    yields (finishOp task u reg) (fun _ w' => ∃ v l, Q v l ∧
      ledger w' = l.settle u.op.site reg closing (settledFormula u.op reg v)
        (if closing && v.target = (l.notes u.op.site).visit then .stride
          else if closing then (l.notes u.op.site).kind else v.kind)
        (if closing && v.target = (l.notes u.op.site).visit then 0 else v.target)) w := by
  have settles : ∀ w', ledger w' = ledger w → yields (do
      let value ← definitionValue task u.op reg
      settleDefinition task u reg closing value) (fun _ w' => ∃ v l, Q v l ∧
      ledger w' = l.settle u.op.site reg closing (settledFormula u.op reg v)
        (if closing && v.target = (l.notes u.op.site).visit then .stride
          else if closing then (l.notes u.op.site).kind else v.kind)
        (if closing && v.target = (l.notes u.op.site).visit then 0 else v.target)) w' := by
    intro w' h
    refine wp_bind.mpr (wp_imp (hvalue w' h) fun v w₁ h₁ => ?_)
    exact wp_imp (settleDefinition_yields hr closing v) fun _ w₂ h₂ => ⟨v, ledger w₁, h₁, h₂⟩
  refine wp_bind.mpr ?_
  simp only [wp_client, hclosing]
  cases closing with
  | true =>
    simp only [hload rfl, Bool.and_false, Bool.not_true, Bool.false_and, Bool.false_eq_true, if_false]
    exact settles w rfl
  | false =>
    have blank : (w.client.progressAt u.op.site).formula = none := hformula rfl
    simp only [Bool.false_and, Bool.not_false, Bool.true_and, blank, Option.isSome_none,
      Bool.false_eq_true, if_false, if_true]
    refine wp_bind.mpr (wp_imp (modifyProgress_yields (fun _ => rfl)) fun _ w₁ h₁ => settles w₁ ?_)
    rw [h₁]
    have same : { (ledger w).notes u.op.site with formula := none } = (ledger w).notes u.op.site := by
      rw [← hformula rfl]
    exact Ledger.note_eq_self same

theorem yields_require {α β : Type} {a? : Option α} {f : α → M β} {Q : β → Walk StrideState → Prop}
    (h : ∀ a, a? = some a → yields (f a) Q w) : yields (require a? >>= f) Q w := by
  cases a? with
  | none => trivial
  | some a => exact h a rfl

structure Alone (task : Task) (p : CyclicPath) (b : Nat) (block : Block) : Prop where
  block_eq : task.graph.block? b = some block
  mem : b ∈ p.blocks
  only : ∀ c ∈ p.blocks, c = b
  storeless : ∀ u ∈ block.ops, u.isStore = false

theorem Alone.turn {p : CyclicPath} {low top b : Nat} {block : Block} (hset : Setting task p low top)
    (ha : Alone task p b block) : ∃ e edge, p.steps.lookup b = some e ∧
      task.graph.edge? e = some edge ∧ edge.sink = b ∧ edge.source = b ∧
      task.graph.isLoopBackEdge task.marker e = true ∧ p.rank b = 1 ∧
      (low < top → p.rank b = top) := by
  obtain ⟨e, edge, hlookup, hedge, hsink, hsource, hstep⟩ := hset.circuit.step b ha.mem
  have source := ha.only _ hsource
  rw [source] at hstep
  split at hstep
  · next hback => exact ⟨e, edge, hlookup, hedge, hsink, source, hback, hstep⟩
  · omega

def FollowsNowhere (p : CyclicPath) (b : Nat) (follow : Slicer.FollowFor StrideState) : Prop :=
  ∀ (before : Nat) (address : Formula) (w : Walk StrideState), w.client.path = some p →
    yields (follow ⟨b, before⟩ address) (fun found w' => found = none ∧ ledger w' = ledger w ∧
      w'.client.path = some p) w

section Follow

variable {p : CyclicPath} {low top b : Nat} {block : Block} (hset : Setting task p low top)
  (ha : Alone task p b block) {follow : Slicer.FollowFor StrideState}
  (hf : FollowsNowhere p b follow)

include hset ha hf

theorem followEdges_yields (address : Formula) {edges : List Nat}
    (hedges : ∀ e ∈ edges, e ∈ block.incoming) (hp : w.client.path = some p) :
    yields ((slicer task).followEdges task.graph follow b address edges) (fun found w' =>
      found = none ∧ ledger w' = ledger w ∧ w'.client.path = some p) w := by
  obtain ⟨taken, turn, hlookup, hturn, _, hsource, _⟩ := ha.turn hset
  have into : ∀ e ∈ edges, ∃ edge, task.graph.edge? e = some edge ∧ edge.sink = b :=
    fun e he => hset.wellFormed.mem_incoming ha.block_eq (hedges e he)
  have hblock := ha.block_eq
  rw [← hsource] at hblock
  apply wp_followEdges hp hlookup into hturn hblock
  · intro _
    apply wp_imp (push_absent _)
    rintro _ _ rfl
    exact ⟨rfl, rfl, hp⟩
  · rw [hsource]
    exact hf _ address (crossed (turns task taken) w) hp

theorem followStep_yields (walk : Slicer.WalkFor StrideState) :
    FollowsNowhere p b ((slicer task).followStep task.graph walk follow) := by
  intro before address w hp
  refine wp_bind.mpr ?_
  simp only [ha.block_eq, wp_require_some, wp_bind, wp_client]
  split
  · next i op _ hstore =>
    obtain ⟨_, hop, hs, _⟩ := lastBefore?_eq_some hstore
    have store : op.isStore = true := by
      simp only [Slicer.storesTo, Option.ite_none_right_eq_some, Bool.and_eq_true] at hs
      exact hs.1.1
    rw [ha.storeless op (List.mem_of_getElem? hop)] at store
    cases store
  · refine wp_bind.mpr ?_
    have enters : yields (enterBlock task b .absent) (fun _ w' => w' = w) w := by
      refine yields_require fun _ _ => wp_bind.mpr ?_
      simp only [wp_get]
      split
      · exact wp_bind.mpr (wp_imp (push_absent _) fun _ _ h => h)
      · rfl
    refine wp_imp enters ?_
    rintro enter _ rfl
    split
    · exact followEdges_yields hset ha hf address (fun _ he => he) hp
    · exact ⟨rfl, rfl, hp⟩

omit hf in
theorem follow_yields (depth : Nat) :
    FollowsNowhere p b ((slicer task).follow task.graph depth) := by
  induction depth with
  | zero => exact fun _ _ _ _ => trivial
  | succ depth ih => exact followStep_yields hset ha ih _

omit hset ha in
theorem resolveLoad_yields {u : Placed} (hu : u.block = b) (reg : Register)
    (hp : w.client.path = some p) :
    yields (resolveLoad task follow u reg) (fun _ w' => ∃ f : Formula, f.Plain ∧ f.overflow = false ∧
      ledger w' = (ledger w).note u.op.site fun pr =>
        { pr with formula := some (f.markLoad u.op.site), kind := .invariant, reuse := true }) w := by
  have searched : yields (searchSpill task follow u) (fun v? w' => v? = none ∧ ledger w' = ledger w)
      w := by
    unfold searchSpill
    split
    · next base _ =>
      split
      · refine wp_bind.mpr (wp_bind.mpr ?_)
        rw [hu]
        refine wp_imp (hf u.index base { w with bounds.start := u.op.pc } hp) ?_
        rintro _ w₁ ⟨rfl, h₁, _⟩
        exact ⟨rfl, h₁⟩
      · exact ⟨rfl, rfl⟩
    · exact ⟨rfl, rfl⟩
  have unknown : (unknownLoad task u reg).Plain ∧ (unknownLoad task u reg).overflow = false := by
    unfold unknownLoad
    split
    · exact ⟨plain_ofTerm _ rfl _, overflow_ofTerm _ _ _⟩
    · exact ⟨plain_ofTerm _ rfl _, overflow_ofTerm _ _ _⟩
  rw [resolveLoad_eq]
  refine wp_bind.mpr (wp_imp searched ?_)
  rintro _ w₁ ⟨rfl, h₁⟩
  refine (noteLoad_updates task u reg none).wp fun _ _ => ⟨_, unknown.1, unknown.2, ?_⟩
  rw [← h₁]
  exact ledger_modifyProgress fun _ => rfl

end Follow

inductive Entered (l : Ledger) (u : MicroOp) (count : Nat) : Bool → Ledger → Prop
  | pending : 0 < (l.notes u.site).loopCount → Entered l u count false l
  | again : (l.notes u.site).loopCount = 0 → l.reusable u.site →
      Entered l u count false ({ l with visits := l.visits + 1 }.note u.site fun pr =>
        { pr with loopCount := count, visit := l.visits + 1, reuse := true })
  | easy : (l.notes u.site).loopCount = 0 → ¬l.reusable u.site → u.effect = .easy →
      Entered l u count false (l.enter u.site count)
  | equal : (l.notes u.site).loopCount = 0 → ¬l.reusable u.site → u.effect = .normal →
      u.operation = .sub → readsSameTwice u = true →
      Entered l u count false ((l.enter u.site count).note u.site fun pr =>
        { pr with formula := some .zero, kind := .invariant, target := 0, reuse := true })
  | load {f : Formula} : (l.notes u.site).loopCount = 0 → ¬l.reusable u.site → u.effect = .hard →
      f.Plain → f.overflow = false → Entered l u count false ((l.enter u.site count).note u.site fun pr =>
        { pr with formula := some (f.markLoad u.site), kind := .invariant, reuse := true })
  | sources : (l.notes u.site).loopCount = 0 → ¬l.reusable u.site → u.effect = .normal →
      (u.operation = .sub → readsSameTwice u = false) →
      Entered l u count true (l.enter u.site count)

theorem reusable_iff (site : Site) :
    reusable w.client (w.client.progressAt site) = true ↔ (ledger w).reusable site := by
  have pending : w.client.targetPending (w.client.progressAt site).target = true ↔
      ((ledger w).notes site).target ≠ 0 ∧
        ∃ e ∈ (ledger w).values, e.2.target = ((ledger w).notes site).target := by
    simp [StrideState.targetPending, ledger]
  simp only [reusable, Bool.and_eq_true, Bool.or_eq_true, decide_eq_true_eq, pending,
    Option.isSome_iff_ne_none]
  rfl

section Enter

variable {p : CyclicPath} {b : Nat} {follow : Slicer.FollowFor StrideState}
  (hf : FollowsNowhere p b follow) {u : Placed} (hu : u.block = b) {count : Nat}
  (hvalid : u.op.effect = .normal → u.op.operation ≠ .invalid)
  (hxor : u.op.effect = .normal → u.op.operation = .xor → readsSameTwice u.op = false)
  (hcall : u.op.effect ≠ .impossible)

include hf hu hvalid hxor hcall

theorem enterFresh_yields {l : Ledger} (reg : Register) (hidle : (l.notes u.op.site).loopCount = 0)
    (hfresh : ¬l.reusable u.op.site) (hp : w.client.path = some p)
    (hw : ledger w = l.enter u.op.site count) :
    yields (enterFresh task follow u reg) (fun enter w' => Entered l u.op count enter (ledger w')) w := by
  have silent : M.Silent (classify u.op) := .classify u.op fun _ _ _ => rfl
  refine wp_bind.mpr ((wp_classify u.op).mpr ?_)
  generalize hw' : ({ w with journal := u.op.effectEvents.reverse ++ w.journal } : Walk StrideState) = w'
  have same : ledger w' = l.enter u.op.site count := by rw [← hw, ← hw']; rfl
  have path : w'.client.path = some p := by rw [← hw']; exact hp
  cases heffect : u.op.effect with
  | easy =>
    change Entered l u.op count false (ledger w')
    rw [same]
    exact .easy hidle hfresh heffect
  | impossible => exact absurd heffect hcall
  | normal =>
    dsimp only
    rw [if_neg (hvalid heffect)]
    split
    · next h =>
      obtain ⟨hop | hop, equal⟩ := h
      · simp [hxor heffect hop] at equal
      · refine yields_bind (tell_silent _) fun _ w₁ h₁ => ?_
        refine wp_bind.mpr (wp_imp (modifyProgress_yields fun _ => rfl) fun _ w₂ h₂ => ?_)
        rw [wp_pure, h₂, h₁, same]
        exact .equal hidle hfresh heffect hop equal
    · next h =>
      change Entered l u.op count true (ledger w')
      rw [same]
      refine .sources hidle hfresh heffect fun hop => ?_
      simpa using fun equal => h ⟨.inr hop, equal⟩
  | hard =>
    refine wp_bind.mpr (wp_imp (resolveLoad_yields hf hu reg path) ?_)
    rintro _ w₁ ⟨f, plain, overflow, h₁⟩
    rw [wp_pure, h₁, same]
    exact .load hidle hfresh heffect plain overflow

theorem enterOp_yields (reg : Register) (hp : w.client.path = some p)
    (hin : ¬(skeleton w).outside (p.rank u.block) (u.op.pc < (skeleton w).boundStart)) :
    yields (enterOp task follow u reg)
      (fun enter w' => Entered (ledger w) u.op (w.client.backEdges + 1) enter (ledger w')) w := by
  refine wp_bind.mpr (wp_imp (yields_of_ends (outsideWindow_ends hp u)) ?_)
  rintro out w' ⟨rfl, hout⟩
  have inside : out = false := by simpa using mt hout.mp hin
  subst inside
  simp only [Bool.false_eq_true, if_false]
  refine wp_bind.mpr ?_
  simp only [wp_client]
  split
  · next progress => exact .pending progress
  · next progress =>
    have idle : ((ledger w').notes u.op.site).loopCount = 0 := Nat.eq_zero_of_not_pos progress
    have again := reusable_iff (w := w') u.op.site
    generalize reusable w'.client (w'.client.progressAt u.op.site) = reuse at again ⊢
    have goes : ∀ w₁ : Walk StrideState, w₁.client.path = some p → ledger w₁ =
        { ledger w' with visits := (ledger w').visits + 1 }.note u.op.site (fun pr =>
          { pr with
            loopCount := w'.client.backEdges + 1
            visit := (ledger w').visits + 1
            reuse
            formula := if reuse then pr.formula else none }) →
        yields (if reuse then pure false else enterFresh task follow u reg) (fun enter w'' =>
          Entered (ledger w') u.op (w'.client.backEdges + 1) enter (ledger w'')) w₁ := by
      intro w₁ path h₁
      cases reuse with
      | true =>
        simp only [if_true] at h₁ ⊢
        change Entered (ledger w') u.op _ false (ledger w₁)
        rw [h₁]
        exact .again idle (again.mp rfl)
      | false =>
        simp only [Bool.false_eq_true, if_false] at h₁ ⊢
        exact enterFresh_yields hf hu hvalid hxor hcall reg idle (by simpa using again) path h₁
    exact wp_bind.mpr (goes _ hp (ledger_modifyProgress (w := { w' with client := { w'.client with
      session.visits := w'.client.session.visits + 1 } }) fun _ => rfl))

end Enter

theorem leaveOp_yields {p : CyclicPath} (hp : w.client.path = some p) {u : Placed} {reg : Register}
    (hin : ¬(skeleton w).outside (p.rank u.block) (u.op.pc < (skeleton w).boundStart))
    {Q : Unit → Walk StrideState → Prop}
    (hq : yields (if 0 < (w.client.progressAt u.op.site).loopCount ∧
        (w.client.progressAt u.op.site).loopCount < w.client.backEdges + 1 then seedCycle task u reg
      else finishOp task u reg) Q w) : yields (leaveOp task u reg) Q w := by
  refine wp_bind.mpr (wp_imp (yields_of_ends (outsideWindow_ends hp u)) ?_)
  rintro out w' ⟨rfl, hout⟩
  have inside : out = false := by simpa using mt hout.mp hin
  subst inside
  exact hq

end AddressFormulas.Stride
