import AddressFormulas.Base.Slicer

/-!
Relations between two runs of base slicing, under two settings, that hold from one action to the
next. Such a relation holds of the way in which the value of a definition is computed, and of the way
into a definition and out of it, as soon as it holds of the single actions: that a program keeps
something of the state is one such relation, and that two programs end alike is another.
-/

namespace AddressFormulas.Base

structure ValueCongruence (settings settings' : Settings)
    (R : ∀ α : Type, M α → M α → Prop) : Prop where
  ok : ∀ {α : Type} (a : α), R α (pure a) (pure a)
  bind : ∀ {α β : Type} {m m' : M α} {f f' : α → M β}, R α m m' → (∀ a, R β (f a) (f' a)) →
    R β (m >>= f) (m' >>= f')
  tell : ∀ e, R Unit (WalkM.tell e) (WalkM.tell e)
  report : ∀ {f : Failure}, f.isCoverageGap = true →
    R Unit (WalkM.report settings.strict f) (WalkM.report settings'.strict f)
  claim : ∀ reg, R _ (claim reg) (claim reg)
  claimSite : ∀ site, R _ (claimSite site) (claimSite site)

variable {settings settings' : Settings} {R : ∀ α : Type, M α → M α → Prop}

namespace ValueCongruence

variable (c : ValueCongruence settings settings' R) (u : MicroOp) (reg : Register)

include c

theorem tellAll (es : List Event) : R Unit (WalkM.tellAll es) (WalkM.tellAll es) := by
  induction es with
  | nil => exact c.ok ()
  | cons e es ih => exact c.bind (c.tell e) fun _ => ih

theorem classify : R Effect (WalkM.classify u) (WalkM.classify u) :=
  c.bind (c.tellAll _) fun _ => c.ok _

theorem operandValue (i : Nat) : R _ (operandValue u i) (operandValue u i) := by
  unfold Base.operandValue
  split
  · exact c.ok _
  · split
    · exact c.claim _
    · exact c.ok _
  · exact c.ok _

theorem leaTerms (terms : List (TermKey × Term)) (sum : Formula) :
    R _ (leaTerms terms sum) (leaTerms terms sum) := by
  induction terms generalizing sum with
  | nil => exact c.ok _
  | cons e rest ih =>
    unfold Base.leaTerms
    extract_lets added
    have added_alike : ∀ f?, R _ (added f?) (added f?) := by
      intro f?
      unfold added
      split
      · exact ih _
      · exact ih _
    split
    · exact c.bind (c.claim _) added_alike
    · exact c.bind (c.ok _) added_alike

theorem combine (unknown f₁ f₂ : Formula) : R _ (combine u unknown f₁ f₂) (combine u unknown f₁ f₂) := by
  unfold Base.combine
  split
  · exact c.ok _
  · split
    · exact c.bind (c.tell _) fun _ => c.ok _
    · exact c.ok _
  · exact c.ok _
  · split
    · exact c.ok _
    · exact c.ok _
  · split
    · exact c.bind (c.tell _) fun _ => c.ok _
    · exact c.ok _
  · exact c.ok _

theorem giveUp {failure : Failure} (hf : failure.isCoverageGap = true) (f : Formula) :
    R _ (giveUp settings failure f) (giveUp settings' failure f) :=
  c.bind (c.report hf) fun _ => c.ok _

theorem easyValue : R _ (easyValue settings u reg) (easyValue settings' u reg) := by
  unfold Base.easyValue
  dsimp only
  split
  · exact c.giveUp rfl _
  · split
    · exact c.ok _
    · exact c.giveUp rfl _

theorem threeSourceValue (unknown f₁ : Formula) :
    R _ (threeSourceValue settings u unknown f₁) (threeSourceValue settings' u unknown f₁) := by
  refine c.bind (c.operandValue u 1) fun filling? => ?_
  refine c.bind (c.operandValue u 2) fun amount? => ?_
  split
  · split
    · exact c.ok _
    · split
      · exact c.giveUp rfl _
      · exact c.ok _
  · exact c.ok _

theorem twoSourceValue (unknown f₁ : Formula) :
    R _ (twoSourceValue settings u unknown f₁) (twoSourceValue settings' u unknown f₁) := by
  unfold Base.twoSourceValue
  split
  · refine c.bind (c.operandValue u 1) fun f₂? => ?_
    split
    · exact c.combine u unknown f₁ _
    · exact c.giveUp rfl _
  · split
    · exact c.combine u unknown f₁ _
    · exact c.giveUp rfl _

theorem normalValue : R _ (normalValue settings u reg) (normalValue settings' u reg) := by
  unfold Base.normalValue
  dsimp only
  split
  · exact c.giveUp rfl _
  · split
    · split
      · split
        · exact c.leaTerms _ _
        · exact c.giveUp rfl _
      · exact c.giveUp rfl _
    · split
      · exact c.ok _
      · refine c.bind (c.operandValue u 0) fun f₁? => ?_
        split
        · exact c.giveUp rfl _
        · split
          · exact c.threeSourceValue u _ _
          · exact c.twoSourceValue u _ _

omit u in
theorem definitionValue (g g' : Graph) {u : Placed} (hu : R _ (callValue g u) (callValue g' u)) :
    R _ (definitionValue settings g u reg) (definitionValue settings' g' u reg) := by
  refine c.bind (c.classify u.op) fun effect => ?_
  split
  · exact c.easyValue u.op reg
  · exact c.normalValue u.op reg
  · refine c.bind (c.claimSite _) fun f? => ?_
    split
    · exact c.ok _
    · exact c.giveUp rfl _
  · split
    · exact c.ok _
    · exact hu

omit u in
theorem addressTerms (g g' : Graph) {u : Placed}
    (hr : ∀ reg, R _ (addressRegister settings g u reg) (addressRegister settings' g' u reg))
    (terms : List (TermKey × Term)) (sum : Formula) :
    R _ (addressTerms settings g u terms sum) (addressTerms settings' g' u terms sum) := by
  induction terms generalizing sum with
  | nil => exact c.ok _
  | cons e rest ih =>
    unfold Base.addressTerms
    dsimp only
    split
    · refine c.bind (hr _) fun f? => ?_
      split
      · exact ih _
      · split
        · exact c.bind (c.tell _) fun _ => ih _
        · exact ih _
    · exact ih _

end ValueCongruence

/-- A relation that also holds of the actions on the way into a definition and out of it. The two
settings may differ in strictness and in the depth of walks. -/
structure Congruence (settings settings' : Settings) (R : ∀ α : Type, M α → M α → Prop) : Prop
    extends ValueCongruence settings settings' R where
  followSpills : settings'.followSpills = settings.followSpills
  showValues : settings'.showValues = settings.showValues
  read : R _ get get
  setStart : ∀ start, R Unit (modify fun w => { w with bounds.start := start })
    (modify fun w => { w with bounds.start := start })
  push : ∀ reg f, R _ (push reg f) (push reg f)
  pushSite : ∀ site f, R _ (pushSite site f) (pushSite site f)
  define : ∀ (site : Site) (f : Formula),
    R _ (WalkM.modifyClient fun st => { st with definitions := st.definitions.insert site f })
      (WalkM.modifyClient fun st => { st with definitions := st.definitions.insert site f })

namespace Congruence

variable (c : Congruence settings settings' R)

include c

theorem client : R _ WalkM.client WalkM.client := c.bind c.read fun _ => c.ok _

theorem leaveOp (g g' : Graph) {u : Placed} (hu : R _ (callValue g u) (callValue g' u))
    (reg : Register) : R _ (leaveOp settings g u reg) (leaveOp settings' g' u reg) := by
  refine c.bind c.read fun w => ?_
  split
  · exact c.push _ _
  · split
    · exact c.push _ _
    · refine c.bind (c.definitionValue reg g g' hu) fun computed => ?_
      rw [c.showValues]
      extract_lets told
      have told_alike : ∀ f, R _ (told f) (told f) := by
        intro f
        refine c.bind (c.tell _) fun _ => c.bind (c.define _ _) fun _ => ?_
        refine c.bind (c.push _ _) fun _ => ?_
        split
        · exact c.bind c.client fun _ => c.tellAll _
        · exact c.ok _
      split
      · exact c.bind (c.tell _) fun _ => c.bind (c.ok _) told_alike
      · exact c.bind (c.ok _) told_alike

theorem resolveLoad (follow follow' : Slicer.FollowFor BaseState) {u : Placed}
    (hf : ∀ address, R _ (follow ⟨u.block, u.index⟩ address) (follow' ⟨u.block, u.index⟩ address))
    (reg : Register) : R _ (resolveLoad settings follow u reg) (resolveLoad settings' follow' u reg) := by
  unfold Base.resolveLoad
  rw [c.followSpills]
  refine c.bind c.client fun st => ?_
  split
  · exact c.bind (c.tell _) fun _ => c.pushSite _ _
  · extract_lets resolved
    have resolved_alike : ∀ saved?, R _ (resolved saved?) (resolved saved?) := by
      intro saved?
      unfold resolved
      split
      · refine c.bind (c.claim _) fun f? => ?_
        split
        · refine c.bind c.read fun w => ?_
          split
          · exact c.pushSite _ _
          · exact c.bind (c.tell _) fun _ => c.pushSite _ _
        · exact c.pushSite _ _
      · split
        · exact c.pushSite _ _
        · exact c.pushSite _ _
    split
    · exact c.bind (c.setStart _) fun _ => c.bind (hf _) resolved_alike
    · exact c.bind (c.ok _) resolved_alike

theorem enterOp (follow follow' : Slicer.FollowFor BaseState) {u : Placed}
    (hf : ∀ address, R _ (follow ⟨u.block, u.index⟩ address) (follow' ⟨u.block, u.index⟩ address))
    (reg : Register) : R _ (enterOp settings follow u reg) (enterOp settings' follow' u reg) := by
  refine c.bind c.read fun w => ?_
  split
  · exact c.ok _
  · refine c.bind (c.classify u.op) fun effect => ?_
    split
    · exact c.ok _
    · exact c.ok _
    · split
      · exact c.bind (c.tell _) fun _ => c.ok _
      · exact c.ok _
    · exact c.bind (c.resolveLoad follow follow' hf reg) fun _ => c.ok _

end Congruence

end AddressFormulas.Base
