import AddressFormulas.Proofs.Stride.Definition
import AddressFormulas.Proofs.Stride.Window

namespace AddressFormulas.Stride

open WalkM Skeleton

variable {task : Task} {p : CyclicPath} {w : Walk StrideState}

/-- An action that always comes to an end and does not change the course of the slice. -/
abbrev M.Neutral {α : Type} (m : M α) : Prop := WalkM.StopsOnly (fun _ => False) skeleton m

abbrev ends {α : Type} (m : M α) (Q : α → Walk StrideState → Prop) (w : Walk StrideState) : Prop :=
  wp m Q (fun _ _ => False) w

theorem ends_bind {α β : Type} {m : M α} {f : α → M β} {Q : β → Walk StrideState → Prop}
    (hm : m.Neutral) (hf : ∀ a w', skeleton w' = skeleton w → ends (f a) Q w') :
    ends (m >>= f) Q w :=
  wp_bind.mpr (wp_imp (hm w) hf)

theorem ends_of_neutral {α : Type} {m : M α} {Q : α → Walk StrideState → Prop} (hm : m.Neutral)
    (hq : ∀ a w', skeleton w' = skeleton w → Q a w') : ends m Q w :=
  wp_imp (hm w) hq

theorem ends_client {β : Type} {f : StrideState → M β} {Q : β → Walk StrideState → Prop} :
    ends (WalkM.client >>= f) Q w ↔ ends (f w.client) Q w := Iff.rfl

theorem ends_modifyClient {β : Type} {f : StrideState → StrideState} {k : Unit → M β}
    {Q : β → Walk StrideState → Prop} : ends (modifyClient f >>= k) Q w ↔
      ends (k ()) Q { w with client := f w.client } := Iff.rfl

theorem ends_of_skeleton {β : Type} {f : StrideState → StrideState} {k : Unit → M β}
    {Q : β → Walk StrideState → Prop} (sk : Skeleton)
    (hf : skeleton { w with client := f w.client } = sk)
    (hk : ∀ w', skeleton w' = sk → ends (k ()) Q w') : ends (modifyClient f >>= k) Q w :=
  hk _ hf

theorem ends_modifyProgress {β : Type} {site : Site} {f : Progress → Progress} {k : Unit → M β}
    {Q : β → Walk StrideState → Prop} : ends (modifyProgress site f >>= k) Q w ↔
      ends (k ()) Q { w with client := w.client.modifyProgress site f } := Iff.rfl

theorem modifyProgress_neutral (site : Site) (f : Progress → Progress)
    (hf : ∀ pr, (f pr).loopCount = pr.loopCount ∧ (f pr).visit = pr.visit) : (modifyProgress site f).Neutral :=
  .modifyClient _ fun _ => skeleton_modifyProgress_eq hf

theorem tell_neutral {e : Event} (he : e.isWindowFailure = false) : M.Neutral (tell e) :=
  .tell e (unconcerned_skeleton.unheard e he)

theorem push_neutral (reg : Register) (v : ValueSource) : (push reg v).Neutral :=
  unconcerned_skeleton.push reg v

theorem claim_neutral (reg : Register) : (claim reg).Neutral := unconcerned_skeleton.claim reg

theorem fixedValue_neutral (reg : Register) (u : MicroOp) (v : Int) :
    (fixedValue reg u v).Neutral :=
  .ite (.bind (push_neutral _ _) fun _ => modifyProgress_neutral _ _ fun _ => ⟨rfl, rfl⟩) (.ok _)

theorem pathRank_eq (hp : (skeleton w).path = some p) (b : Nat) : w.client.pathRank b = p.rank b := by
  have : w.client.path = some p := hp
  simp [StrideState.pathRank, this]

theorem outsideWindow_iff (hp : (skeleton w).path = some p) (b : Nat) (early : Bool) :
    w.client.outsideWindow (w.client.pathRank b) early = true ↔
      (skeleton w).outside (p.rank b) (early = true) := by
  simp [StrideState.outsideWindow, outside, skeleton, pathRank_eq hp]

theorem start_ends (hp : (skeleton w).path = some p) (pos : Position) {block : Block}
    (hb : task.graph.block? pos.block = some block) (reg : Register) :
    ends (start task pos reg) (fun _ w' => skeleton w' = { skeleton w with
      startBackEdges := (skeleton w).backEdges, startRank := p.rank pos.block }) w := by
  unfold start
  simp only [ends, wp_bind, hb, wp_require_some, wp_modifyClient]
  have began : skeleton { w with client := { w.client with
      startBackEdges := w.client.backEdges, startRank := w.client.pathRank pos.block } } =
      { skeleton w with startBackEdges := (skeleton w).backEdges, startRank := p.rank pos.block } := by
    rw [← pathRank_eq hp]
    rfl
  split
  · exact ends_of_neutral (modifyProgress_neutral _ _ fun _ => ⟨rfl, rfl⟩) fun _ _ h => h.trans began
  · exact began

theorem enterBlock_ends (hp : (skeleton w).path = some p) {b : Nat} {block : Block}
    (hb : task.graph.block? b = some block) (reg : Register) :
    ends (enterBlock task b reg) (fun enter w' => skeleton w' = skeleton w ∧
      (enter = true → ¬(skeleton w).outside (p.rank b) (block.start ≤ (skeleton w).boundStart))) w := by
  have iff := outsideWindow_iff hp b (decide (block.start ≤ w.bounds.start))
  unfold enterBlock
  simp only [ends, wp_bind, hb, wp_require_some, wp_get]
  split
  · exact ends_bind (push_neutral reg .outside) fun _ w' h => ⟨h, by simp⟩
  · next hout =>
    refine ⟨rfl, fun _ ho => hout (iff.mpr ?_)⟩
    simpa [skeleton] using ho

theorem outsideWindow_ends (hp : (skeleton w).path = some p) (u : Placed) :
    ends (outsideWindow u) (fun out w' => w' = w ∧ (out = true ↔
      (skeleton w).outside (p.rank u.block) (u.op.pc < (skeleton w).boundStart))) w := by
  have iff := outsideWindow_iff hp u.block (decide (u.op.pc < w.bounds.start))
  exact ⟨rfl, by simpa [skeleton] using iff⟩

theorem seedCycle_ends (hs : task.settings.strict = false) (u : Placed) (reg : Register) :
    ends (seedCycle task u reg) (fun _ w' => skeleton w' = (skeleton w).seed u.op.site) w := by
  refine ends_client.mpr ?_
  refine ends_bind (modifyProgress_neutral _ _ fun _ => ⟨rfl, rfl⟩) fun _ w₁ h₁ => ?_
  refine ends_bind (tell_neutral rfl) fun _ w₂ h₂ => ?_
  refine ends_bind (push_neutral _ _) fun _ w₃ h₃ => ?_
  have same : skeleton w₃ = skeleton w := h₃.trans (h₂.trans h₁)
  have seeded : { skeleton w₃ with
      cycles := StrideState.insertCycle ⟨(skeleton w).visit u.op.site, u.op.site⟩
        (skeleton w₃).cycles } = (skeleton w).seed u.op.site := by
    rw [same]
    rfl
  simp only [ends, wp_bind, wp_modifyClient]
  split
  · have neutral : M.Neutral (report task.settings.strict
        (.cycleWithoutTrackedRegister u.op.site)) :=
      .report hs rfl (unconcerned_skeleton.unheard _ rfl)
    exact ends_of_neutral neutral fun _ w₄ h₄ => h₄.trans seeded
  · exact seeded

theorem skeleton_leave {w' : Walk StrideState} (h : skeleton w' = skeleton w) (site : Site)
    {f : Progress → Progress} (hf : ∀ pr, (f pr).loopCount = 0 ∧ (f pr).visit = pr.visit) :
    skeleton { w' with client := { w'.client with
        cycles := if w.client.atCycleStart site then w'.client.cycles.dropWhile (·.site = site)
          else w'.client.cycles }.modifyProgress site f } = (skeleton w).leave site := by
  have visit : (f (w'.client.progressAt site)).visit = (skeleton w').visit site := (hf _).2
  let w'' : Walk StrideState := { w' with client := { w'.client with
        cycles := if w.client.atCycleStart site then w'.client.cycles.dropWhile (·.site = site)
          else w'.client.cycles } }
  have base : skeleton w'' = { skeleton w with
      cycles := if w.client.atCycleStart site then (skeleton w).cycles.dropWhile (·.site = site)
        else (skeleton w).cycles } := by
    rw [← h]
    rfl
  refine (skeleton_modifyProgress w'' site f).trans ?_
  have zero : (f (w''.client.progressAt site)).loopCount = 0 := (hf _).1
  have visit : (f (w''.client.progressAt site)).visit = (skeleton w'').visit site := (hf _).2
  rw [zero, visit, Function.update_eq_self, base]
  rfl

theorem skeleton_told {told : List Event} (plain : ∀ e ∈ told, ∀ failure, e ≠ .failure failure)
    (w : Walk StrideState) : skeleton { w with journal := told ++ w.journal } = skeleton w := by
  induction told with
  | nil => rfl
  | cons e told ih =>
    rw [List.forall_mem_cons] at plain
    have harmless : e.isWindowFailure = false := by
      cases e with
      | failure f => exact absurd rfl (plain.1 f)
      | _ => rfl
    exact (unconcerned_skeleton.unheard e harmless _).trans (ih plain.2)

theorem noteLoad_neutral (u : Placed) (reg : Register) (v? : Option StrideValue) :
    (noteLoad task u reg v?).Neutral := by
  intro w
  refine (noteLoad_updates task u reg v?).wp fun told plain => ?_
  refine (skeleton_told plain _).trans (skeleton_modifyProgress_eq fun pr => ?_)
  unfold loadedAs
  split <;> exact ⟨rfl, rfl⟩

theorem settleDefinition_ends {w₀ : Walk StrideState} (h₀ : skeleton w = skeleton w₀) (u : Placed)
    (reg : Register) (value : StrideValue) :
    ends (settleDefinition task u reg (w₀.client.atCycleStart u.op.site) value)
      (fun _ w' => skeleton w' = (skeleton w₀).leave u.op.site) w := by
  refine (settleDefinition_updates u reg _ value).wp fun told plain => ?_
  refine (skeleton_told plain { w with client := settled u.op reg _ value w.client }).trans ?_
  exact skeleton_leave h₀ u.op.site fun _ => ⟨rfl, rfl⟩

theorem finishOp_ends (hs : task.settings.strict = false) (u : Placed) (reg : Register) :
    ends (finishOp task u reg) (fun _ w' => skeleton w' = (skeleton w).leave u.op.site) w := by
  refine ends_client.mpr ?_
  dsimp only
  split
  · exact settleDefinition_ends rfl u reg _
  · split
    · next hc =>
      have open' : w.client.atCycleStart u.op.site = false := by
        simp only [Bool.and_eq_true, Bool.not_eq_true'] at hc
        exact hc.1.1
      refine ends_modifyProgress.mpr (ends_of_neutral (push_neutral _ _) fun _ w' h => h.trans ?_)
      have left := skeleton_leave (w := w) rfl u.op.site
        (f := fun pr => { pr with loopCount := 0 }) fun _ => ⟨rfl, rfl⟩
      simpa [open'] using left
    · have settle : ∀ w', skeleton w' = skeleton w → ends (do
          let value ← definitionValue task u.op reg
          settleDefinition task u reg (w.client.atCycleStart u.op.site) value)
          (fun _ w'' => skeleton w'' = (skeleton w).leave u.op.site) w' := by
        intro w' h
        exact ends_bind (unconcerned_skeleton.definitionValue (tolerates_of_lax hs) u.op reg) fun value w'' h' =>
          settleDefinition_ends (h'.trans h) u reg value
      split
      · exact ends_bind (modifyProgress_neutral _ _ fun _ => ⟨rfl, rfl⟩) fun _ w' h => settle w' h
      · exact settle w rfl

theorem leaveOp_ends (hs : task.settings.strict = false) (hp : (skeleton w).path = some p)
    (u : Placed) (reg : Register)
    (hin : ¬(skeleton w).outside (p.rank u.block) (u.op.pc < (skeleton w).boundStart)) :
    ends (leaveOp task u reg) (fun _ w' => skeleton w' =
      if 0 < (skeleton w).loopCount u.op.site ∧
        (skeleton w).loopCount u.op.site < (skeleton w).backEdges + 1 then
        (skeleton w).seed u.op.site
      else (skeleton w).leave u.op.site) w := by
  refine wp_bind.mpr (wp_imp (outsideWindow_ends hp u) ?_)
  rintro out w' ⟨rfl, hout⟩
  have inside : out = false := by simpa using mt hout.mp hin
  subst inside
  simp only [Bool.false_eq_true, if_false]
  refine ends_client.mpr ?_
  split
  · next h =>
    exact wp_imp (seedCycle_ends hs u reg) fun _ w'' h' => h'.trans (if_pos h).symm
  · next h =>
    exact wp_imp (finishOp_ends hs u reg) fun _ w'' h' => h'.trans (if_neg h).symm

end AddressFormulas.Stride
