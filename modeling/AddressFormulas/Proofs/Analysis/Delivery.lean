import AddressFormulas.Proofs.Analysis.Strictness
import AddressFormulas.Proofs.Base.Recall

namespace AddressFormulas

open WalkM

namespace Pending

variable {α : Type} {p : Pending α} {r reg : Register}

def Leads (p : Pending α) (r : Register) : Prop :=
  ∃ a rest, p.newestFirst = (.register r, a) :: rest

/-- The newest value is one of a register that overlaps `reg`, and a claim of `reg` takes it. -/
def Offers (p : Pending α) (reg : Register) : Prop :=
  ∃ r a rest, p.newestFirst = (.register r, a) :: rest ∧ r.overlaps reg = true ∧
    p.claim? reg = some ⟨.register r, a, ⟨rest⟩⟩

theorem leads_push (hr : r.isAbsent = false) (p : Pending α) (a : α) : (p.push r a).Leads r :=
  ⟨a, p.newestFirst, by simp [push, hr]⟩

theorem Leads.offers (h : p.Leads r) (hover : r.overlaps reg = true) : p.Offers reg := by
  obtain ⟨a, rest, hp⟩ := h
  refine ⟨r, a, rest, hp, hover, ?_⟩
  unfold claim? takeFirst?
  simp [hp, Slot.overlaps, hover]

end Pending

theorem WalkM.wp_report_any {σ : Type} {Q : Unit → Walk σ → Prop} {strict : Bool} {f : Failure}
    {w : Walk σ} (hq : Q () { w with journal := .failure f :: w.journal }) :
    wp (report strict f : WalkM σ Unit) Q (fun _ _ => True) w := by
  refine wp_bind.mpr ((wp_tell _).mpr ?_)
  split
  · trivial
  · exact hq

namespace Slicer

variable {σ α : Type}

/-- Wherever a walk can end, the slicer puts a value for the register of the walk. -/
structure HandsOver (s : Slicer σ) (values : σ → Pending α) : Prop where
  leaveOp : ∀ u reg w, reg.isAbsent = false →
    wp (s.leaveOp u reg) (fun _ w' => (values w'.client).Leads reg) (fun _ _ => True) w
  enterBlock : ∀ b reg w, reg.isAbsent = false → wp (s.enterBlock b reg)
    (fun enter w' => enter = false → (values w'.client).Leads reg) (fun _ _ => True) w
  leaveBlock : ∀ b reg w, reg.isAbsent = false →
    wp (s.leaveBlock b reg) (fun _ w' => (values w'.client).Leads reg) (fun _ _ => True) w
  leaveEdge : ∀ e reg w, wp (s.leaveEdge e reg)
    (fun _ w' => values w'.client = values w.client) (fun _ _ => True) w
  tryOthers : ∀ e reg, s.tryOthers e reg = pure false

namespace HandsOver

variable {s : Slicer σ} {g : Graph} {values : σ → Pending α} (hs : s.HandsOver values)
  {reg : Register} (hreg : reg.overlaps reg = true)

include hs hreg

section Walks

variable {walk : WalkFor σ} {follow : FollowFor σ} (hw : ∀ p bounds w,
  wp (walk p reg bounds) (fun _ w' => (values w'.client).Offers reg) (fun _ _ => True) w)

include hw

theorem walkEdges (b : Nat) (edges : List Nat) (w : Walk σ) :
    wp (s.walkEdges g walk b reg edges) (fun _ w' => (values w'.client).Offers reg)
      (fun _ _ => True) w := by
  have present := Register.isAbsent_of_overlaps hreg
  induction edges generalizing w with
  | nil => exact wp_imp (hs.leaveBlock b reg w present) fun _ _ leads => leads.offers hreg
  | cons e rest ih =>
    rw [walkEdges_cons]
    refine wp_bind_any fun enter w₁ _ => wp_ite (fun _ => ?_) (fun _ => ih w₁)
    have across : wp (walkAcross g walk e reg) (fun _ w' => (values w'.client).Offers reg)
        (fun _ _ => True) w₁ :=
      wp_bind_any fun edge w₂ _ => wp_bind_any fun source w₃ _ => hw _ _ w₃
    refine wp_bind.mpr (wp_imp across fun _ w₂ offers => ?_)
    refine wp_bind.mpr (wp_imp (hs.leaveEdge e reg w₂) fun _ w₃ kept => ?_)
    rw [hs.tryOthers]
    change (values w₃.client).Offers reg
    rwa [kept]

theorem walkNext (b : Nat) (w : Walk σ) :
    wp (s.walkNext g walk b reg) (fun _ w' => (values w'.client).Offers reg) (fun _ _ => True) w := by
  have present := Register.isAbsent_of_overlaps hreg
  refine wp_bind.mpr (wp_imp (hs.enterBlock b reg w present) fun enter w₁ leads => ?_)
  refine wp_ite (fun _ => ?_) (fun stays => ?_)
  · exact wp_bind_any fun block w₂ _ => hs.walkEdges hreg hw b _ w₂
  · exact (leads (by simpa using stays)).offers hreg

theorem walkStep (p : Position) (bounds : Bounds) (w : Walk σ) :
    wp (s.walkStep g walk follow p reg bounds) (fun _ w' => (values w'.client).Offers reg)
      (fun _ _ => True) w := by
  refine wp_bind_any fun _ w₁ _ => wp_bind_any fun block w₂ _ => ?_
  split
  · exact hs.walkNext hreg hw p.block w₂
  · next i op written found =>
    have hover := (MicroOp.defines?_eq_some (lastBefore?_eq_some found).2.2.1).2
    have leave : ∀ w, wp (s.leaveOp ⟨p.block, i, op⟩ written)
        (fun _ w' => (values w'.client).Offers reg) (fun _ _ => True) w := fun w =>
      wp_imp (hs.leaveOp _ written w (Register.isAbsent_of_overlaps hover))
        fun _ _ leads => leads.offers hover
    refine wp_bind_any fun _ w₃ _ => wp_bind_any fun enter w₄ _ => ?_
    split
    · exact wp_bind_any fun _ w₅ _ => leave w₅
    · exact leave w₄

end Walks

theorem walk (g : Graph) (n : Nat) (p : Position) (bounds : Bounds) (w : Walk σ) :
    wp (s.walk g n p reg bounds) (fun _ w' => (values w'.client).Offers reg) (fun _ _ => True) w := by
  induction n generalizing p bounds w with
  | zero => trivial
  | succ n ih => exact hs.walkStep hreg ih p bounds w

theorem slice (g : Graph) (depth : Nat) (p : Position) (bounds : Bounds) (w : Walk σ) :
    wp (s.slice g depth p reg bounds) (fun _ w' => (values w'.client).Offers reg)
      (fun _ _ => True) w :=
  wp_bind_any fun _ w₁ _ => hs.walk hreg g depth p bounds w₁

end HandsOver

end Slicer

namespace Base

variable {settings : Settings} {g : Graph} {reg : Register}

theorem push_leads (hr : reg.isAbsent = false) (f : Formula) (w : Walk BaseState) :
    wp (push reg f) (fun _ w' => w'.client.values.Leads reg) (fun _ _ => True) w :=
  Pending.leads_push hr w.client.values f

theorem leaveOp_leads (u : Placed) (hr : reg.isAbsent = false) (w : Walk BaseState) :
    wp (leaveOp settings g u reg) (fun _ w' => w'.client.values.Leads reg) (fun _ _ => True) w := by
  by_cases below : u.op.pc < w.bounds.stop
  · unfold leaveOp
    simp only [wp_bind, wp_get]
    rw [if_pos below]
    exact push_leads hr _ w
  have above := Nat.le_of_not_lt below
  cases known : w.client.definitions.get? u.op.site with
  | some f => exact (wp_congr (leaveOp_run_known above known)).mpr (push_leads hr f w)
  | none =>
    apply wp_leaveOp_new above known
    apply wp_mono (wp_run _ w)
    · intro _ w₁ _ _
      exact Pending.leads_push hr w₁.client.values _
    · exact fun _ _ _ => trivial

theorem enterBlock_leads (b : Nat) (hr : reg.isAbsent = false) (w : Walk BaseState) :
    wp (enterBlock g b reg) (fun enter w' => enter = false → w'.client.values.Leads reg)
      (fun _ _ => True) w := by
  refine wp_bind_any fun block w₁ _ => wp_bind.mpr ?_
  simp only [wp_get]
  have pushes : ∀ f, wp (do
      push reg f
      return false : M Bool) (fun enter w' => enter = false → w'.client.values.Leads reg)
      (fun _ _ => True) w₁ := fun f =>
    wp_bind.mpr (wp_imp (push_leads hr f w₁) fun _ _ leads _ => leads)
  split
  · exact pushes _
  · split
    · exact pushes _
    · rintro ⟨⟩

theorem slicer_handsOver (settings : Settings) (g : Graph) :
    (slicer settings g).HandsOver BaseState.values where
  leaveOp u _ w hr := leaveOp_leads u hr w
  enterBlock b _ w hr := enterBlock_leads b hr w
  leaveBlock _ _ _ hr := wp_bind_any fun _ w₁ _ => push_leads hr _ w₁
  leaveEdge _ _ _ := rfl
  tryOthers _ _ := rfl

end Base

namespace Stride

variable {task : Task} {reg : Register}

theorem push_leads (hr : reg.isAbsent = false) (v : ValueSource) (w : Walk StrideState) :
    wp (push reg v) (fun _ w' => w'.client.values.Leads reg) (fun _ _ => True) w :=
  Pending.leads_push hr w.client.values v

theorem seedCycle_leads (u : Placed) (hr : reg.isAbsent = false) (w : Walk StrideState) :
    wp (seedCycle task u reg) (fun _ w' => w'.client.values.Leads reg) (fun _ _ => True) w := by
  refine wp_bind_any fun st w₁ _ => wp_bind_any fun _ w₂ _ => wp_bind_any fun _ w₃ _ => ?_
  refine wp_bind.mpr (wp_imp (push_leads hr _ w₃) fun _ w₄ leads => wp_bind.mpr ?_)
  refine (wp_modifyClient _).mpr (wp_ite (fun _ => ?_) fun _ => leads)
  exact wp_report_any leads

theorem settleDefinition_leads (u : Placed) (hr : reg.isAbsent = false) (closing : Bool)
    (value : StrideValue) (w : Walk StrideState) :
    wp (settleDefinition task u reg closing value) (fun _ w' => w'.client.values.Leads reg)
      (fun _ _ => True) w :=
  (settleDefinition_updates u reg closing value).wp fun _ _ => Pending.leads_push hr _ _

theorem finishOp_leads (u : Placed) (hr : reg.isAbsent = false) (w : Walk StrideState) :
    wp (finishOp task u reg) (fun _ w' => w'.client.values.Leads reg) (fun _ _ => True) w := by
  refine wp_bind_any fun st w₁ _ => ?_
  dsimp only
  split
  · exact settleDefinition_leads u hr _ _ w₁
  · split
    · exact wp_bind_any fun _ w₂ _ => push_leads hr _ w₂
    · have computed : ∀ closing w, wp (do
          let value ← definitionValue task u.op reg
          settleDefinition task u reg closing value) (fun _ w' => w'.client.values.Leads reg)
          (fun _ _ => True) w := fun closing w =>
        wp_bind_any fun value w₂ _ => settleDefinition_leads u hr closing value w₂
      split
      · exact wp_bind_any fun _ w₂ _ => computed _ w₂
      · exact computed _ w₁

theorem leaveOp_leads (u : Placed) (hr : reg.isAbsent = false) (w : Walk StrideState) :
    wp (leaveOp task u reg) (fun _ w' => w'.client.values.Leads reg) (fun _ _ => True) w := by
  refine wp_bind_any fun outside w₁ _ => ?_
  refine wp_ite (fun _ => ?_) fun _ => ?_
  · refine wp_bind_any fun _ w₂ _ => wp_bind.mpr (wp_imp (push_leads hr _ w₂) fun _ w₃ leads => ?_)
    exact wp_report_any leads
  · exact wp_bind_any fun st w₂ _ =>
      wp_ite (fun _ => seedCycle_leads u hr w₂) fun _ => finishOp_leads u hr w₂

theorem enterBlock_leads (b : Nat) (hr : reg.isAbsent = false) (w : Walk StrideState) :
    wp (enterBlock task b reg) (fun enter w' => enter = false → w'.client.values.Leads reg)
      (fun _ _ => True) w := by
  refine wp_bind_any fun block w₁ _ => wp_bind.mpr ?_
  simp only [wp_get]
  split
  · exact wp_bind.mpr (wp_imp (push_leads hr _ w₁) fun _ _ leads _ => leads)
  · rintro ⟨⟩

theorem slicer_handsOver (task : Task) : (slicer task).HandsOver StrideState.values where
  leaveOp u _ w hr := leaveOp_leads u hr w
  enterBlock b _ w hr := enterBlock_leads b hr w
  leaveBlock _ _ w hr := push_leads hr _ w
  leaveEdge _ _ _ := wp_ite (fun _ => rfl) fun _ => rfl
  tryOthers _ _ := rfl

end Stride

/-- A slice of a register ends with a value for it on top, which the next claim of the register
takes. -/
theorem slice_hands_over {reg : Register} (hr : reg.isAbsent = false) (hb : reg.lsb ≤ reg.msb) :
    (∀ (settings : Settings) (g : Graph) (p : Position) (bounds : Bounds) (w w' : Walk BaseState),
      (Base.slice settings g p reg bounds).run w = .ok () w' → w'.client.values.Offers reg) ∧
    ∀ (task : Stride.Task) (p : Position) (bounds : Bounds) (w w' : Walk StrideState),
      (Stride.slice task p reg bounds).run w = .ok () w' → w'.client.values.Offers reg := by
  have hreg := Register.overlaps_self hr hb
  constructor
  · intro settings g p bounds w w' run
    have ends := (Base.slicer_handsOver settings g).slice hreg g settings.depth p bounds w
    exact wp_ok (Q := fun _ w' => w'.client.values.Offers reg) ends run
  · intro task p bounds w w' run
    have ends := (Stride.slicer_handsOver task).slice hreg task.graph task.settings.depth p bounds w
    exact wp_ok (Q := fun _ w' => w'.client.values.Offers reg) ends run

/-- The load behind the spill writes all of the register of which the low half is sliced; its value
goes around the loop. -/
theorem slice_hands_over_spillLoop :
    let eax : Register := ⟨.listed 1, 0, 31⟩
    let around : CyclicPath := ⟨1, [(1, 0), (0, 1)], [(1, 2), (0, 1)]⟩
    eax.isAbsent = false ∧ eax.lsb ≤ eax.msb ∧
      (∃ w', (Base.slice {} Stride.spillLoop ⟨1, 1⟩ eax ⟨0x24, 0⟩).run
          { client := { bases := Stride.spillBases } } = .ok () w' ∧ w'.client.values.Offers eax) ∧
      ∃ w', (Stride.slice ⟨{}, Stride.spillLoop, Stride.spillBases, 1⟩ ⟨1, 1⟩ eax ⟨0x24, 0⟩).run
          { client := { path := some around } } = .ok () w' ∧ w'.client.values.Offers eax := by
  intro eax around
  have hr : eax.isAbsent = false := by decide
  have hb : eax.lsb ≤ eax.msb := by decide
  have both := slice_hands_over hr hb
  have base : answer? (Base.slice {} Stride.spillLoop ⟨1, 1⟩ eax ⟨0x24, 0⟩)
      { client := { bases := Stride.spillBases } } = some () := by decide +kernel
  have stride : answer?
      (Stride.slice ⟨{}, Stride.spillLoop, Stride.spillBases, 1⟩ ⟨1, 1⟩ eax ⟨0x24, 0⟩)
      { client := { path := some around } } = some () := by decide +kernel
  obtain ⟨w, hw⟩ := run_of_answer? base
  obtain ⟨w', hw'⟩ := run_of_answer? stride
  exact ⟨hr, hb, ⟨w, hw, both.1 _ _ _ _ _ w hw⟩, w', hw', both.2 _ _ _ _ w' hw'⟩

end AddressFormulas
