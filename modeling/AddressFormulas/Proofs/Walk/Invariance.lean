import AddressFormulas.Proofs.Walk.Safety

namespace AddressFormulas

variable {σ α β : Type}

namespace WalkM

/-- Whatever the state, `m` ends early only for a reason in `E`, and otherwise in a state that `R`
relates to the one before. -/
def Ensures (E : Stop → Prop) (R : Walk σ → Walk σ → Prop) (m : WalkM σ α) : Prop :=
  ∀ w, wp m (fun _ w' => R w w') (fun stop _ => E stop) w

structure Lasting (R : Walk σ → Walk σ → Prop) : Prop where
  refl : ∀ w, R w w
  trans : ∀ {w w' w''}, R w w' → R w' w'' → R w w''
  told : ∀ w e, R w { w with journal := e :: w.journal }

theorem StopsOnly.ensures {τ : Type} {E : Stop → Prop} {keep : Walk σ → τ}
    {R : Walk σ → Walk σ → Prop} {m : WalkM σ α} (h : m.StopsOnly E keep)
    (hr : ∀ w w', keep w' = keep w → R w w') : Ensures E R m :=
  fun w => wp_imp (h w) fun _ w' => hr w w'

namespace Lasting

variable {E : Stop → Prop} {R : Walk σ → Walk σ → Prop} {m : WalkM σ α} (hr : Lasting R)

include hr

theorem wp_imp {w w' : Walk σ} {Q : α → Walk σ → Prop} (h : Ensures E R m) (hw : R w w')
    (hq : ∀ a w'', R w w'' → Q a w'') : wp m Q (fun stop _ => E stop) w' :=
  AddressFormulas.wp_imp (h w') fun a w'' h' => hq a w'' (hr.trans hw h')

theorem bind {f : α → WalkM σ β} (h : Ensures E R m) (hf : ∀ a, Ensures E R (f a)) :
    Ensures E R (m >>= f) := by
  intro w
  refine wp_bind.mpr (AddressFormulas.wp_imp (h w) fun a w' hw => ?_)
  exact AddressFormulas.wp_imp (hf a w') fun _ _ h => hr.trans hw h

theorem ok (a : α) : Ensures E R (pure a : WalkM σ α) := fun w => hr.refl w

theorem read : Ensures E R (get : WalkM σ (Walk σ)) := fun w => hr.refl w

theorem client : Ensures E R (WalkM.client : WalkM σ σ) := fun w => hr.refl w

theorem tell (e : Event) : Ensures E R (WalkM.tell e : WalkM σ Unit) := fun w => hr.told w e

theorem tellAll (es : List Event) : Ensures E R (WalkM.tellAll es : WalkM σ Unit) := by
  induction es with
  | nil => exact hr.ok _
  | cons e es ih => exact hr.bind (hr.tell e) fun _ => ih

theorem require (he : E .missing) (a? : Option α) :
    Ensures E R (WalkM.require a? : WalkM σ α) := by
  cases a? with
  | none => exact fun _ => he
  | some a => exact hr.ok a

theorem report {strict : Bool} (hs : Tolerates E strict) {f : Failure}
    (hf : f.isCoverageGap = true) : Ensures E R (WalkM.report strict f : WalkM σ Unit) := by
  refine hr.bind (hr.tell _) fun _ => ?_
  cases strict with
  | true => exact fun _ => hs rfl f hf
  | false =>
    rw [hf]
    exact hr.ok _

end Lasting

end WalkM

namespace Slicer

open WalkM

/-- What a slicer does keeps `R`. On the way out of a definition or back along an edge, the state
is one to which `R` leads from the state after the way in. -/
structure Respects (s : Slicer σ) (E : Stop → Prop) (R : Walk σ → Walk σ → Prop) : Prop where
  lasting : Lasting R
  missing : E .missing
  exhausted : E .exhausted
  gaps : Tolerates E s.strict
  bounds : ∀ w bounds, R w { w with bounds }
  bound : ∀ bounds, Ensures E R (s.bound bounds)
  start : ∀ p reg, Ensures E R (s.start p reg)
  op : ∀ follow : FollowFor σ, (∀ p address, Ensures E R (follow p address)) → ∀ u reg w,
    wp (s.enterOp follow u reg) (fun _ w₁ => ∀ w₂, R w₁ w₂ →
      wp (s.leaveOp u reg) (fun _ w₃ => R w w₃) (fun stop _ => E stop) w₂) (fun stop _ => E stop) w
  edge : ∀ e reg w,
    wp (s.enterEdge e reg) (fun entered w₁ => (entered = false → R w w₁) ∧
      (entered = true → ∀ w₂, R w₁ w₂ →
        wp (s.leaveEdge e reg) (fun _ w₃ => R w w₃) (fun stop _ => E stop) w₂))
      (fun stop _ => E stop) w
  enterBlock : ∀ b reg, Ensures E R (s.enterBlock b reg)
  leaveBlock : ∀ b reg, Ensures E R (s.leaveBlock b reg)
  tryOthers : ∀ e reg, Ensures E R (s.tryOthers e reg)
  fixedValue : ∀ reg u v, Ensures E R (s.fixedValue reg u v)

namespace Respects

variable {s : Slicer σ} {g : Graph} {E : Stop → Prop} {R : Walk σ → Walk σ → Prop}
  {walk : WalkFor σ} {follow : FollowFor σ} (hs : s.Respects E R)

include hs

theorem alongEdges {reg : Register} {across : Nat → WalkM σ α} {enough : α → Bool}
    {last : WalkM σ α} (hlast : Ensures E R last) (hacross : ∀ e, Ensures E R (across e))
    (edges : List Nat) : Ensures E R (s.alongEdges reg across enough last edges) := by
  induction edges with
  | nil => exact hlast
  | cons e rest others =>
    have afterwards : ∀ a, Ensures E R (do
        if enough a then return a
        if ← s.tryOthers e reg then s.alongEdges reg across enough last rest else return a) := by
      intro a
      split
      · exact hs.lasting.ok a
      · refine hs.lasting.bind (hs.tryOthers e reg) fun again => ?_
        split
        · exact others
        · exact hs.lasting.ok a
    intro w
    refine wp_bind.mpr (wp_imp (hs.edge e reg w) fun entered w₁ h => ?_)
    cases entered with
    | false => exact hs.lasting.wp_imp others (h.1 rfl) fun _ _ h => h
    | true =>
      refine wp_bind.mpr (wp_imp (hacross e w₁) fun a w₂ h₂ => ?_)
      refine wp_bind.mpr (wp_imp (h.2 rfl w₂ h₂) fun _ w₃ h₃ => ?_)
      exact hs.lasting.wp_imp (afterwards a) h₃ fun _ _ h => h

section Walks

variable (hw : ∀ p reg bounds, Ensures E R (walk p reg bounds))

include hw

theorem sliceWith (p : Position) (reg : Register) (bounds : Bounds) :
    Ensures E R (s.sliceWith walk p reg bounds) :=
  hs.lasting.bind (hs.start p reg) fun _ => hw p reg bounds

theorem congruence (u : Placed) : SourceCongruence s s walk walk u fun _ m _ => Ensures E R m where
  ok := hs.lasting.ok
  answer a hm := hs.lasting.bind hm fun _ => hs.lasting.ok a
  reported hf hm := by
    have gap := Failure.isCoverageGap_of_isAboutSources hf
    exact hs.lasting.bind (hs.lasting.report hs.gaps gap) fun _ => hm
  slice reg := hs.sliceWith hw _ reg _
  fixedValue reg v _ := hs.fixedValue reg u.op v

theorem sliceSources (u : Placed) (sources : List Register) :
    Ensures E R (s.sliceSources walk u sources) := by
  induction sources with
  | nil => exact hs.lasting.ok _
  | cons source rest ih => exact hs.lasting.bind ((hs.congruence hw u).sliceSource source) fun _ => ih

theorem walkEdges (b : Nat) (reg : Register) (edges : List Nat) :
    Ensures E R (s.walkEdges g walk b reg edges) := by
  rw [walkEdges_eq]
  refine hs.alongEdges (hs.leaveBlock b reg) (fun e => ?_) edges
  exact hs.lasting.bind (hs.lasting.require hs.missing _) fun edge =>
    hs.lasting.bind (hs.lasting.require hs.missing _) fun source =>
      hs.lasting.bind hs.lasting.read fun _ => hw _ reg _

theorem walkNext (b : Nat) (reg : Register) : Ensures E R (s.walkNext g walk b reg) := by
  refine hs.lasting.bind (hs.enterBlock b reg) fun enter => ?_
  split
  · exact hs.lasting.bind (hs.lasting.require hs.missing _) fun _ => hs.walkEdges hw b reg _
  · exact hs.lasting.ok _

end Walks

section Steps

variable (hf : ∀ p address, Ensures E R (follow p address))

include hf

theorem walkStep (hw : ∀ p reg bounds, Ensures E R (walk p reg bounds)) (p : Position)
    (reg : Register) (bounds : Bounds) : Ensures E R (s.walkStep g walk follow p reg bounds) := by
  have set : Ensures E R (s.setBounds bounds) :=
    hs.lasting.bind (fun w => hs.bounds w bounds) fun _ => hs.bound bounds
  refine hs.lasting.bind set fun _ => ?_
  refine hs.lasting.bind (hs.lasting.require hs.missing _) fun block => ?_
  split
  · exact hs.walkNext hw p.block reg
  · refine hs.lasting.bind (hs.lasting.tell _) fun _ w => ?_
    refine wp_bind.mpr (wp_imp (hs.op follow hf _ _ w) fun entered w₁ leave => ?_)
    split
    · exact wp_bind.mpr (wp_imp (hs.sliceSources hw _ _ w₁) fun _ w₂ => leave w₂)
    · exact leave w₁ (hs.lasting.refl w₁)

theorem followEdges (b : Nat) (address : Formula) (edges : List Nat) :
    Ensures E R (s.followEdges g follow b address edges) := by
  rw [followEdges_eq]
  have last : Ensures E R (do s.leaveBlock b .absent; return none : WalkM σ (Option Register)) :=
    hs.lasting.bind (hs.leaveBlock b _) fun _ => hs.lasting.ok _
  refine hs.alongEdges last (fun e => ?_) edges
  exact hs.lasting.bind (hs.lasting.require hs.missing _) fun edge =>
    hs.lasting.bind (hs.lasting.require hs.missing _) fun source => hf _ address

theorem followStep (hw : ∀ p reg bounds, Ensures E R (walk p reg bounds)) (p : Position)
    (address : Formula) : Ensures E R (s.followStep g walk follow p address) := by
  refine hs.lasting.bind (hs.lasting.require hs.missing _) fun block => ?_
  refine hs.lasting.bind hs.lasting.client fun st => ?_
  dsimp only
  split
  · exact hs.lasting.bind (hs.lasting.tell _) fun _ => (hs.congruence hw _).sliceStored
  · refine hs.lasting.bind (hs.enterBlock _ _) fun enter => ?_
    split
    · exact hs.followEdges hf _ address _
    · exact hs.lasting.ok _

end Steps

theorem walk_and_follow (n : Nat) :
    (∀ p reg bounds, Ensures E R (s.walk g n p reg bounds)) ∧
      ∀ p address, Ensures E R (s.follow g n p address) := by
  induction n with
  | zero => exact ⟨fun _ _ _ _ => hs.exhausted, fun _ _ _ => hs.exhausted⟩
  | succ n ih => exact ⟨hs.walkStep ih.2 ih.1, hs.followStep ih.2 ih.1⟩

theorem slice (depth : Nat) (p : Position) (reg : Register) (bounds : Bounds) :
    Ensures E R (s.slice g depth p reg bounds) :=
  hs.sliceWith (hs.walk_and_follow depth).1 p reg bounds

end Respects

end Slicer

end AddressFormulas
