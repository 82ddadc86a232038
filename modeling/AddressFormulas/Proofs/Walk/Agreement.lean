import AddressFormulas.Proofs.Routine.Definitions
import AddressFormulas.Proofs.Walk.Congruence
import AddressFormulas.Proofs.Walk.Edges
import AddressFormulas.Proofs.Walk.Rules
import AddressFormulas.Settings
import Mathlib.Data.List.Forall2

/-!
Two walks side by side. They agree if, begun in one and the same state, both come to the same end,
and not by being nested too deeply; the first one may end early for reasons that are excused. Walks
of two slicers, in two routines and at two depths, agree if what the slicers do agrees wherever the
walks come.
-/

namespace AddressFormulas

variable {σ α β : Type}

/-- Whenever `m` ends otherwise than early for a reason in `E`, so does `m'`, with the same answer
or failure and in the same state. Only states whose lower bound satisfies `B` count. -/
def WalkM.Agree (E : Stop → Prop) (B : Nat → Prop) (m m' : WalkM σ α) : Prop :=
  ∀ w, B w.bounds.stop →
    wp m (fun a t => m' w = .ok a t ∧ B t.bounds.stop)
      (fun stop t => E stop ∨ stop ≠ .exhausted ∧ m' w = .error stop t) w

def Stricter (E : Stop → Prop) (strict strict' : Bool) : Prop :=
  strict' = strict ∨ strict = true ∧ ∀ f, E (.failed f)

structure Settings.Agree (E : Stop → Prop) (settings settings' : Settings) : Prop where
  strict : Stricter E settings.strict settings'.strict
  followSpills : settings'.followSpills = settings.followSpills
  showValues : settings'.showValues = settings.showValues
  showPaths : settings'.showPaths = settings.showPaths

namespace WalkM.Agree

variable {E : Stop → Prop} {B : Nat → Prop} {m m' : WalkM σ α} {f f' : α → WalkM σ β}

theorem bind_of (h : Agree E B m m')
    (hf : ∀ a, (∃ w t, B w.bounds.stop ∧ m w = .ok a t) → Agree E B (f a) (f' a)) :
    Agree E B (m >>= f) (m' >>= f') := by
  intro w hw
  have joined : (m' >>= f') w = match m' w with
      | .ok a t => f' a t
      | .error stop t => .error stop t := by
    change EStateM.bind m' f' w = _
    unfold EStateM.bind
    cases m' w <;> rfl
  refine wp_bind.mpr ?_
  have first := h w hw
  unfold wp at first ⊢
  cases run : m w with
  | ok a t =>
    rw [run] at first
    rw [joined, first.1]
    exact hf a ⟨w, t, hw, run⟩ t first.2
  | error stop t =>
    rw [run] at first
    refine first.imp_right fun he => ⟨he.1, ?_⟩
    rw [joined, he.2]

theorem bind (h : Agree E B m m') (hf : ∀ a, Agree E B (f a) (f' a)) :
    Agree E B (m >>= f) (m' >>= f') :=
  h.bind_of fun a _ => hf a

theorem run_ok (h : Agree E B m m') {w t : Walk σ} (hw : B w.bounds.stop) {a : α}
    (run : m.run w = .ok a t) : m'.run w = .ok a t :=
  (wp_ok (h w hw) run).1

theorem run_eq (h : Agree E B m m') {w : Walk σ} (hw : B w.bounds.stop)
    (he : ∀ stop t, m.run w = .error stop t → ¬E stop) : m'.run w = m.run w := by
  have both := h w hw
  unfold wp at both
  change m' w = m w
  split at both
  · next run => exact both.1.trans run.symm
  · next stop t run =>
    obtain excused | ⟨_, run'⟩ := both
    · exact absurd excused (he stop t run)
    · exact run'.trans run.symm

theorem not_exhausted (h : Agree E B m m') {w t : Walk σ} (hw : B w.bounds.stop)
    (he : ¬E .exhausted) : m.run w ≠ .error .exhausted t := by
  intro run
  exact (wp_error (h w hw) run).elim he fun ends => ends.1 rfl

theorem ok (a : α) : Agree E B (pure a : WalkM σ α) (pure a) := fun _ hw => ⟨rfl, hw⟩

theorem read : Agree E B (get : WalkM σ (Walk σ)) get := fun _ hw => ⟨rfl, hw⟩

theorem read_bind {f f' : Walk σ → WalkM σ β} (hf : ∀ w, B w.bounds.stop → Agree E B (f w) (f' w)) :
    Agree E B (get >>= f) (get >>= f') := by
  refine read.bind_of fun w ⟨w', t, hw', run⟩ => hf w ?_
  cases run
  exact hw'

theorem change (f : Walk σ → Walk σ) (hf : ∀ w, B w.bounds.stop → B (f w).bounds.stop) :
    Agree E B (modify f : WalkM σ Unit) (modify f) := fun w hw => ⟨rfl, hf w hw⟩

theorem client : Agree E B (WalkM.client : WalkM σ σ) WalkM.client := fun _ hw => ⟨rfl, hw⟩

theorem modifyClient (f : σ → σ) :
    Agree E B (WalkM.modifyClient f : WalkM σ Unit) (WalkM.modifyClient f) :=
  fun _ hw => ⟨rfl, hw⟩

theorem tell (e : Event) : Agree E B (WalkM.tell e : WalkM σ Unit) (WalkM.tell e) :=
  fun _ hw => ⟨rfl, hw⟩

theorem tellAll (es : List Event) :
    Agree E B (WalkM.tellAll es : WalkM σ Unit) (WalkM.tellAll es) := by
  induction es with
  | nil => exact .ok _
  | cons e es ih => exact .bind (.tell e) fun _ => ih

theorem fail (failure : Failure) : Agree E B (WalkM.fail failure : WalkM σ α) (WalkM.fail failure) :=
  fun _ _ => .inr ⟨nofun, rfl⟩

theorem require (a? : Option α) :
    Agree E B (WalkM.require a? : WalkM σ α) (WalkM.require a?) := by
  cases a? with
  | some a => exact .ok a
  | none => exact fun _ _ => .inr ⟨nofun, rfl⟩

theorem require_some {τ : Type} {a? a'? : Option τ} {f f' : τ → WalkM σ β} {a a' : τ}
    (h : a? = some a) (h' : a'? = some a') (hf : Agree E B (f a) (f' a')) :
    Agree E B (WalkM.require a? >>= f) (WalkM.require a'? >>= f') := by
  subst h h'
  exact hf

theorem require_none {τ : Type} {a? a'? : Option τ} {f f' : τ → WalkM σ β} (h : a? = none)
    (h' : a'? = none) : Agree E B (WalkM.require a? >>= f) (WalkM.require a'? >>= f') := by
  subst h h'
  exact fun _ _ => .inr ⟨nofun, rfl⟩

theorem require_bind (a? : Option α) (hf : ∀ a, a? = some a → Agree E B (f a) (f' a)) :
    Agree E B (WalkM.require a? >>= f) (WalkM.require a? >>= f') := by
  cases h : a? with
  | some a => exact .require_some rfl rfl (hf a h)
  | none => exact .require_none rfl rfl

theorem report {strict strict' : Bool} (hs : Stricter E strict strict') (failure : Failure) :
    Agree E B (WalkM.report strict failure : WalkM σ Unit) (WalkM.report strict' failure) := by
  obtain rfl | ⟨rfl, he⟩ := hs
  · refine .bind (.tell _) fun _ => ?_
    split
    · exact .fail failure
    · exact .ok _
  · intro w _
    simpa [WalkM.report] using .inl (he failure)

theorem claim (values : σ → Pending α) (setValues : Pending α → σ → σ) (reg : Register) :
    Agree E B (WalkM.claim values setValues reg) (WalkM.claim values setValues reg) := by
  refine .bind .client fun st => ?_
  split
  · exact .ok _
  · exact .bind (.modifyClient _) fun _ => .bind (.tellAll _) fun _ => .ok _

end WalkM.Agree

namespace Slicer

open WalkM

def WalksAgree (E : Stop → Prop) (B : Nat → Prop) (W : Position → Prop) (walk walk' : WalkFor σ) :
    Prop :=
  ∀ p reg bounds, W p → B bounds.stop → Agree E B (walk p reg bounds) (walk' p reg bounds)

def FollowsAgree (E : Stop → Prop) (B : Nat → Prop) (W : Position → Prop)
    (follow follow' : FollowFor σ) : Prop :=
  ∀ p address, W p → Agree E B (follow p address) (follow' p address)

structure HooksAgree (E : Stop → Prop) (B : Nat → Prop) (D : Nat → Prop) (s s' : Slicer σ) : Prop where
  unbounded : B 0
  strict : Stricter E s.strict s'.strict
  bases : s'.bases = s.bases
  bound : ∀ bounds, Agree E B (s.bound bounds) (s'.bound bounds)
  start : ∀ p reg, Agree E B (s.start p reg) (s'.start p reg)
  enterOp : ∀ W (follow follow' : FollowFor σ), FollowsAgree E B W follow follow' →
    ∀ u reg, W ⟨u.block, u.index⟩ → Agree E B (s.enterOp follow u reg) (s'.enterOp follow' u reg)
  leaveOp : ∀ u reg, D u.block → Agree E B (s.leaveOp u reg) (s'.leaveOp u reg)
  enterBlock : ∀ b reg, D b → Agree E B (s.enterBlock b reg) (s'.enterBlock b reg)
  leaveBlock : ∀ b reg, D b → Agree E B (s.leaveBlock b reg) (s'.leaveBlock b reg)
  fixedValue : ∀ reg u v, Agree E B (s.fixedValue reg u v) (s'.fixedValue reg u v)

structure EdgesAgree (E : Stop → Prop) (B : Nat → Prop) (s s' : Slicer σ) (g g' : Graph)
    (walk walk' : WalkFor σ) (follow follow' : FollowFor σ) (e e' : Nat) : Prop where
  enter : ∀ reg, Agree E B (s.enterEdge e reg) (s'.enterEdge e' reg)
  leave : ∀ reg, Agree E B (s.leaveEdge e reg) (s'.leaveEdge e' reg)
  others : ∀ reg, Agree E B (s.tryOthers e reg) (s'.tryOthers e' reg)
  walk : ∀ reg, (∃ w t, B w.bounds.stop ∧ s.enterEdge e reg w = .ok true t) →
    Agree E B (walkAcross g walk e reg) (walkAcross g' walk' e' reg)
  follow : ∀ address, (∃ w t, B w.bounds.stop ∧ s.enterEdge e .absent w = .ok true t) →
    Agree E B (followAcross g follow e address) (followAcross g' follow' e' address)

/-- Two routines have the same micro-ops in block `b` and, in the order in which they are tried,
edges into it that `R` relates. -/
def BlocksAgree (R : Nat → Nat → Prop) (g g' : Graph) (b : Nat) : Prop :=
  g.block? b = none ∧ g'.block? b = none ∨
    ∃ block block', g.block? b = some block ∧ g'.block? b = some block' ∧ block'.ops = block.ops ∧
      List.Forall₂ R (g.incomingByRank block) (g'.incomingByRank block') ∧
      List.Forall₂ R block.incoming block'.incoming

variable {E : Stop → Prop} {B : Nat → Prop} {D : Nat → Prop} {W : Position → Prop}
  {R : Nat → Nat → Prop} {s s' : Slicer σ} {g g' : Graph} {walk walk' : WalkFor σ}
  {follow follow' : FollowFor σ}

namespace HooksAgree

section Sources

variable (hs : s.HooksAgree E B D s') (hw : WalksAgree E B W walk walk')

include hs hw

theorem sliceWith (p : Position) (reg : Register) (bounds : Bounds) (hp : W p)
    (hb : B bounds.stop) :
    Agree E B (s.sliceWith walk p reg bounds) (s'.sliceWith walk' p reg bounds) :=
  .bind (hs.start p reg) fun _ => hw p reg bounds hp hb

theorem congruence {u : Placed} (hu : W ⟨u.block, u.index⟩) :
    SourceCongruence s s' walk walk' u fun _ m m' => Agree E B m m' where
  ok := .ok
  answer a hm := .bind hm fun _ => .ok a
  reported _ hm := .bind (.report hs.strict _) fun _ => hm
  slice reg := hs.sliceWith hw _ reg _ hu hs.unbounded
  fixedValue reg v _ := hs.fixedValue reg u.op v

theorem sliceSources (u : Placed) (sources : List Register) (hu : W ⟨u.block, u.index⟩) :
    Agree E B (s.sliceSources walk u sources) (s'.sliceSources walk' u sources) := by
  induction sources with
  | nil => exact .ok _
  | cons source rest ih => exact .bind ((hs.congruence hw hu).sliceSource source) fun _ => ih

end Sources

theorem alongEdges {reg : Register} {across across' : Nat → WalkM σ α} {enough : α → Bool}
    {last last' : WalkM σ α} (hlast : Agree E B last last') {edges edges' : List Nat}
    (he : List.Forall₂ (fun e e' => EdgesAgree E B s s' g g' walk walk' follow follow' e e' ∧
      ((∃ w t, B w.bounds.stop ∧ s.enterEdge e reg w = .ok true t) →
        Agree E B (across e) (across' e'))) edges edges') :
    Agree E B (s.alongEdges reg across enough last edges)
      (s'.alongEdges reg across' enough last' edges') := by
  induction he with
  | nil => exact hlast
  | cons h _ others =>
    obtain ⟨edge, behind⟩ := h
    refine .bind_of (edge.enter reg) fun enter hpossible => ?_
    cases enter with
    | false => exact others
    | true =>
      refine .bind (behind hpossible) fun a => .bind (edge.leave reg) fun _ => ?_
      split
      · exact .ok _
      · refine .bind (edge.others reg) fun again => ?_
        split
        · exact others
        · exact .ok _

theorem walkEdges (hs : s.HooksAgree E B D s') {b : Nat} (hb : D b) (reg : Register)
    {edges edges' : List Nat}
    (he : List.Forall₂ (EdgesAgree E B s s' g g' walk walk' follow follow') edges edges') :
    Agree E B (s.walkEdges g walk b reg edges) (s'.walkEdges g' walk' b reg edges') := by
  rw [walkEdges_eq, walkEdges_eq]
  exact alongEdges (hs.leaveBlock b reg hb) (he.imp fun _ _ h => ⟨h, h.walk reg⟩)

theorem followEdges (hs : s.HooksAgree E B D s') {b : Nat} (hb : D b) (address : Formula)
    {edges edges' : List Nat}
    (he : List.Forall₂ (EdgesAgree E B s s' g g' walk walk' follow follow') edges edges') :
    Agree E B (s.followEdges g follow b address edges) (s'.followEdges g' follow' b address edges') := by
  rw [followEdges_eq, followEdges_eq]
  exact alongEdges (.bind (hs.leaveBlock b _ hb) fun _ => .ok _)
    (he.imp fun _ _ h => ⟨h, h.follow address⟩)

theorem walkStep (hs : s.HooksAgree E B D s') {p : Position} (hp : D p.block)
    (hg : BlocksAgree R g g' p.block) (reg : Register) {bounds : Bounds} (hb : B bounds.stop)
    (hw : WalksAgree E B W walk walk') (hf : FollowsAgree E B W follow follow')
    (earlier : ∀ i, i < p.before → W ⟨p.block, i⟩)
    (hr : ∀ e e', R e e' → EdgesAgree E B s s' g g' walk walk' follow follow' e e') :
    Agree E B (s.walkStep g walk follow p reg bounds) (s'.walkStep g' walk' follow' p reg bounds) := by
  have set : Agree E B (s.setBounds bounds) (s'.setBounds bounds) :=
    .bind (.change _ fun _ _ => hb) fun _ => hs.bound bounds
  refine .bind set fun _ => ?_
  obtain ⟨hblock, hblock'⟩ | ⟨block, block', hblock, hblock', ops, byRank, _⟩ := hg
  · exact .require_none hblock hblock'
  · refine .require_some hblock hblock' ?_
    have same : block'.definition? p.before reg = block.definition? p.before reg := by
      simp only [Block.definition?, ops]
    rw [same]
    cases hdef : block.definition? p.before reg with
    | none =>
      refine .bind (hs.enterBlock p.block reg hp) fun enter => ?_
      cases enter with
      | false => exact .ok _
      | true =>
        exact .require_some hblock hblock' (hs.walkEdges hp reg (byRank.imp fun e e' => hr e e'))
    | some d =>
      obtain ⟨i, op, written⟩ := d
      have hi : W ⟨p.block, i⟩ := earlier i (Block.definition?_eq_some hblock hdef).1
      refine .bind (.tell _) fun _ => .bind (hs.enterOp W follow follow' hf _ written hi) fun enter => ?_
      have leave := hs.leaveOp ⟨p.block, i, op⟩ written hp
      cases enter with
      | false => exact leave
      | true => exact .bind (hs.sliceSources hw _ _ hi) fun _ => leave

theorem followStep (hs : s.HooksAgree E B D s') {p : Position} (hp : D p.block)
    (hg : BlocksAgree R g g' p.block) (address : Formula)
    (hw : WalksAgree E B W walk walk') (earlier : ∀ i, i < p.before → W ⟨p.block, i⟩)
    (hr : ∀ e e', R e e' → EdgesAgree E B s s' g g' walk walk' follow follow' e e') :
    Agree E B (s.followStep g walk follow p address) (s'.followStep g' walk' follow' p address) := by
  unfold Slicer.followStep
  obtain ⟨hblock, hblock'⟩ | ⟨block, block', hblock, hblock', ops, _, incoming⟩ := hg
  · exact .require_none hblock hblock'
  · refine .require_some hblock hblock' (.bind .client fun st => ?_)
    rw [ops, hs.bases]
    extract_lets bases store?
    cases hstore : store? with
    | some d =>
      obtain ⟨i, op, _⟩ := d
      have hi : W ⟨p.block, i⟩ := by
        have := (lastBefore?_eq_some hstore).1
        exact earlier i (by omega)
      exact .bind (.tell _) fun _ => (hs.congruence hw hi).sliceStored
    | none =>
      refine .bind (hs.enterBlock p.block _ hp) fun enter => ?_
      cases enter with
      | false => exact .ok _
      | true => exact hs.followEdges hp address (incoming.imp fun e e' => hr e e')

end HooksAgree

theorem walkAcross_agree (hw : WalksAgree E B W walk walk') (e : Nat) (reg : Register)
    (h : ∀ edge source, g.edge? e = some edge → g.block? edge.source = some source →
      W ⟨edge.source, source.ops.length⟩) :
    Agree E B (walkAcross g walk e reg) (walkAcross g walk' e reg) := by
  refine .require_bind _ fun edge he => .require_bind _ fun source hb => ?_
  exact .read_bind fun w hbound => hw _ reg w.bounds (h edge source he hb) hbound

theorem followAcross_agree (hf : FollowsAgree E B W follow follow') (e : Nat) (address : Formula)
    (h : ∀ edge source, g.edge? e = some edge → g.block? edge.source = some source →
      W ⟨edge.source, source.ops.length⟩) :
    Agree E B (followAcross g follow e address) (followAcross g follow' e address) := by
  refine .require_bind _ fun edge he => .require_bind _ fun source hb => ?_
  exact hf _ address (h edge source he hb)

theorem blocksAgree_refl (g : Graph) (b : Nat) : BlocksAgree Eq g g b := by
  cases h : g.block? b with
  | none => exact .inl ⟨h, h⟩
  | some block =>
    exact .inr ⟨block, block, h, h, rfl, List.forall₂_eq_eq_eq ▸ rfl, List.forall₂_eq_eq_eq ▸ rfl⟩

structure Agree (E : Stop → Prop) (B : Nat → Prop) (s s' : Slicer σ) : Prop
    extends HooksAgree E B (fun _ => True) s s' where
  enterEdge : ∀ e reg, WalkM.Agree E B (s.enterEdge e reg) (s'.enterEdge e reg)
  leaveEdge : ∀ e reg, WalkM.Agree E B (s.leaveEdge e reg) (s'.leaveEdge e reg)
  tryOthers : ∀ e reg, WalkM.Agree E B (s.tryOthers e reg) (s'.tryOthers e reg)

/-- Walks that may be nested more deeply come to the same end, where exhaustion is excused. -/
theorem Agree.walk_and_follow (hs : s.Agree E B s') (he : E .exhausted) {n n' : Nat} (h : n ≤ n') :
    WalksAgree E B (fun _ => True) (s.walk g n) (s'.walk g n') ∧
      FollowsAgree E B (fun _ => True) (s.follow g n) (s'.follow g n') := by
  induction n generalizing n' with
  | zero => exact ⟨fun _ _ _ _ _ _ _ => .inl he, fun _ _ _ _ _ => .inl he⟩
  | succ n ih =>
    obtain ⟨k, rfl⟩ : ∃ k, n' = k + 1 := ⟨n' - 1, by omega⟩
    obtain ⟨hw, hf⟩ := @ih k (by omega)
    have edges : ∀ e e', e = e' →
        EdgesAgree E B s s' g g (s.walk g n) (s'.walk g k) (s.follow g n) (s'.follow g k) e e' := by
      rintro e _ rfl
      exact ⟨hs.enterEdge e, hs.leaveEdge e, hs.tryOthers e,
        fun reg _ => walkAcross_agree hw e reg fun _ _ _ _ => trivial,
        fun address _ => followAcross_agree hf e address fun _ _ _ _ => trivial⟩
    constructor
    · intro p reg bounds _ hb
      exact hs.walkStep trivial (blocksAgree_refl g _) reg hb hw hf (fun _ _ => trivial) edges
    · intro p address _
      exact hs.followStep trivial (blocksAgree_refl g _) address hw (fun _ _ => trivial) edges

end Slicer

end AddressFormulas
