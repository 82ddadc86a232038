import AddressFormulas.Base.Slicer
import AddressFormulas.Proofs.Routine.Order
import AddressFormulas.Proofs.Rules
import AddressFormulas.Proofs.Walk.Edges

namespace AddressFormulas

namespace Base

open Slicer

variable {settings : Settings} {g : Graph} {α : Type} {e : Nat} {edge : Edge} {source : Block}
  {w : Walk BaseState}

theorem enterEdge_run (he : g.edge? e = some edge) (hb : g.block? edge.source = some source) :
    enterEdge g e w = .ok (!edge.isBack && decide (w.bounds.stop < source.stop)) w := by
  unfold enterEdge
  rw [he]
  change (WalkM.require (g.block? edge.source) >>= _) w = _
  rw [hb]
  rfl

section Attempts

variable {reg : Register} {across : Nat → M α} {enough : α → Bool} {last : M α} {rest : List Nat}

theorem alongEdges_refused (h : enterEdge g e w = .ok false w) :
    (slicer settings g).alongEdges reg across enough last (e :: rest) w =
      (slicer settings g).alongEdges reg across enough last rest w :=
  (run_bind h).trans rfl

theorem alongEdges_entered (h : enterEdge g e w = .ok true w) :
    (slicer settings g).alongEdges reg across enough last (e :: rest) w = across e w := by
  refine (run_bind h).trans ?_
  have answer : ∀ a, (do
      (slicer settings g).leaveEdge e reg
      if enough a then return a
      if ← (slicer settings g).tryOthers e reg then
        (slicer settings g).alongEdges reg across enough last rest
      else return a) = (pure a : M α) := by
    intro a
    change (if enough a then pure a else pure a : M α) = pure a
    split <;> rfl
  have once := bind_pure (across e)
  rw [← funext answer] at once
  exact congrFun once w

end Attempts

def EdgeTaken (settings : Settings) (g : Graph) (edges : List Nat) (e? : Option Nat) : Prop :=
  ∀ (α : Type) (reg : Register) (across : Nat → M α) (enough : α → Bool) (last : M α)
    (w : Walk BaseState), w.bounds.stop = 0 →
      (slicer settings g).alongEdges reg across enough last edges w = e?.elim last across w

namespace EdgeTaken

variable {edges : List Nat} {e? : Option Nat} (h : EdgeTaken settings g edges e?)
  (hw : w.bounds.stop = 0)

include h hw

theorem walkEdges (walk : WalkFor BaseState) (b : Nat) (reg : Register) :
    (slicer settings g).walkEdges g walk b reg edges w =
      e?.elim (leaveBlock g b reg) (fun e => walkAcross g walk e reg) w := by
  rw [walkEdges_eq]
  exact h Unit reg _ _ _ w hw

theorem followEdges (follow : FollowFor BaseState) (b : Nat) (address : Formula) :
    (slicer settings g).followEdges g follow b address edges w =
      e?.elim (do leaveBlock g b .absent; return none)
        (fun e => followAcross g follow e address) w := by
  rw [followEdges_eq]
  exact h (Option Register) .absent _ _ _ w hw

end EdgeTaken

theorem edgeTaken_cases (settings : Settings) (hg : g.WellFormed) {b : Nat} {edges : List Nat}
    (hedges : ∀ e ∈ edges, ∃ edge, g.edge? e = some edge ∧ edge.sink = b) :
    EdgeTaken settings g edges none ∨
      ∃ e edge source, g.edge? e = some edge ∧ g.block? edge.source = some source ∧
        g.Forward edge.source b ∧ EdgeTaken settings g edges (some e) := by
  induction edges with
  | nil => exact .inl fun _ _ _ _ _ _ _ => rfl
  | cons e rest ih =>
    obtain ⟨edge, he, hsink⟩ := hedges e List.mem_cons_self
    have inside := hg.source_lt e edge he
    have hb : g.block? edge.source = some g.blocks[edge.source] := List.getElem?_eq_getElem _
    have enter : ∀ w : Walk BaseState, w.bounds.stop = 0 →
        enterEdge g e w = .ok (!edge.isBack && decide (0 < g.blocks[edge.source].stop)) w := by
      intro w hw
      rw [enterEdge_run he hb, hw]
    cases passable : (!edge.isBack && decide (0 < g.blocks[edge.source].stop)) with
    | false =>
      simp only [passable] at enter
      have others : ∀ {e?}, EdgeTaken settings g rest e? → EdgeTaken settings g (e :: rest) e? :=
        fun taken α reg across enough last w hw =>
          (alongEdges_refused (enter w hw)).trans (taken α reg across enough last w hw)
      obtain refused | ⟨e', edge', source, he', hb', forward, taken⟩ :=
        ih fun e' h => hedges e' (List.mem_cons_of_mem _ h)
      · exact .inl (others refused)
      · exact .inr ⟨e', edge', source, he', hb', forward, others taken⟩
    | true =>
      simp only [passable] at enter
      have forward : edge.isBack = false := by simpa using (Bool.and_eq_true_iff.mp passable).1
      refine .inr ⟨e, edge, _, he, hb, ⟨e, edge, he, forward, rfl, hsink⟩, ?_⟩
      exact fun _ _ _ _ _ w hw => alongEdges_entered (enter w hw)

end Base

end AddressFormulas
