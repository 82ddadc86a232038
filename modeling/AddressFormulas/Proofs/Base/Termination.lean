import AddressFormulas.Proofs.Base.Agreement
import AddressFormulas.Proofs.Data.Sorting
import AddressFormulas.Proofs.Routine.Order

/-!
Base slicing comes to an end wherever the forward edges of a routine form no cycle, whatever is
known and pending when it begins. Each walk that a walk asks for begins at a place of less weight,
so a depth beyond all weights is never used up, and how much deeper it is makes no difference.
-/

namespace AddressFormulas.Base

open WalkM Slicer

variable {settings settings' : Settings} {g : Graph}

theorem isBack_of_enterEdge {e : Nat} {edge : Edge} (he : g.edge? e = some edge)
    {w t : Walk BaseState} (h : enterEdge g e w = .ok true t) : edge.isBack = false := by
  have entered : wp (enterEdge g e) (fun enter _ => enter = true → edge.isBack = false)
      (fun _ _ => True) w := by
    unfold enterEdge
    simp only [wp_bind, he, wp_require_some]
    cases g.block? edge.source with
    | none => trivial
    | some source =>
      intro both
      simpa using (Bool.and_eq_true_iff.mp both).1
  exact wp_ok entered h rfl

theorem blocksAgree_into (hg : g.WellFormed) (b : Nat) :
    BlocksAgree (fun e e' => e = e' ∧ ∃ edge, g.edge? e = some edge ∧ edge.sink = b) g g b := by
  cases hb : g.block? b with
  | none => exact .inl ⟨hb, hb⟩
  | some block =>
    refine .inr ⟨block, block, hb, hb, rfl, ?_, ?_⟩
    · refine List.forall₂_same.mpr fun e he => ⟨rfl, ?_⟩
      exact hg.mem_incoming hb ((mem_sortBy _ e _).mp he)
    · exact List.forall₂_same.mpr fun e he => ⟨rfl, hg.mem_incoming hb he⟩

/-- Depths beyond the weight of a place are all alike for the walks that begin there. -/
theorem walk_and_follow_agree (hg : g.WellFormed) (ha : g.ForwardAcyclic)
    (hs : settings.Agree (fun _ => False) settings') (n n' : Nat) :
    WalksAgree (fun _ => False) (fun _ => True)
        (fun p => g.weight p.block p.before < n ∧ g.weight p.block p.before < n')
        ((slicer settings g).walk g n) ((slicer settings' g).walk g n') ∧
      FollowsAgree (fun _ => False) (fun _ => True)
        (fun p => g.weight p.block p.before < n ∧ g.weight p.block p.before < n')
        ((slicer settings g).follow g n) ((slicer settings' g).follow g n') := by
  -- each step goes to a lighter place, so both depths outlast the weight as they fall
  induction n generalizing n' with
  | zero => exact ⟨fun _ _ _ h => absurd h.1 (by omega), fun _ _ h => absurd h.1 (by omega)⟩
  | succ n ih =>
    cases n' with
    | zero => exact ⟨fun _ _ _ h => absurd h.2 (by omega), fun _ _ h => absurd h.2 (by omega)⟩
    | succ n' =>
      obtain ⟨hw, hf⟩ := ih n'
      have hooks := slicer_agree (g := g) hs (B := fun _ => True) trivial
      have earlier : ∀ p : Position,
          g.weight p.block p.before < n + 1 ∧ g.weight p.block p.before < n' + 1 →
          ∀ i, i < p.before → g.weight p.block i < n ∧ g.weight p.block i < n' := by
        intro p hp i hi
        simp only [Graph.weight] at hp ⊢
        omega
      have edges : ∀ p : Position,
          g.weight p.block p.before < n + 1 ∧ g.weight p.block p.before < n' + 1 →
          ∀ e e', (e = e' ∧ ∃ edge, g.edge? e = some edge ∧ edge.sink = p.block) →
          EdgesAgree (fun _ => False) (fun _ => True) (slicer settings g) (slicer settings' g) g g
            ((slicer settings g).walk g n) ((slicer settings' g).walk g n')
            ((slicer settings g).follow g n) ((slicer settings' g).follow g n') e e' := by
        rintro p hp e _ ⟨rfl, edge, he, hsink⟩
        -- back edges are never entered, and forward edges lead to lighter places
        have lighter : edge.isBack = false → ∀ edge' source, g.edge? e = some edge' →
            g.block? edge'.source = some source →
            g.weight edge'.source source.ops.length < n ∧
              g.weight edge'.source source.ops.length < n' := by
          intro hforward edge' source he' hsource
          cases he.symm.trans he'
          have less := Graph.weight_lt_of_forward ha hsource ⟨e, edge, he, hforward, rfl, hsink⟩ p.before
          omega
        refine ⟨hooks.enterEdge e, hooks.leaveEdge e, hooks.tryOthers e, ?_, ?_⟩
        · rintro reg ⟨w, t, _, enter⟩
          exact walkAcross_agree hw e reg (lighter (isBack_of_enterEdge he enter))
        · rintro address ⟨w, t, _, enter⟩
          exact followAcross_agree hf e address (lighter (isBack_of_enterEdge he enter))
      constructor
      · intro p reg bounds hp _
        exact hooks.walkStep trivial (blocksAgree_into hg p.block) reg trivial hw hf (earlier p hp)
          (edges p hp)
      · intro p address hp
        exact hooks.followStep trivial (blocksAgree_into hg p.block) address hw (earlier p hp)
          (edges p hp)

theorem address_agree_deep (hg : g.WellFormed) (ha : g.ForwardAcyclic)
    (hs : settings.Agree (fun _ => False) settings') (hd : g.placeBound ≤ settings.depth)
    (hd' : g.placeBound ≤ settings'.depth) (b index : Nat) (opidx : Int) :
    Agree (fun _ => False) (fun _ => True) (address settings g b index opidx)
      (address settings' g b index opidx) := by
  have walks := (walk_and_follow_agree hg ha hs settings.depth settings'.depth).1
  apply address_agree hs opidx rfl
  intro op hop reg
  obtain ⟨block, hblock, hi⟩ := Graph.op?_eq_some.mp hop
  have inside := (List.getElem?_eq_some_iff.mp hi).1
  have length := Graph.length_le_opCount hblock
  have weight : g.weight b index < g.placeBound := Graph.weight_lt_placeBound b (by omega)
  exact walks ⟨b, index⟩ reg _ ⟨weight.trans_le hd, weight.trans_le hd'⟩ trivial

theorem address_run_deep (hg : g.WellFormed) (ha : g.ForwardAcyclic)
    (hs : settings.Agree (fun _ => False) settings') (hd : g.placeBound ≤ settings.depth)
    (hd' : g.placeBound ≤ settings'.depth) (b index : Nat) (opidx : Int) (w : Walk BaseState) :
    (address settings' g b index opidx).run w = (address settings g b index opidx).run w :=
  (address_agree_deep hg ha hs hd hd' b index opidx).run_eq trivial fun _ _ _ => id

theorem address_not_exhausted (hg : g.WellFormed) (ha : g.ForwardAcyclic)
    (hd : g.placeBound ≤ settings.depth) (b index : Nat) (opidx : Int) (w w' : Walk BaseState) :
    (address settings g b index opidx).run w ≠ .error .exhausted w' :=
  (address_agree_deep hg ha ⟨.inl rfl, rfl, rfl, rfl⟩ hd hd b index opidx).not_exhausted trivial id

/-- Every computation of a base address has one outcome, at all depths beyond a bound that depends
on the routine only; and the outcome is not exhaustion. -/
theorem address_terminates {g : Graph} (hg : g.Built) (ha : g.ForwardAcyclic) (settings : Settings)
    (b index : Nat) (opidx : Int) (w : Walk BaseState) :
    ∃ outcome, (∀ w', outcome ≠ .error .exhausted w') ∧
      ∀ depth, g.placeBound ≤ depth →
        (address { settings with depth } g b index opidx).run w = outcome := by
  refine ⟨(address { settings with depth := g.placeBound } g b index opidx).run w, ?_, ?_⟩
  · intro w'
    exact address_not_exhausted hg.wellFormed ha (Nat.le_refl _) b index opidx w w'
  · intro depth hd
    have same : Settings.Agree (fun _ => False) { settings with depth := g.placeBound }
        { settings with depth } := ⟨.inl rfl, rfl, rfl, rfl⟩
    exact address_run_deep hg.wellFormed ha same (Nat.le_refl _) hd b index opidx w

def spillBranch : Graph :=
  let rax : Register := ⟨.listed 0, 0, 63⟩
  let rbx : Register := ⟨.listed 4, 0, 63⟩
  let slot : Operand := .memory { base := some rbx }
  let next : MicroOp :=
    { pc := 0x10, kind := .alu, operation := .add, sources := [.register rax, .immediate 8],
      destinations := [.register rax] }
  let store : MicroOp :=
    { pc := 0x14, kind := .store, operation := .mov, sources := [.register rax],
      destinations := [slot] }
  let load : MicroOp :=
    { pc := 0x20, kind := .load, operation := .mov, sources := [slot],
      destinations := [.register rax] }
  let use : MicroOp :=
    { pc := 0x24, kind := .load, operation := .mov, sources := [.memory { base := some rax }],
      destinations := [.register rbx] }
  let blocks := ((({} : Graph).addBlock 0 0 [next, store]).addBlock 1 0 [load]).addBlock 2 0 [use]
  (((blocks.addEdge 0 1 false).addEdge 0 2 false).addEdge 1 2 false).addEdge 2 1 true

theorem built_spillBranch : spillBranch.Built :=
  .addEdge _ (by decide) (by decide) <| .addEdge _ (by decide) (by decide) <|
    .addEdge _ (by decide) (by decide) <| .addEdge _ (by decide) (by decide) <|
    .addBlock _ _ _ <| .addBlock _ _ _ <| .addBlock _ _ _ <| .empty ""

theorem address_terminates_spillBranch :
    ∃ outcome, (∀ w', outcome ≠ .error .exhausted w') ∧ ∀ depth, 20 ≤ depth →
      (address { depth } spillBranch 2 0 0).run
        { client :=
          { values := Pending.push {} ⟨.listed 0, 0, 31⟩ (.constant 7)
            definitions := Table.insert {} ⟨0x10, 0⟩ (.constant 5)
            bases := (OperandTable.setBase {} ⟨0x14, 0⟩ (.constant 64)).setBase ⟨0x20, 0⟩
              (.constant 64) } } = outcome :=
  address_terminates built_spillBranch (Graph.forwardAcyclic_of_ranks id (by decide)) {} 2 0 0 _

end AddressFormulas.Base
