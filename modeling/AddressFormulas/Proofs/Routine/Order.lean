import AddressFormulas.Proofs.Routine.WellFormed
import Mathlib.Data.Finset.Card
import Mathlib.Data.Finset.Range
import Mathlib.Logic.Relation

/-!
Routines whose forward edges form no cycle. Blocks then have heights that grow along forward edges,
and places have weights that fall on the way backward: towards the beginning of a block, and from
the beginning of a block to the end of a block before it.
-/

namespace AddressFormulas.Graph

def Forward (g : Graph) (a b : Nat) : Prop :=
  ∃ e edge, g.edge? e = some edge ∧ edge.isBack = false ∧ edge.source = a ∧ edge.sink = b

def ForwardAcyclic (g : Graph) : Prop := ∀ b, ¬Relation.TransGen g.Forward b b

theorem forwardAcyclic_of_ranks {g : Graph} (rank : Nat → Nat)
    (h : ∀ edge ∈ g.edges, edge.isBack = false → rank edge.source < rank edge.sink) :
    g.ForwardAcyclic := by
  have rises : ∀ {a b}, Relation.TransGen g.Forward a b → rank a < rank b := by
    intro a b path
    induction path with
    | single step =>
      obtain ⟨e, edge, he, hf, rfl, rfl⟩ := step
      exact h edge (List.mem_of_getElem? he) hf
    | tail _ step ih =>
      obtain ⟨e, edge, he, hf, rfl, rfl⟩ := step
      exact ih.trans (h edge (List.mem_of_getElem? he) hf)
  intro b cycle
  exact Nat.lt_irrefl _ (rises cycle)

open Classical in
noncomputable def height (g : Graph) (b : Nat) : Nat :=
  ((Finset.range g.blocks.length).filter fun a => Relation.TransGen g.Forward a b).card

theorem height_le (g : Graph) (b : Nat) : g.height b ≤ g.blocks.length := by
  classical
  have all := Finset.card_filter_le (Finset.range g.blocks.length)
    (fun a => Relation.TransGen g.Forward a b)
  rwa [Finset.card_range] at all

theorem height_lt {g : Graph} (ha : g.ForwardAcyclic) {a b : Nat} (hl : a < g.blocks.length)
    (h : g.Forward a b) : g.height a < g.height b := by
  classical
  apply Finset.card_lt_card
  constructor
  · intro c hc
    obtain ⟨hr, path⟩ := Finset.mem_filter.mp hc
    exact Finset.mem_filter.mpr ⟨hr, path.tail h⟩
  · -- The block itself is behind its successor, but not behind itself.
    intro sub
    have behind := sub (Finset.mem_filter.mpr ⟨Finset.mem_range.mpr hl, .single h⟩)
    exact ha a (Finset.mem_filter.mp behind).2

def opCount (g : Graph) : Nat := (g.blocks.flatMap Block.ops).length

theorem length_le_opCount {g : Graph} {b : Nat} {block : Block} (hb : g.block? b = some block) :
    block.ops.length ≤ g.opCount := by
  have member : block ∈ g.blocks := List.mem_of_getElem? hb
  obtain ⟨before, after, split⟩ := List.append_of_mem member
  simp only [opCount, split, List.flatMap_append, List.flatMap_cons, List.length_append]
  omega

noncomputable def weight (g : Graph) (b before : Nat) : Nat :=
  g.height b * (g.opCount + 1) + before

def placeBound (g : Graph) : Nat := (g.blocks.length + 1) * (g.opCount + 1)

theorem weight_lt_placeBound {g : Graph} (b : Nat) {before : Nat} (h : before ≤ g.opCount) :
    g.weight b before < g.placeBound := by
  have height := Nat.mul_le_mul_right (g.opCount + 1) (g.height_le b)
  unfold weight placeBound
  rw [Nat.add_mul]
  omega

theorem weight_lt_of_lt {g : Graph} {b i before : Nat} (h : i < before) :
    g.weight b i < g.weight b before :=
  Nat.add_lt_add_left h _

theorem weight_lt_of_forward {g : Graph} (ha : g.ForwardAcyclic) {a b : Nat} {block : Block}
    (hb : g.block? a = some block) (h : g.Forward a b) (before : Nat) :
    g.weight a block.ops.length < g.weight b before := by
  have length := length_le_opCount hb
  have lower : g.height a + 1 ≤ g.height b :=
    height_lt ha (List.getElem?_eq_some_iff.mp hb).1 h
  have scaled := Nat.mul_le_mul_right (g.opCount + 1) lower
  unfold weight
  rw [Nat.add_mul] at scaled
  omega

end AddressFormulas.Graph
