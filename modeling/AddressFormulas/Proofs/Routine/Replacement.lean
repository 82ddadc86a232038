import AddressFormulas.Proofs.Data.Sorting
import AddressFormulas.Proofs.Routine.Definitions
import AddressFormulas.Analysis

namespace AddressFormulas

variable {φ : MicroOp → MicroOp}

def Block.mapOps (φ : MicroOp → MicroOp) (block : Block) : Block :=
  { block with ops := block.ops.map φ }

def Graph.mapOps (φ : MicroOp → MicroOp) (g : Graph) : Graph :=
  { g with blocks := g.blocks.map (·.mapOps φ) }

section Search

variable {α β : Type}

theorem lastBefore?_map {xs : List α} {f : α → α} {p q : α → Option β} {stop : Nat}
    (h : ∀ i x, i < stop → xs[i]? = some x → q (f x) = p x) :
    lastBefore? (xs.map f) q stop = (lastBefore? xs p stop).map fun r => (r.1, f r.2.1, r.2.2) := by
  induction stop with
  | zero => rfl
  | succ stop ih =>
    have before := ih fun i x hi hx => h i x (by omega) hx
    unfold lastBefore?
    rw [List.getElem?_map, before]
    cases hx : xs[stop]? with
    | none => rfl
    | some x =>
      have here := h stop x (by omega) hx
      cases hp : p x with
      | none => simp [here, hp]
      | some y => simp [here, hp]

end Search

namespace Graph

variable {g : Graph}

@[simp] theorem block?_mapOps (b : Nat) :
    (g.mapOps φ).block? b = (g.block? b).map (·.mapOps φ) := by
  simp [block?, mapOps]

@[simp] theorem edge?_mapOps (e : Nat) : (g.mapOps φ).edge? e = g.edge? e := rfl

theorem any_block?_mapOps (b : Nat) (p : Block → Bool) (hp : ∀ block, p (block.mapOps φ) = p block) :
    ((g.mapOps φ).block? b).any p = (g.block? b).any p := by
  rw [block?_mapOps]
  cases g.block? b with
  | none => rfl
  | some block => exact hp block

theorem sourceRank_mapOps (e : Nat) : (g.mapOps φ).sourceRank e = g.sourceRank e := by
  unfold sourceRank
  rw [edge?_mapOps]
  cases g.edge? e with
  | none => rfl
  | some edge =>
    simp only [Option.bind_some, block?_mapOps, Option.map_map]
    rfl

theorem incomingByRank_mapOps (block : Block) :
    (g.mapOps φ).incomingByRank (block.mapOps φ) = g.incomingByRank block := by
  unfold incomingByRank
  simp only [sourceRank_mapOps]
  rfl

theorem definition?_mapOps {b : Nat} {block : Block} (hb : g.block? b = some block)
    (h : ∀ i u, g.op? b i = some u → ∀ reg, (φ u).defines? reg = u.defines? reg) (stop : Nat)
    (reg : Register) :
    (block.mapOps φ).definition? stop reg =
      (block.definition? stop reg).map fun r => (r.1, φ r.2.1, r.2.2) := by
  unfold Block.definition?
  rw [show (block.mapOps φ).ops.length = block.ops.length from List.length_map φ]
  apply lastBefore?_map
  intro i u _ hu
  exact h i u (op?_eq_some.mpr ⟨block, hb, hu⟩) reg

theorem isLoopBackEdge_mapOps (marker e : Nat) :
    (g.mapOps φ).isLoopBackEdge marker e = g.isLoopBackEdge marker e := by
  have inLoop : ∀ b, ((g.mapOps φ).block? b).any (·.marker = marker) =
      (g.block? b).any (·.marker = marker) := by
    intro b
    apply any_block?_mapOps
    intro block
    rfl
  unfold isLoopBackEdge
  rw [edge?_mapOps]
  cases g.edge? e with
  | none => rfl
  | some edge => simp only [inLoop]

end Graph

namespace CyclicPath

variable {g : Graph}

theorem takesEdge_mapOps (p : CyclicPath) (e : Nat) :
    p.takesEdge (g.mapOps φ) e = p.takesEdge g e := rfl

theorem backEdgeBefore_mapOps (marker b : Nat) (steps : List (Nat × Nat)) :
    backEdgeBefore (g.mapOps φ) marker b steps = backEdgeBefore g marker b steps := by
  induction steps with
  | nil => rfl
  | cons step steps ih => simp only [backEdgeBefore, Graph.isLoopBackEdge_mapOps, ih]

theorem decided?_mapOps (start marker : Nat) (s : Search) (b backEdges : Nat) :
    decided? (g.mapOps φ) start marker s b backEdges = decided? g start marker s b backEdges := by
  simp only [decided?, closesCycle, backEdgeBefore_mapOps]

theorem mayFollow_mapOps (start marker : Nat) (block : Block) (edge : Edge) (source : Block) :
    mayFollow (g.mapOps φ) start marker (block.mapOps φ) edge (source.mapOps φ) =
      mayFollow g start marker block edge source := by
  unfold mayFollow
  rw [Graph.block?_mapOps, Option.map_map]
  rfl

theorem tryEdges_mapOps (start marker backEdges : Nat) (block : Block)
    (next : Nat → Nat → StateM Search Bool) (edges : List Nat) :
    tryEdges (g.mapOps φ) start marker backEdges (block.mapOps φ) next edges =
      tryEdges g start marker backEdges block next edges := by
  induction edges with
  | nil => rfl
  | cons e rest ih =>
    unfold tryEdges
    rw [ih, Graph.edge?_mapOps]
    cases g.edge? e with
    | none => rfl
    | some edge =>
      dsimp only
      rw [Graph.block?_mapOps]
      cases g.block? edge.source with
      | none => rfl
      | some source =>
        simp only [Option.map_some, mayFollow_mapOps, Graph.isLoopBackEdge_mapOps]

theorem search_mapOps (start marker depth b backEdges : Nat) :
    search (g.mapOps φ) start marker depth b backEdges = search g start marker depth b backEdges := by
  induction depth generalizing b backEdges with
  | zero => rfl
  | succ depth ih =>
    unfold search
    apply congrArg (get >>= ·)
    funext s
    rw [funext fun b => funext (ih b), Graph.block?_mapOps, decided?_mapOps]
    cases decided? g start marker s b backEdges with
    | some answer => rfl
    | none =>
      cases g.block? b with
      | none => rfl
      | some block =>
        simp only [Option.map_some, Graph.incomingByRank_mapOps, tryEdges_mapOps]
        rfl

theorem build?_mapOps (start marker : Nat) :
    build? (g.mapOps φ) start marker = build? g start marker := by
  have size : (g.mapOps φ).blocks.length = g.blocks.length := List.length_map _
  have back : (g.mapOps φ).isLoopBackEdge marker = g.isLoopBackEdge marker :=
    funext (Graph.isLoopBackEdge_mapOps marker)
  unfold build?
  rw [Graph.block?_mapOps, size, back, search_mapOps]
  -- the search is not to be run
  generalize search g start marker (g.blocks.length + 1) start 0 = run
  cases g.block? start with
  | none => rfl
  | some block => rfl

theorem find_mapOps (start marker : Nat) : find (g.mapOps φ) start marker = find g start marker := by
  unfold find
  rw [build?_mapOps]

end CyclicPath

namespace Graph

variable {g : Graph}

theorem enclosingLoops_mapOps (marker : Nat) :
    (g.mapOps φ).enclosingLoops marker = g.enclosingLoops marker := by
  have inside : ∀ n m, (g.mapOps φ).enclosing n m = g.enclosing n m := by
    intro n
    induction n with
    | zero => intro m; rfl
    | succ n ih =>
      intro m
      cases m with
      | zero => rfl
      | succ m =>
        unfold enclosing
        rw [ih]
        rfl
  exact inside _ marker

theorem operandSites_mapOps
    (h : ∀ block ∈ g.blocks, ∀ u ∈ block.ops, ∀ b : Block, ∀ i, opSites b i (φ u) = opSites b i u) :
    (g.mapOps φ).operandSites = g.operandSites := by
  unfold operandSites
  have sorted : sortBy (fun a b : Block => decide (a.rank ≤ b.rank)) (g.mapOps φ).blocks =
      (sortBy (fun a b : Block => decide (a.rank ≤ b.rank)) g.blocks).map (·.mapOps φ) := by
    apply sortBy_map
    intro _ _ _ _
    rfl
  dsimp only
  rw [sorted, List.flatMap_map]
  congr 1
  apply List.flatMap_congr
  intro block hblock
  have member : block ∈ g.blocks := (mem_sortBy _ block _).mp hblock
  simp only [Block.mapOps, List.zipIdx_map, List.flatMap_map]
  apply List.flatMap_congr
  rintro ⟨u, i⟩ hu
  exact h block member u (List.fst_mem_of_mem_zipIdx hu) _ i

end Graph

end AddressFormulas
