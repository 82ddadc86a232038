import AddressFormulas.Proofs.Data.Sorting
import AddressFormulas.Proofs.Walk.Agreement

namespace AddressFormulas

variable {σ : Type}

def Block.unlist (block : Block) (refused : Nat → Bool) : Block :=
  { block with incoming := block.incoming.filter fun e => !refused e }

def Graph.unlist (g : Graph) (refused : Nat → Bool) : Graph :=
  { g with blocks := g.blocks.map (·.unlist refused) }

theorem Graph.block?_unlist (g : Graph) (refused : Nat → Bool) (b : Nat) :
    (g.unlist refused).block? b = (g.block? b).map (·.unlist refused) :=
  List.getElem?_map

theorem Graph.sourceRank_unlist (g : Graph) (refused : Nat → Bool) (e : Nat) :
    (g.unlist refused).sourceRank e = g.sourceRank e := by
  change Option.getD (((g.edge? e).bind _).map _) 0 = _
  unfold sourceRank
  cases g.edge? e with
  | none => rfl
  | some edge =>
    simp only [Option.bind_some, block?_unlist, Option.map_map]
    rfl

theorem Graph.incomingByRank_unlist (g : Graph) (refused : Nat → Bool) (block : Block) :
    (g.unlist refused).incomingByRank (block.unlist refused) =
      (g.incomingByRank block).filter fun e => !refused e := by
  simp only [incomingByRank, sourceRank_unlist]
  apply sortBy_filter
  · intro e e' e'' h h'
    simp only [decide_eq_true_eq] at h h' ⊢
    exact Int.le_trans h' h
  · intro e e' h
    simp only [decide_eq_false_iff_not, decide_eq_true_eq] at h ⊢
    omega

namespace Slicer

variable {s : Slicer σ} {g : Graph} {walk : WalkFor σ} {follow : FollowFor σ}
  {refused : Nat → Bool}

theorem walkAcross_unlist (e : Nat) (reg : Register) :
    walkAcross (g.unlist refused) walk e reg = walkAcross g walk e reg := by
  change (WalkM.require (g.edge? e) >>= _) = (WalkM.require (g.edge? e) >>= _)
  congr 1
  funext edge
  rw [Graph.block?_unlist]
  cases g.block? edge.source <;> rfl

theorem followAcross_unlist (e : Nat) (address : Formula) :
    followAcross (g.unlist refused) follow e address = followAcross g follow e address := by
  change (WalkM.require (g.edge? e) >>= _) = (WalkM.require (g.edge? e) >>= _)
  congr 1
  funext edge
  rw [Graph.block?_unlist]
  cases g.block? edge.source <;> rfl

section Refused

variable (hr : ∀ e reg, refused e = true → s.enterEdge e reg = pure false)

include hr

theorem alongEdges_unlist {α : Type} (reg : Register) (across : Nat → WalkM σ α) (enough : α → Bool)
    (last : WalkM σ α) (edges : List Nat) :
    s.alongEdges reg across enough last (edges.filter fun e => !refused e) =
      s.alongEdges reg across enough last edges := by
  induction edges with
  | nil => rfl
  | cons e edges ih =>
    by_cases he : refused e = true
    · rw [List.filter_cons_of_neg (by simp [he]), ih, alongEdges, hr e reg he]
      rfl
    · rw [List.filter_cons_of_pos (by simp [he]), alongEdges, alongEdges, ih]

theorem walkEdges_unlist (b : Nat) (reg : Register) (edges : List Nat) :
    s.walkEdges (g.unlist refused) walk b reg (edges.filter fun e => !refused e) =
      s.walkEdges g walk b reg edges := by
  simp only [walkEdges_eq, walkAcross_unlist]
  exact alongEdges_unlist hr reg _ _ _ edges

theorem followEdges_unlist (b : Nat) (address : Formula) (edges : List Nat) :
    s.followEdges (g.unlist refused) follow b address (edges.filter fun e => !refused e) =
      s.followEdges g follow b address edges := by
  simp only [followEdges_eq, followAcross_unlist]
  exact alongEdges_unlist hr .absent _ _ _ edges

theorem walkNext_unlist (b : Nat) (reg : Register) :
    s.walkNext (g.unlist refused) walk b reg = s.walkNext g walk b reg := by
  unfold walkNext
  rw [Graph.block?_unlist]
  cases g.block? b with
  | none => rfl
  | some block =>
    congr 1
    funext enter
    split
    · change s.walkEdges (g.unlist refused) walk b reg
        ((g.unlist refused).incomingByRank (block.unlist refused)) = _
      rw [Graph.incomingByRank_unlist, walkEdges_unlist hr]
      rfl
    · rfl

theorem walkStep_unlist :
    s.walkStep (g.unlist refused) walk follow = s.walkStep g walk follow := by
  funext p reg bounds
  unfold walkStep
  rw [Graph.block?_unlist]
  cases g.block? p.block with
  | none => rfl
  | some block =>
    rw [walkNext_unlist hr]
    rfl

theorem followStep_unlist :
    s.followStep (g.unlist refused) walk follow = s.followStep g walk follow := by
  funext p address
  unfold followStep
  rw [Graph.block?_unlist]
  cases g.block? p.block with
  | none => rfl
  | some block =>
    have edges : s.followEdges (g.unlist refused) follow p.block address
        (block.incoming.filter fun e => !refused e) = _ :=
      followEdges_unlist hr p.block address block.incoming
    simp only [Option.map_some, Block.unlist, WalkM.require, pure_bind, edges]

theorem walk_and_follow_unlist (n : Nat) :
    s.walk (g.unlist refused) n = s.walk g n ∧ s.follow (g.unlist refused) n = s.follow g n := by
  induction n with
  | zero => exact ⟨rfl, rfl⟩
  | succ n ih =>
    constructor
    · change s.walkStep _ (s.walk _ n) (s.follow _ n) = _
      rw [ih.1, ih.2, walkStep_unlist hr]
      rfl
    · change s.followStep _ (s.walk _ n) (s.follow _ n) = _
      rw [ih.1, ih.2, followStep_unlist hr]
      rfl

end Refused

end Slicer

end AddressFormulas
