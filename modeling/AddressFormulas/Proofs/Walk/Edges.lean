import AddressFormulas.Walk.Engine

namespace AddressFormulas.Slicer

variable {σ α : Type}

def walkAcross (g : Graph) (walk : WalkFor σ) (e : Nat) (reg : Register) : WalkM σ Unit := do
  let edge ← WalkM.require (g.edge? e)
  let source ← WalkM.require (g.block? edge.source)
  walk ⟨edge.source, source.ops.length⟩ reg (← get).bounds

def followAcross (g : Graph) (follow : FollowFor σ) (e : Nat) (address : Formula) :
    WalkM σ (Option Register) := do
  let edge ← WalkM.require (g.edge? e)
  let source ← WalkM.require (g.block? edge.source)
  follow ⟨edge.source, source.ops.length⟩ address

def alongEdges (s : Slicer σ) (reg : Register) (across : Nat → WalkM σ α) (enough : α → Bool)
    (last : WalkM σ α) : List Nat → WalkM σ α
  | [] => last
  | e :: rest => do
    if ← s.enterEdge e reg then
      let a ← across e
      s.leaveEdge e reg
      if enough a then return a
      if ← s.tryOthers e reg then alongEdges s reg across enough last rest else return a
    else alongEdges s reg across enough last rest

variable {s : Slicer σ} {g : Graph}

theorem walkEdges_cons (walk : WalkFor σ) (b : Nat) (reg : Register) (e : Nat) (rest : List Nat) :
    s.walkEdges g walk b reg (e :: rest) = (do
      if ← s.enterEdge e reg then
        walkAcross g walk e reg
        s.leaveEdge e reg
        if ← s.tryOthers e reg then s.walkEdges g walk b reg rest
      else s.walkEdges g walk b reg rest) := by
  simp only [walkEdges, walkAcross, bind_assoc]

theorem followEdges_cons (follow : FollowFor σ) (b : Nat) (address : Formula) (e : Nat)
    (rest : List Nat) :
    s.followEdges g follow b address (e :: rest) = (do
      if ← s.enterEdge e .absent then
        let found ← followAcross g follow e address
        s.leaveEdge e .absent
        if found.isSome then return found
        if ← s.tryOthers e .absent then s.followEdges g follow b address rest else return none
      else s.followEdges g follow b address rest) := by
  simp only [followEdges, followAcross, bind_assoc]

theorem walkEdges_eq (walk : WalkFor σ) (b : Nat) (reg : Register) (edges : List Nat) :
    s.walkEdges g walk b reg edges =
      s.alongEdges reg (fun e => walkAcross g walk e reg) (fun _ => false) (s.leaveBlock b reg) edges := by
  induction edges with
  | nil => rfl
  | cons e rest ih =>
    rw [walkEdges_cons, ih]
    rfl

theorem followEdges_eq (follow : FollowFor σ) (b : Nat) (address : Formula) (edges : List Nat) :
    s.followEdges g follow b address edges =
      s.alongEdges .absent (fun e => followAcross g follow e address) Option.isSome
        (do s.leaveBlock b .absent; return none) edges := by
  induction edges with
  | nil => rfl
  | cons e rest ih =>
    rw [followEdges_cons, ih, alongEdges]
    congr 1
    funext entered
    split
    · congr 1
      funext found
      cases found <;> rfl
    · rfl

end AddressFormulas.Slicer
