import AddressFormulas.Proofs.Data.Sorting
import AddressFormulas.Proofs.Routine.Order

namespace AddressFormulas

def makeRoom (e i : Nat) : Nat := if i < e then i else i + 1

/-- A block after edge `e` was split: out of the block goes `e`, into the block comes `e + 1`. -/
def Block.renumber (block : Block) (e : Nat) : Block :=
  { block with
    incoming := block.incoming.map (makeRoom e)
    outgoing := block.outgoing.map (makeRoom (e + 1)) }

namespace Graph

/-- Put a block without micro-ops, at the addresses from `start` to `stop`, into edge `e`. -/
def splitEdge (g : Graph) (e marker start stop : Nat) : Graph :=
  match g.edge? e with
  | none => g
  | some edge =>
    let new := g.blocks.length
    { g with
      blocks := g.blocks.map (·.renumber e) ++
        [{ id := new, start, stop, rank := g.sourceRank e, marker, incoming := [e],
           outgoing := [e + 1] }]
      edges := g.edges.take e ++
        ⟨e, edge.source, new, edge.isBack⟩ :: ⟨e + 1, new, edge.sink, false⟩ ::
          (g.edges.drop (e + 1)).map fun other => { other with id := other.id + 1 } }

def turnBack (g : Graph) (e : Nat) : Graph :=
  { g with edges := g.edges.modify e ({ · with isBack := true }) }

section Split

variable {g : Graph} {e : Nat} {edge : Edge} (he : g.edge? e = some edge) (marker start stop : Nat)

include he

theorem blocks_splitEdge :
    (g.splitEdge e marker start stop).blocks = g.blocks.map (·.renumber e) ++
      [{ id := g.blocks.length, start, stop, rank := g.sourceRank e, marker, incoming := [e],
         outgoing := [e + 1] }] := by
  simp only [splitEdge, he]

theorem edges_splitEdge :
    (g.splitEdge e marker start stop).edges = g.edges.take e ++
      ⟨e, edge.source, g.blocks.length, edge.isBack⟩ :: ⟨e + 1, g.blocks.length, edge.sink, false⟩ ::
        (g.edges.drop (e + 1)).map fun other => { other with id := other.id + 1 } := by
  simp only [splitEdge, he]

theorem block?_splitEdge {b : Nat} {block : Block} (hb : g.block? b = some block) :
    (g.splitEdge e marker start stop).block? b = some (block.renumber e) := by
  have inside : b < g.blocks.length := (List.getElem?_eq_some_iff.mp hb).1
  rw [block?, blocks_splitEdge he, List.getElem?_append_left (by simpa using inside),
    List.getElem?_map]
  exact congrArg _ hb

theorem newBlock_splitEdge :
    (g.splitEdge e marker start stop).block? g.blocks.length =
      some { id := g.blocks.length, start, stop, rank := g.sourceRank e, marker, incoming := [e],
             outgoing := [e + 1] } := by
  rw [block?, blocks_splitEdge he, List.getElem?_append_right (by simp)]
  simp

theorem length_take_edge : (g.edges.take e).length = e := by
  have inside := (List.getElem?_eq_some_iff.mp he).1
  rw [List.length_take]
  omega

theorem edge?_into_splitEdge :
    (g.splitEdge e marker start stop).edge? e =
      some ⟨e, edge.source, g.blocks.length, edge.isBack⟩ := by
  have before := length_take_edge he
  rw [edge?, edges_splitEdge he, List.getElem?_append_right (by omega)]
  simp [before]

theorem edge?_outOf_splitEdge :
    (g.splitEdge e marker start stop).edge? (e + 1) =
      some ⟨e + 1, g.blocks.length, edge.sink, false⟩ := by
  have before := length_take_edge he
  rw [edge?, edges_splitEdge he, List.getElem?_append_right (by omega)]
  simp [before]

theorem edge?_splitEdge {i : Nat} (hi : i ≠ e) :
    ((g.splitEdge e marker start stop).edge? (makeRoom e i)).map
        (fun edge => (edge.source, edge.sink, edge.isBack)) =
      (g.edge? i).map fun edge => (edge.source, edge.sink, edge.isBack) := by
  have before := length_take_edge he
  rw [edge?, edges_splitEdge he, makeRoom]
  split
  · rw [List.getElem?_append_left (by omega), List.getElem?_take_of_lt (by omega)]
    rfl
  · obtain ⟨k, rfl⟩ : ∃ k, i = e + 1 + k := ⟨i - (e + 1), by omega⟩
    have place : e + 1 + k + 1 - e = k + 2 := by omega
    rw [List.getElem?_append_right (by omega), before, place]
    simp only [List.getElem?_cons_succ, List.getElem?_map, List.getElem?_drop, Option.map_map]
    rfl

end Split

theorem makeRoom_self (e : Nat) : makeRoom e e = e + 1 := by simp [makeRoom]

/-- Seen from its blocks, `g'` is `g` with edge `e` split. Nothing is said about what lies within
the split edge, except that no callee can be seen there. -/
structure SeenAsSplit (g g' : Graph) (e : Nat) : Prop where
  block : ∀ b block, g.block? b = some block → g'.block? b = some (block.renumber e)
  ends : ∀ i, i ≠ e → (g'.edge? (makeRoom e i)).map (fun edge => (edge.source, edge.sink, edge.isBack)) =
    (g.edge? i).map fun edge => (edge.source, edge.sink, edge.isBack)
  rank : ∀ i, g'.sourceRank (makeRoom e i) = g.sourceRank i
  code : ∃ edge block, g.edge? e = some edge ∧ g.block? edge.sink = some block ∧ block.kind = .code
  code' : ∃ edge block, g'.edge? e = some edge ∧ g'.block? edge.sink = some block ∧ block.kind = .code

namespace SeenAsSplit

variable {g g' : Graph} {e : Nat}

theorem edge (h : g.SeenAsSplit g' e) {i : Nat} (hi : i ≠ e) :
    g.edge? i = none ∧ g'.edge? (makeRoom e i) = none ∨
      ∃ edge id, g.edge? i = some edge ∧ g'.edge? (makeRoom e i) = some { edge with id } := by
  have ends := h.ends i hi
  cases hold : g.edge? i with
  | none =>
    rw [hold] at ends
    exact .inl ⟨rfl, by simpa using ends⟩
  | some edge =>
    rw [hold] at ends
    obtain ⟨⟨id, source, sink, isBack⟩, hnew, same⟩ := Option.map_eq_some_iff.mp ends
    obtain ⟨rfl, rfl, rfl⟩ : source = edge.source ∧ sink = edge.sink ∧ isBack = edge.isBack := by
      simpa using same
    exact .inr ⟨edge, id, rfl, hnew⟩

theorem incomingByRank (h : g.SeenAsSplit g' e) (block : Block) :
    g'.incomingByRank (block.renumber e) = (g.incomingByRank block).map (makeRoom e) := by
  unfold Graph.incomingByRank Block.renumber
  apply sortBy_map
  intro i _ j _
  rw [h.rank, h.rank]

end SeenAsSplit

theorem seenAsSplit_splitEdge {g : Graph} (hg : g.WellFormed) {e : Nat} {edge : Edge}
    (he : g.edge? e = some edge) {sink : Block} (hs : g.block? edge.sink = some sink)
    (hc : sink.kind = .code) (marker start stop : Nat) :
    g.SeenAsSplit (g.splitEdge e marker start stop) e where
  block _ _ hb := block?_splitEdge he marker start stop hb
  ends _ hi := edge?_splitEdge he marker start stop hi
  rank i := by
    by_cases hi : i = e
    · subst hi
      simp only [sourceRank, makeRoom_self, edge?_outOf_splitEdge he, Option.bind_some,
        newBlock_splitEdge he, Option.map_some, Option.getD_some]
    · have same := congrArg (Option.map Prod.fst) (edge?_splitEdge he marker start stop hi)
      simp only [Option.map_map] at same
      cases hold : g.edge? i with
      | none =>
        rw [hold] at same
        have gone : (g.splitEdge e marker start stop).edge? (makeRoom e i) = none := by
          simpa using same
        simp only [sourceRank, hold, gone]
        rfl
      | some other =>
        rw [hold] at same
        obtain ⟨other', hnew, source⟩ := Option.map_eq_some_iff.mp same
        have source : other'.source = other.source := source
        have inside := hg.source_lt i other hold
        have block : g.block? other.source = some g.blocks[other.source] :=
          List.getElem?_eq_getElem inside
        simp only [sourceRank, hnew, hold, Option.bind_some, source, block,
          block?_splitEdge he marker start stop block]
        rfl
  code := ⟨edge, sink, he, hs, hc⟩
  code' := ⟨_, _, edge?_into_splitEdge he marker start stop, newBlock_splitEdge he marker start stop, rfl⟩

theorem edge?_turnBack (g : Graph) (e i : Nat) :
    (g.turnBack e).edge? i =
      (g.edge? i).map fun edge => if i = e then { edge with isBack := true } else edge := by
  simp only [edge?, turnBack, List.getElem?_modify, eq_comm (a := e)]
  split <;> rfl

theorem SeenAsSplit.turnBack {g g' : Graph} {e : Nat} (h : g.SeenAsSplit g' e) :
    (g.turnBack e).SeenAsSplit g' e where
  block := h.block
  ends i hi := by
    rw [h.ends i hi, edge?_turnBack]
    simp [hi]
  rank i := by
    rw [h.rank]
    unfold sourceRank
    rw [edge?_turnBack]
    cases g.edge? i with
    | none => rfl
    | some edge =>
      by_cases hi : i = e
      · simp only [Option.map_some, if_pos hi]
        rfl
      · simp only [Option.map_some, if_neg hi]
        rfl
  code := by
    obtain ⟨edge, block, he, hb, hk⟩ := h.code
    exact ⟨{ edge with isBack := true }, block, by simp [edge?_turnBack, he], hb, hk⟩
  code' := h.code'

theorem WellFormed.turnBack {g : Graph} (hg : g.WellFormed) (e : Nat) :
    (g.turnBack e).WellFormed := by
  have old : ∀ i edge, (g.turnBack e).edge? i = some edge → ∃ edge', g.edge? i = some edge' ∧
      edge.id = edge'.id ∧ edge.source = edge'.source ∧ edge.sink = edge'.sink := by
    intro i edge h
    rw [edge?_turnBack] at h
    obtain ⟨edge', h', rfl⟩ := Option.map_eq_some_iff.mp h
    refine ⟨edge', h', ?_⟩
    split
    · exact ⟨rfl, rfl, rfl⟩
    · exact ⟨rfl, rfl, rfl⟩
  have length : (g.turnBack e).edges.length = g.edges.length := by simp [Graph.turnBack]
  refine ⟨hg.block_id, ?_, ?_, ?_, ?_, ?_, hg.spans, hg.routine_level, hg.parent_lt⟩
  · intro i edge h
    obtain ⟨edge', h', id, _, _⟩ := old i edge h
    rw [id, hg.edge_id i edge' h']
  · intro i edge h
    obtain ⟨edge', h', _, source, _⟩ := old i edge h
    rw [source]
    exact hg.source_lt i edge' h'
  · intro i edge h
    obtain ⟨edge', h', _, _, sink⟩ := old i edge h
    rw [sink]
    exact hg.sink_lt i edge' h'
  · intro b block hb
    rw [hg.incoming_eq b block hb, edgesInto, edgesInto, length]
    apply List.filter_congr
    intro i _
    rw [edge?_turnBack]
    cases g.edge? i <;> by_cases hi : i = e <;> simp [hi]
  · intro b block hb
    rw [hg.outgoing_eq b block hb, edgesOutOf, edgesOutOf, length]
    apply List.filter_congr
    intro i _
    rw [edge?_turnBack]
    cases g.edge? i <;> by_cases hi : i = e <;> simp [hi]

theorem ForwardAcyclic.turnBack {g : Graph} (ha : g.ForwardAcyclic) (e : Nat) :
    (g.turnBack e).ForwardAcyclic := by
  intro b cycle
  apply ha b
  refine Relation.TransGen.mono ?_ _ _ cycle
  rintro a c ⟨i, edge, hi, hf, rfl, rfl⟩
  rw [edge?_turnBack] at hi
  obtain ⟨edge', hi', rfl⟩ := Option.map_eq_some_iff.mp hi
  split at hf
  · cases hf
  · next other =>
    rw [if_neg other]
    exact ⟨i, edge', hi', hf, rfl, rfl⟩

end Graph

end AddressFormulas
