import AddressFormulas.Proofs.Rules
import AddressFormulas.Routine.Graph

namespace AddressFormulas.Graph

def edgesInto (g : Graph) (b : Nat) : List Nat :=
  (List.range g.edges.length).filter fun e => (g.edge? e).any (·.sink = b)

def edgesOutOf (g : Graph) (b : Nat) : List Nat :=
  (List.range g.edges.length).filter fun e => (g.edge? e).any (·.source = b)

def spansOps (block : Block) : Prop :=
  match block.kind with
  | .code => block.start = (addressRange block.ops).1 ∧ block.stop = (addressRange block.ops).2
  | .surrogate _ => block.ops = []

structure WellFormed (g : Graph) : Prop where
  block_id : ∀ b block, g.block? b = some block → block.id = b
  edge_id : ∀ e edge, g.edge? e = some edge → edge.id = e
  source_lt : ∀ e edge, g.edge? e = some edge → edge.source < g.blocks.length
  sink_lt : ∀ e edge, g.edge? e = some edge → edge.sink < g.blocks.length
  incoming_eq : ∀ b block, g.block? b = some block → block.incoming = g.edgesInto b
  outgoing_eq : ∀ b block, g.block? b = some block → block.outgoing = g.edgesOutOf b
  spans : ∀ b block, g.block? b = some block → spansOps block
  routine_level : g.loopTree.head? = some 0
  parent_lt : ∀ m parent, 0 < m → g.loopTree[m]? = some parent → parent < m

inductive Built : Graph → Prop
  | empty (name : String) : Built { name }
  | rename {g : Graph} (name : String) : Built g → Built { g with name }
  | addBlock {g : Graph} (rank : Int) (marker : Nat) (ops : List MicroOp) :
      Built g → Built (g.addBlock rank marker ops)
  | addSurrogate {g : Graph} (rank : Int) (marker place target : Nat) :
      Built g → Built (g.addSurrogate rank marker place target)
  | addEdge {g : Graph} {source sink : Nat} (isBack : Bool) :
      source < g.blocks.length → sink < g.blocks.length → Built g →
        Built (g.addEdge source sink isBack)
  | setEntry {g : Graph} (b : Nat) : Built g → Built (g.setEntry b)
  | setRank {g : Graph} (b : Nat) (rank : Int) : Built g → Built (g.setRank b rank)
  | setMarker {g : Graph} (b marker : Nat) : Built g → Built (g.setMarker b marker)
  | setLoopParents {g h : Graph} (parents : List Nat) :
      g.setLoopParents parents = .ok h → Built g → Built h

theorem edgesInto_append {g h : Graph} {new : Edge} (he : h.edges = g.edges ++ [new]) (b : Nat) :
    h.edgesInto b = if new.sink = b then g.edgesInto b ++ [g.edges.length] else g.edgesInto b := by
  have old : (List.range g.edges.length).filter (fun e => (h.edge? e).any (·.sink = b)) =
      g.edgesInto b := by
    apply List.filter_congr
    intro e hm
    simp [edge?, he, List.getElem?_append_left (List.mem_range.mp hm)]
  simp only [edgesInto, he, List.length_append, List.length_singleton, List.range_succ,
    List.filter_append, old]
  by_cases hb : new.sink = b <;> simp [edge?, he, hb]

theorem edgesOutOf_append {g h : Graph} {new : Edge} (he : h.edges = g.edges ++ [new]) (b : Nat) :
    h.edgesOutOf b =
      if new.source = b then g.edgesOutOf b ++ [g.edges.length] else g.edgesOutOf b := by
  have old : (List.range g.edges.length).filter (fun e => (h.edge? e).any (·.source = b)) =
      g.edgesOutOf b := by
    apply List.filter_congr
    intro e hm
    simp [edge?, he, List.getElem?_append_left (List.mem_range.mp hm)]
  simp only [edgesOutOf, he, List.length_append, List.length_singleton, List.range_succ,
    List.filter_append, old]
  by_cases hb : new.source = b <;> simp [edge?, he, hb]

theorem mem_edgesInto {g : Graph} {b e : Nat} :
    e ∈ g.edgesInto b ↔ ∃ edge, g.edge? e = some edge ∧ edge.sink = b := by
  simp only [edgesInto, List.mem_filter, List.mem_range, Option.any_eq_true, decide_eq_true_eq]
  constructor
  · rintro ⟨_, h⟩; exact h
  · rintro ⟨edge, he, hs⟩
    exact ⟨(List.getElem?_eq_some_iff.mp he).1, edge, he, hs⟩

theorem mem_edgesOutOf {g : Graph} {b e : Nat} :
    e ∈ g.edgesOutOf b ↔ ∃ edge, g.edge? e = some edge ∧ edge.source = b := by
  simp only [edgesOutOf, List.mem_filter, List.mem_range, Option.any_eq_true, decide_eq_true_eq]
  constructor
  · rintro ⟨_, h⟩; exact h
  · rintro ⟨edge, he, hs⟩
    exact ⟨(List.getElem?_eq_some_iff.mp he).1, edge, he, hs⟩

theorem edgesInto_length_le {g : Graph} (he : ∀ e edge, g.edge? e = some edge →
    edge.sink < g.blocks.length) : g.edgesInto g.blocks.length = [] := by
  apply List.eq_nil_iff_forall_not_mem.mpr
  intro e hm
  obtain ⟨edge, h, hs⟩ := mem_edgesInto.mp hm
  have := he e edge h
  omega

theorem edgesOutOf_length_le {g : Graph} (he : ∀ e edge, g.edge? e = some edge →
    edge.source < g.blocks.length) : g.edgesOutOf g.blocks.length = [] := by
  apply List.eq_nil_iff_forall_not_mem.mpr
  intro e hm
  obtain ⟨edge, h, hs⟩ := mem_edgesOutOf.mp hm
  have := he e edge h
  omega

theorem getElem?_concat_eq_some {α : Type} {xs : List α} {a x : α} {i : Nat}
    (h : (xs ++ [a])[i]? = some x) : xs[i]? = some x ∨ i = xs.length ∧ x = a := by
  rw [List.getElem?_append] at h
  split at h
  · exact .inl h
  · rw [List.getElem?_singleton] at h
    split at h
    · exact .inr ⟨by omega, (Option.some.inj h).symm⟩
    · cases h

theorem block?_addNode {g : Graph} {start stop : Nat} {rank : Int} {marker : Nat}
    {kind : BlockKind} {ops : List MicroOp} {b : Nat} {block : Block}
    (h : (g.addNode start stop rank marker kind ops).block? b = some block) :
    g.block? b = some block ∨ b = g.blocks.length ∧
      block = { id := g.blocks.length, start, stop, rank, marker, kind, ops } :=
  getElem?_concat_eq_some h

theorem block?_modifyBlock {g : Graph} {n b : Nat} {f : Block → Block} {block : Block}
    (h : (g.modifyBlock n f).block? b = some block) :
    ∃ old, g.block? b = some old ∧ block = if b = n then f old else old := by
  simp only [block?, modifyBlock, List.getElem?_modify] at h
  obtain ⟨old, ho, he⟩ := Option.map_eq_some_iff.mp h
  refine ⟨old, ho, ?_⟩
  rw [← he]
  by_cases hb : b = n
  · simp [hb]
  · simp [hb, Ne.symm hb]

namespace WellFormed

variable {g : Graph}

theorem addNode (hg : g.WellFormed) (start stop : Nat) (rank : Int) (marker : Nat)
    (kind : BlockKind) (ops : List MicroOp)
    (hs : spansOps { id := g.blocks.length, start, stop, rank, marker, kind, ops }) :
    (g.addNode start stop rank marker kind ops).WellFormed where
  block_id b block h := by
    obtain h | ⟨rfl, rfl⟩ := block?_addNode h
    · exact hg.block_id b block h
    · rfl
  edge_id := hg.edge_id
  source_lt e edge h := by
    have := hg.source_lt e edge h
    simp only [Graph.addNode, List.length_append, List.length_singleton]
    omega
  sink_lt e edge h := by
    have := hg.sink_lt e edge h
    simp only [Graph.addNode, List.length_append, List.length_singleton]
    omega
  incoming_eq b block h := by
    change block.incoming = g.edgesInto b
    obtain h | ⟨rfl, rfl⟩ := block?_addNode h
    · exact hg.incoming_eq b block h
    · exact (edgesInto_length_le hg.sink_lt).symm
  outgoing_eq b block h := by
    change block.outgoing = g.edgesOutOf b
    obtain h | ⟨rfl, rfl⟩ := block?_addNode h
    · exact hg.outgoing_eq b block h
    · exact (edgesOutOf_length_le hg.source_lt).symm
  spans b block h := by
    obtain h | ⟨rfl, rfl⟩ := block?_addNode h
    · exact hg.spans b block h
    · exact hs
  routine_level := hg.routine_level
  parent_lt := hg.parent_lt

theorem modifyBlock (hg : g.WellFormed) (n : Nat) (f : Block → Block)
    (hf : ∀ block, (f block).id = block.id ∧ (f block).incoming = block.incoming ∧
      (f block).outgoing = block.outgoing ∧ (spansOps block → spansOps (f block))) :
    (g.modifyBlock n f).WellFormed where
  block_id b block h := by
    obtain ⟨old, ho, rfl⟩ := block?_modifyBlock h
    split
    · rw [(hf old).1, hg.block_id b old ho]
    · exact hg.block_id b old ho
  edge_id := hg.edge_id
  source_lt e edge h := by simpa [Graph.modifyBlock] using hg.source_lt e edge h
  sink_lt e edge h := by simpa [Graph.modifyBlock] using hg.sink_lt e edge h
  incoming_eq b block h := by
    change block.incoming = g.edgesInto b
    obtain ⟨old, ho, rfl⟩ := block?_modifyBlock h
    split
    · rw [(hf old).2.1, hg.incoming_eq b old ho]
    · exact hg.incoming_eq b old ho
  outgoing_eq b block h := by
    change block.outgoing = g.edgesOutOf b
    obtain ⟨old, ho, rfl⟩ := block?_modifyBlock h
    split
    · rw [(hf old).2.2.1, hg.outgoing_eq b old ho]
    · exact hg.outgoing_eq b old ho
  spans b block h := by
    obtain ⟨old, ho, rfl⟩ := block?_modifyBlock h
    split
    · exact (hf old).2.2.2 (hg.spans b old ho)
    · exact hg.spans b old ho
  routine_level := hg.routine_level
  parent_lt := hg.parent_lt

theorem addEdge (hg : g.WellFormed) {source sink : Nat} (isBack : Bool)
    (hs : source < g.blocks.length) (ht : sink < g.blocks.length) :
    (g.addEdge source sink isBack).WellFormed := by
  have edges : (g.addEdge source sink isBack).edges =
      g.edges ++ [⟨g.edges.length, source, sink, isBack⟩] := rfl
  have length : (g.addEdge source sink isBack).blocks.length = g.blocks.length := by
    simp [Graph.addEdge, Graph.modifyBlock]
  have edge : ∀ e x, (g.addEdge source sink isBack).edge? e = some x →
      g.edge? e = some x ∨ e = g.edges.length ∧ x = ⟨g.edges.length, source, sink, isBack⟩ := by
    intro e x h
    rw [edge?, edges] at h
    exact getElem?_concat_eq_some h
  have block : ∀ b x, (g.addEdge source sink isBack).block? b = some x → ∃ old,
      g.block? b = some old ∧ x.id = old.id ∧ (spansOps old → spansOps x) ∧
      (x.incoming = if sink = b then old.incoming ++ [g.edges.length] else old.incoming) ∧
      (x.outgoing = if source = b then old.outgoing ++ [g.edges.length] else old.outgoing) := by
    intro b x h
    obtain ⟨mid, hm, rfl⟩ := block?_modifyBlock h
    obtain ⟨old, ho, rfl⟩ := block?_modifyBlock hm
    refine ⟨old, ho, ?_⟩
    simp only [eq_comm (b := b)]
    by_cases hb : b = sink <;> by_cases hc : b = source <;> simp_all [spansOps]
  -- only the source and the sink change, and each lists the new edge after its others
  refine ⟨?_, ?_, ?_, ?_, ?_, ?_, ?_, hg.routine_level, hg.parent_lt⟩
  · intro b x h
    obtain ⟨old, ho, hi, _⟩ := block b x h
    rw [hi, hg.block_id b old ho]
  · intro e x h
    obtain h | ⟨rfl, rfl⟩ := edge e x h
    · exact hg.edge_id e x h
    · rfl
  · intro e x h
    rw [length]
    obtain h | ⟨rfl, rfl⟩ := edge e x h
    · exact hg.source_lt e x h
    · exact hs
  · intro e x h
    rw [length]
    obtain h | ⟨rfl, rfl⟩ := edge e x h
    · exact hg.sink_lt e x h
    · exact ht
  · intro b x h
    obtain ⟨old, ho, _, _, hi, _⟩ := block b x h
    rw [hi, edgesInto_append edges, hg.incoming_eq b old ho]
  · intro b x h
    obtain ⟨old, ho, _, _, _, hout⟩ := block b x h
    rw [hout, edgesOutOf_append edges, hg.outgoing_eq b old ho]
  · intro b x h
    obtain ⟨old, ho, _, hp, _⟩ := block b x h
    exact hp (hg.spans b old ho)

theorem mem_incoming (hg : g.WellFormed) {b e : Nat} {block : Block}
    (hb : g.block? b = some block) (he : e ∈ block.incoming) :
    ∃ edge, g.edge? e = some edge ∧ edge.sink = b := by
  rw [hg.incoming_eq b block hb] at he
  exact mem_edgesInto.mp he

end WellFormed

theorem checkLoopParents_keeps (first : Nat) (parents : List Nat) (g : Graph) :
    wp (checkLoopParents first parents)
      (fun _ h => h = g ∧ ∀ i parent, parents[i]? = some parent → parent < first + i)
      (fun _ h => h = g) g := by
  induction parents generalizing first with
  | nil => exact ⟨rfl, by simp⟩
  | cons p rest ih =>
    apply wp_ite
    · intro _
      exact rfl
    · intro small
      apply wp_imp (ih (first + 1))
      rintro _ h ⟨same, rest_lt⟩
      refine ⟨same, fun i parent hp => ?_⟩
      cases i with
      | zero =>
        obtain rfl : p = parent := by simpa using hp
        omega
      | succ i =>
        have := rest_lt i parent (by simpa using hp)
        omega

/-- Only the tree is set, and only once every parent has been looked at. -/
theorem assignLoopParents_keeps (parents : List Nat) (g : Graph) :
    wp (assignLoopParents parents)
      (fun _ h => h = { g with loopTree := 0 :: parents } ∧
        ∀ m parent, 0 < m → h.loopTree[m]? = some parent → parent < m)
      (fun _ h => h = g) g := by
  rw [assignLoopParents, wp_bind]
  apply wp_imp (checkLoopParents_keeps 1 parents g)
  rintro _ _ ⟨rfl, parent_lt⟩
  refine ⟨rfl, fun m parent hm hq => ?_⟩
  obtain ⟨i, rfl⟩ : ∃ i, m = i + 1 := ⟨m - 1, by omega⟩
  have := parent_lt i parent (by simpa using hq)
  omega

theorem setLoopParents_of_run {g h : Graph} {parents : List Nat}
    (run : (assignLoopParents parents).run g = .ok () h) : g.setLoopParents parents = .ok h := by
  rw [setLoopParents, run]

theorem setLoopParents_eq_ok {g h : Graph} {parents : List Nat}
    (hp : g.setLoopParents parents = .ok h) :
    h = { g with loopTree := 0 :: parents } ∧
      ∀ m parent, 0 < m → h.loopTree[m]? = some parent → parent < m := by
  unfold setLoopParents at hp
  split at hp
  · next run =>
    cases hp
    exact (wp_ok (assignLoopParents_keeps parents g) run :)
  · cases hp

theorem WellFormed.setLoopParents {g h : Graph} (hg : g.WellFormed) {parents : List Nat}
    (hp : g.setLoopParents parents = .ok h) : h.WellFormed := by
  obtain ⟨rfl, parent_lt⟩ := setLoopParents_eq_ok hp
  exact ⟨hg.block_id, hg.edge_id, hg.source_lt, hg.sink_lt, hg.incoming_eq, hg.outgoing_eq, hg.spans,
    rfl, parent_lt⟩

theorem Built.wellFormed {g : Graph} (hg : g.Built) : g.WellFormed := by
  induction hg with
  | empty name =>
    refine ⟨by simp [block?], by simp [edge?], by simp [edge?], by simp [edge?], by simp [block?],
      by simp [block?], by simp [block?], rfl, ?_⟩
    intro m parent hm hp
    have := (List.getElem?_eq_some_iff.mp hp).1
    simp at this
    omega
  | rename name _ ih =>
    exact ⟨ih.block_id, ih.edge_id, ih.source_lt, ih.sink_lt, ih.incoming_eq, ih.outgoing_eq,
      ih.spans, ih.routine_level, ih.parent_lt⟩
  | addBlock rank marker ops _ ih => exact ih.addNode _ _ _ _ _ _ ⟨rfl, rfl⟩
  | addSurrogate rank marker place target _ ih => exact ih.addNode _ _ _ _ _ _ rfl
  | addEdge isBack hs ht _ ih => exact ih.addEdge isBack hs ht
  | setEntry b _ ih => exact ih.modifyBlock b _ (fun _ => ⟨rfl, rfl, rfl, id⟩)
  | setRank b rank _ ih => exact ih.modifyBlock b _ (fun _ => ⟨rfl, rfl, rfl, id⟩)
  | setMarker b marker _ ih => exact ih.modifyBlock b _ (fun _ => ⟨rfl, rfl, rfl, id⟩)
  | setLoopParents parents h _ ih => exact ih.setLoopParents h

end AddressFormulas.Graph
