import AddressFormulas.Proofs.Data.Sorting
import AddressFormulas.Proofs.Routine.WellFormed

namespace AddressFormulas

inductive Change where
  | addBlock (rank : Int) (marker : Nat) (ops : List MicroOp)
  | addSurrogate (rank : Int) (marker place target : Nat)
  | addEdge (source sink : Nat) (isBack : Bool)
  | setEntry (b : Nat)
  | setRank (b : Nat) (rank : Int)
  | setMarker (b marker : Nat)
  | setLoopParents (parents : List Nat)

namespace Change

def Allowed (g : Graph) : Change → Prop
  | addEdge source sink _ => source < g.blocks.length ∧ sink < g.blocks.length
  | _ => True

def make : Change → EStateM Failure Graph Unit
  | addBlock rank marker ops => modify (·.addBlock rank marker ops)
  | addSurrogate rank marker place target => modify (·.addSurrogate rank marker place target)
  | addEdge source sink isBack => modify (·.addEdge source sink isBack)
  | setEntry b => modify (·.setEntry b)
  | setRank b rank => modify (·.setRank b rank)
  | setMarker b marker => modify (·.setMarker b marker)
  | setLoopParents parents => Graph.assignLoopParents parents

/-- A call that is made keeps the routine in order; one that is refused keeps it as it is. -/
theorem make_built {c : Change} {g : Graph} (hg : g.Built) (hc : c.Allowed g) :
    wp c.make (fun _ h => h.Built) (fun _ h => h = g) g := by
  cases c with
  | addBlock rank marker ops => exact .addBlock rank marker ops hg
  | addSurrogate rank marker place target => exact .addSurrogate rank marker place target hg
  | addEdge source sink isBack => exact .addEdge isBack hc.1 hc.2 hg
  | setEntry b => exact .setEntry b hg
  | setRank b rank => exact .setRank b rank hg
  | setMarker b marker => exact .setMarker b marker hg
  | setLoopParents parents =>
    have kept := Graph.assignLoopParents_keeps parents g
    apply wp_mono (wp_run (Graph.assignLoopParents parents) g)
    · intro _ h run
      exact .setLoopParents parents (Graph.setLoopParents_of_run run) hg
    · intro f h run
      exact wp_error (E := fun _ h => h = g) kept run

end Change

namespace Graph

inductive Reached (name : String) : Graph → Prop
  | new : Reached name { name }
  | made {g h : Graph} {c : Change} :
      Reached name g → c.Allowed g → c.make.run g = .ok () h → Reached name h
  | refused {g h : Graph} {c : Change} {f : Failure} :
      Reached name g → c.Allowed g → c.make.run g = .error f h → Reached name h

theorem Reached.built {name : String} {g : Graph} (hg : Reached name g) : g.Built := by
  induction hg with
  | new => exact .empty name
  | made _ allowed run ih => exact wp_ok (Change.make_built ih allowed) run
  | refused _ allowed run ih =>
    have same := wp_error (Change.make_built ih allowed) run
    rwa [same]

/-- Edge `e` comes from a block of greater rank than edge `f`, or it comes from one of the same rank
and was added before. -/
def TriedBefore (g : Graph) (e f : Nat) : Prop :=
  g.sourceRank f < g.sourceRank e ∨ g.sourceRank e = g.sourceRank f ∧ e < f

theorem incomingByRank_pairwise {g : Graph} {block : Block}
    (h : block.incoming.Pairwise (· < ·)) : (g.incomingByRank block).Pairwise g.TriedBefore := by
  apply pairwise_sortBy
  · intro e _ f _ hef
    simp only [decide_eq_false_iff_not, Int.not_le] at hef
    exact .inl hef
  · intro e _ f _ f' _ hef hff'
    simp only [decide_eq_true_eq] at hef ⊢
    obtain lower | ⟨same, _⟩ := hff'
    · omega
    · omega
  · apply h.imp
    intro e f hlt hef
    simp only [decide_eq_true_eq] at hef
    exact (Int.lt_or_eq_of_le hef).imp id fun same => ⟨same.symm, hlt⟩

structure Consistent (g : Graph) : Prop where
  block_id : ∀ b block, g.block? b = some block → block.id = b
  edge_id : ∀ e edge, g.edge? e = some edge → edge.id = e
  ends : ∀ e edge, g.edge? e = some edge → ∃ source sink, g.block? edge.source = some source ∧
    g.block? edge.sink = some sink ∧ g.sourceRank e = source.rank
  incoming : ∀ b block, g.block? b = some block → block.incoming.Pairwise (· < ·) ∧
    ∀ e, e ∈ block.incoming ↔ ∃ edge, g.edge? e = some edge ∧ edge.sink = b
  outgoing : ∀ b block, g.block? b = some block → block.outgoing.Pairwise (· < ·) ∧
    ∀ e, e ∈ block.outgoing ↔ ∃ edge, g.edge? e = some edge ∧ edge.source = b
  routine_level : g.loopTree[0]? = some 0
  parent_lt : ∀ m parent, 0 < m → g.loopTree[m]? = some parent → parent < m
  byRank : ∀ b block, g.block? b = some block → (g.incomingByRank block).Perm block.incoming ∧
    (g.incomingByRank block).Pairwise g.TriedBefore

theorem edgesInto_pairwise (g : Graph) (b : Nat) : (g.edgesInto b).Pairwise (· < ·) :=
  List.pairwise_lt_range.filter _

theorem edgesOutOf_pairwise (g : Graph) (b : Nat) : (g.edgesOutOf b).Pairwise (· < ·) :=
  List.pairwise_lt_range.filter _

theorem WellFormed.consistent {g : Graph} (hg : g.WellFormed) : g.Consistent where
  block_id := hg.block_id
  edge_id := hg.edge_id
  ends e edge he := by
    have hs := List.getElem?_eq_getElem (hg.source_lt e edge he)
    have ht := List.getElem?_eq_getElem (hg.sink_lt e edge he)
    refine ⟨_, _, hs, ht, ?_⟩
    simp [sourceRank, block?, he, hs]
  incoming b block hb := by
    rw [hg.incoming_eq b block hb]
    exact ⟨g.edgesInto_pairwise b, fun e => mem_edgesInto⟩
  outgoing b block hb := by
    rw [hg.outgoing_eq b block hb]
    exact ⟨g.edgesOutOf_pairwise b, fun e => mem_edgesOutOf⟩
  routine_level := List.head?_eq_getElem?.symm.trans hg.routine_level
  parent_lt := hg.parent_lt
  byRank b block hb := by
    refine ⟨sortBy_perm _ _, incomingByRank_pairwise ?_⟩
    rw [hg.incoming_eq b block hb]
    exact g.edgesInto_pairwise b

theorem consistent_of_reached {name : String} {g : Graph} (hg : Reached name g) :
    g.Consistent ∧ ∀ (parents : List Nat) (f : Failure) (h : Graph),
      (Change.setLoopParents parents).make.run g = .error f h → h = g := by
  refine ⟨hg.built.wellFormed.consistent, fun parents f h refused => ?_⟩
  have kept := Change.make_built (c := .setLoopParents parents) hg.built trivial
  exact wp_error (E := fun _ h => h = g) kept refused

def loopedPair : Graph :=
  let entry : Block :=
    { id := 0, start := 0, stop := 0, rank := 1, marker := 0, isEntry := true, outgoing := [0, 2] }
  let body : Block :=
    { id := 1, start := 8, stop := 8, rank := 3, marker := 1, kind := .surrogate 9,
      incoming := [0, 1, 2], outgoing := [1] }
  { name := "pair"
    blocks := [entry, body]
    edges := [⟨0, 0, 1, false⟩, ⟨1, 1, 1, true⟩, ⟨2, 0, 1, false⟩]
    loopTree := [0, 0] }

theorem reached_loopedPair : Reached "pair" loopedPair := by
  have empty : Reached "pair" { name := "pair" } := .new
  have blocks := (empty.made (c := .addBlock 1 0 []) trivial rfl).made
    (c := .addSurrogate 1 0 8 9) trivial rfl
  have edges := ((blocks.made (c := .addEdge 0 1 false) ⟨by decide, by decide⟩ rfl).made
    (c := .addEdge 1 1 true) ⟨by decide, by decide⟩ rfl).made
    (c := .addEdge 0 1 false) ⟨by decide, by decide⟩ rfl
  have loops := (edges.made (c := .setLoopParents [0]) trivial rfl).refused
    (c := .setLoopParents [0, 2]) trivial rfl
  exact ((loops.made (c := .setEntry 0) trivial rfl).made (c := .setRank 1 3) trivial rfl).made
    (c := .setMarker 1 1) trivial rfl

theorem consistent_of_reached_loopedPair : Reached "pair" loopedPair ∧ loopedPair.Consistent ∧
    (loopedPair.block? 1).map loopedPair.incomingByRank = some [1, 0, 2] ∧
    (Change.setLoopParents [1]).make.run loopedPair =
      .error (.badLoopParent 1 1) loopedPair :=
  ⟨reached_loopedPair, (consistent_of_reached reached_loopedPair).1, by decide, rfl⟩

end Graph

end AddressFormulas
