import AddressFormulas.Proofs.Loop.Shape

/-!
Where a cyclic path comes back to. From its start it runs into a ring that takes a back edge of the
loop. The start itself need not be on that ring, and the ring may take several back edges. Where all
rings of the loop pass through the start and take one back edge each, the path comes back to its
start around one back edge.
-/

namespace AddressFormulas.CyclicPath

def previous? (p : CyclicPath) (g : Graph) (b : Nat) : Option Nat :=
  (p.steps.lookup b).bind fun e => (g.edge? e).map Edge.source

def stepsBack? (p : CyclicPath) (g : Graph) : Nat → Nat → Option Nat
  | 0, b => some b
  | n + 1, b => (p.stepsBack? g n b).bind (p.previous? g)

/-- The path comes back to `start` when it has gone through its blocks, and takes one back edge of
the loop on the way. -/
structure ComesBack (g : Graph) (start marker : Nat) (p : CyclicPath) : Prop where
  returns : p.stepsBack? g p.blocks.length start = some start
  not_before : ∀ n, 0 < n → n < p.blocks.length → p.stepsBack? g n start ≠ some start
  once : p.chosen.countP (g.isLoopBackEdge marker) = 1

instance (g : Graph) (start marker : Nat) (p : CyclicPath) :
    Decidable (ComesBack g start marker p) :=
  decidable_of_iff (p.stepsBack? g p.blocks.length start = some start ∧
    (∀ n < p.blocks.length, 0 < n → p.stepsBack? g n start ≠ some start) ∧
    p.chosen.countP (g.isLoopBackEdge marker) = 1)
    ⟨fun ⟨h₁, h₂, h₃⟩ => ⟨h₁, fun n h h' => h₂ n h' h, h₃⟩,
      fun ⟨h₁, h₂, h₃⟩ => ⟨h₁, fun n h h' => h₂ n h' h, h₃⟩⟩

structure IsRing (g : Graph) (marker : Nat) (blocks edges : List Nat) : Prop where
  nodup : blocks.Nodup
  length : blocks.length = edges.length
  inside : ∀ b ∈ blocks, ∃ block, g.block? b = some block ∧ marker ≤ block.marker
  entered : ∀ i < blocks.length, ∃ e edge, edges[i]? = some e ∧ g.edge? e = some edge ∧
    blocks[i]? = some edge.sink ∧ blocks[(i + 1) % blocks.length]? = some edge.source

/-- Every ring that takes a back edge of loop `marker` passes through `start`, and takes only one. -/
def OneWayAround (g : Graph) (start marker : Nat) : Prop :=
  ∀ blocks edges, IsRing g marker blocks edges → edges.any (g.isLoopBackEdge marker) = true →
    start ∈ blocks ∧ edges.countP (g.isLoopBackEdge marker) = 1

section

variable {g : Graph} {start marker last back : Nat} {blocks edges : List Nat}

theorem Found.stepsBack? (h : Found g start marker blocks edges last) {n : Nat}
    (hn : n ≤ blocks.length) : (pathOf marker blocks edges back).stepsBack? g n start =
      blocks[if n < blocks.length then n else last]? := by
  induction n with
  | zero =>
    have pos : 0 < blocks.length := (List.getElem?_eq_some_iff.mp h.start_at).1
    rw [if_pos pos, h.start_at]
    rfl
  | succ n ih =>
    obtain ⟨e, edge, he, hedge, hsink, hsource⟩ := h.edge_at n (by omega)
    rw [CyclicPath.stepsBack?, ih (by omega), if_pos (by omega), hsink, Option.bind_some, previous?,
      lookup_zip h.nodup hsink he, Option.bind_some, hedge, Option.map_some, hsource]

theorem Found.isRing (h : Found g start marker blocks edges last)
    (hstart : ∃ block, g.block? start = some block ∧ marker ≤ block.marker) :
    IsRing g marker (blocks.drop last) (edges.drop last) where
  nodup := h.nodup.sublist (List.drop_sublist last blocks)
  length := by simp [h.length]
  inside b hb := by
    obtain ⟨i, hi⟩ := List.getElem?_of_mem (List.mem_of_mem_drop hb)
    cases i with
    | zero => exact Option.some.inj (hi.symm.trans h.start_at) ▸ hstart
    | succ i => exact h.inside b (List.mem_of_getElem? (by rwa [List.getElem?_tail]))
  entered i hi := by
    rw [List.length_drop] at hi
    obtain ⟨e, edge, he, hedge, hsink, hsource⟩ := h.edge_at (last + i) (by omega)
    refine ⟨e, edge, ?_, hedge, ?_, ?_⟩
    · rwa [List.getElem?_drop]
    · rwa [List.getElem?_drop]
    · rw [List.getElem?_drop, List.length_drop, ← hsource]
      congr 1
      by_cases hnext : i + 1 < blocks.length - last
      · rw [Nat.mod_eq_of_lt hnext, if_pos (by omega)]
        omega
      · rw [show i + 1 = blocks.length - last by omega, Nat.mod_self, if_neg (by omega)]
        rfl

theorem Found.any_drop (h : Found g start marker blocks edges last)
    (hb : edges.findIdx? (g.isLoopBackEdge marker) = some back) :
    (edges.drop last).any (g.isLoopBackEdge marker) = true := by
  rw [List.any_eq_true]
  obtain rfl | ⟨i, e, he, hback, hle⟩ := h.closes
  · obtain ⟨hlt, hback, _⟩ := List.findIdx?_eq_some_iff_getElem.mp hb
    exact ⟨edges[back], by simp, hback⟩
  · refine ⟨e, List.mem_of_getElem? (i := i - last) ?_, hback⟩
    rwa [List.getElem?_drop, Nat.add_sub_cancel' hle]

theorem Found.comesBack (h : Found g start marker blocks edges last)
    (hring : start ∈ blocks.drop last)
    (hone : (edges.drop last).countP (g.isLoopBackEdge marker) = 1) :
    ComesBack g start marker (pathOf marker blocks edges back) := by
  have pos : 0 < blocks.length := (List.getElem?_eq_some_iff.mp h.start_at).1
  obtain ⟨i, hi⟩ := List.getElem?_of_mem hring
  rw [List.getElem?_drop] at hi
  have hz := (List.getElem?_inj pos h.nodup).mp (h.start_at.trans hi.symm)
  obtain rfl : last = 0 := by omega
  refine ⟨?_, fun n hn hlt => ?_, ?_⟩
  · rw [h.blocks_eq, h.stepsBack? (Nat.le_refl _), if_neg (by omega), h.start_at]
  · rw [h.blocks_eq] at hlt
    rw [h.stepsBack? (by omega), if_pos hlt, ← h.start_at, ne_eq,
      List.getElem?_inj hlt h.nodup]
    omega
  · rwa [h.chosen_eq]

end

theorem countP_eq_one {α : Type} {p : α → Bool} {xs : List α} {x : α} {i : Nat}
    (hi : xs[i]? = some x) (hp : p x = true)
    (unique : ∀ j y, xs[j]? = some y → p y = true → j = i) : xs.countP p = 1 := by
  induction xs generalizing i with
  | nil => simp at hi
  | cons z zs ih =>
    rw [List.countP_cons]
    cases i with
    | zero =>
      obtain rfl : z = x := by simpa using hi
      have others : zs.countP p = 0 := by
        rw [List.countP_eq_zero]
        intro y hy hpy
        obtain ⟨j, hj⟩ := List.getElem?_of_mem hy
        cases unique (j + 1) y (by simpa using hj) hpy
      rw [others, if_pos hp]
    | succ i =>
      have hz : p z ≠ true := fun hpz => by cases unique 0 z (by simp) hpz
      rw [if_neg hz, Nat.add_zero]
      apply ih (by simpa using hi)
      intro j y hj hpy
      have := unique (j + 1) y (by simpa using hj) hpy
      omega

theorem oneWayAround_of_head {g : Graph} {head marker : Nat}
    (hh : ∀ e edge, g.edge? e = some edge → g.isLoopBackEdge marker e = true → edge.sink = head) :
    OneWayAround g head marker := by
  intro blocks edges h hany
  obtain ⟨e, he, hback⟩ := List.any_eq_true.mp hany
  obtain ⟨i, hi⟩ := List.getElem?_of_mem he
  have enters : ∀ (j f : Nat), edges[j]? = some f → g.isLoopBackEdge marker f = true →
      blocks[j]? = some head := by
    intro j f hj hf
    have hlt := (List.getElem?_eq_some_iff.mp hj).1
    obtain ⟨f', edge, hf', hedge, hsink, _⟩ := h.entered j (h.length ▸ hlt)
    obtain rfl : f' = f := Option.some.inj (hf'.symm.trans hj)
    rw [hsink, hh f' edge hedge hf]
  have at_head := enters i e hi hback
  refine ⟨List.mem_of_getElem? at_head, countP_eq_one hi hback fun j f hj hf => ?_⟩
  have hlt := (List.getElem?_eq_some_iff.mp hj).1
  exact (List.getElem?_inj (h.length ▸ hlt) h.nodup).mp ((enters j f hj hf).trans at_head.symm)

/-- A path runs into a ring that takes a back edge of the loop. If there is one way around the loop
from `start`, the path comes back to `start` when it has gone through its blocks. -/
theorem comesBack_of_build? {g : Graph} (hg : g.Built) {start marker : Nat}
    (hs : (g.block? start).map Block.marker = some marker) {p : CyclicPath}
    (h : build? g start marker = some p) :
    (∃ lead < p.blocks.length,
      (∀ n ≤ p.blocks.length, p.stepsBack? g n start =
        p.blocks[if n < p.blocks.length then n else lead]?) ∧
      IsRing g marker (p.blocks.drop lead) (p.chosen.drop lead) ∧
      (p.chosen.drop lead).any (g.isLoopBackEdge marker) = true) ∧
    (OneWayAround g start marker → ComesBack g start marker p) := by
  obtain ⟨first, hs, hm⟩ := Option.map_eq_some_iff.mp hs
  obtain ⟨blocks, edges, last, back, hf, hb, rfl⟩ := found_of_build? hg.wellFormed h
  have ring := hf.isRing ⟨first, hs, Nat.le_of_eq hm.symm⟩
  have any := hf.any_drop hb
  constructor
  · rw [hf.blocks_eq, hf.chosen_eq]
    exact ⟨last, hf.last_lt, fun n hn => hf.stepsBack? hn, ring, any⟩
  · intro hone
    obtain ⟨hmem, hcount⟩ := hone _ _ ring any
    exact hf.comesBack hmem hcount

theorem comesBack_of_build?_threeBlockLoop : ∃ p, build? threeBlockLoop 1 1 = some p ∧
    p.blocks = [1, 3, 2] ∧ ComesBack threeBlockLoop 1 1 p :=
  ⟨⟨1, [(1, 3), (3, 2), (2, 1)], [(3, 3), (2, 2), (1, 1)]⟩, by decide +kernel, rfl,
    (comesBack_of_build? threeBlockLoop_built rfl (by decide +kernel)).2
      (oneWayAround_of_head (by
        intro e edge he hback
        have hlt : e < 5 := (List.getElem?_eq_some_iff.mp he).1
        have only : ∀ e < 5, threeBlockLoop.isLoopBackEdge 1 e = true → e = 3 := by decide +kernel
        obtain rfl := only e hlt hback
        cases he
        rfl))⟩

def twoRingLoop : Graph where
  loopTree := [0, 0]
  blocks := [
    { id := 0, start := 0, stop := 0, rank := 0, marker := 1, incoming := [2, 3], outgoing := [0, 1] },
    { id := 1, start := 0, stop := 0, rank := 1, marker := 1, incoming := [0], outgoing := [2] },
    { id := 2, start := 0, stop := 0, rank := 2, marker := 1, incoming := [1], outgoing := [3] }]
  edges := [⟨0, 0, 1, false⟩, ⟨1, 0, 2, false⟩, ⟨2, 1, 0, true⟩, ⟨3, 2, 0, true⟩]

theorem twoRingLoop_built : twoRingLoop.Built :=
  @Graph.Built.addEdge _ 2 0 true (by decide) (by decide) <|
  @Graph.Built.addEdge _ 1 0 true (by decide) (by decide) <|
  @Graph.Built.addEdge _ 0 2 false (by decide) (by decide) <|
  @Graph.Built.addEdge _ 0 1 false (by decide) (by decide) <|
  .addBlock 2 1 [] <| .addBlock 1 1 [] <| .addBlock 0 1 [] <|
  .setLoopParents [0] rfl <| .empty ""

/-- A path need not come back to its start: from block 1 the search goes around the other ring. -/
theorem not_comesBack_twoRingLoop : twoRingLoop.Built ∧
    (twoRingLoop.block? 1).map Block.marker = some 1 ∧
    ∃ p, build? twoRingLoop 1 1 = some p ∧ p.blocks = [1, 0, 2] ∧
      p.stepsBack? twoRingLoop 3 1 = some 0 ∧ ¬ ComesBack twoRingLoop 1 1 p :=
  ⟨twoRingLoop_built, rfl, ⟨1, [(1, 0), (0, 3), (2, 1)], [(2, 3), (1, 2), (0, 1)]⟩,
    by decide +kernel, rfl, by decide +kernel, by decide +kernel⟩

def twoBackEdgeLoop : Graph where
  loopTree := [0, 0]
  blocks := [
    { id := 0, start := 0, stop := 0, rank := 0, marker := 1, incoming := [1], outgoing := [0] },
    { id := 1, start := 0, stop := 0, rank := 1, marker := 1, incoming := [0], outgoing := [1] }]
  edges := [⟨0, 0, 1, true⟩, ⟨1, 1, 0, true⟩]

theorem not_once_twoBackEdgeLoop : ∃ p, build? twoBackEdgeLoop 0 1 = some p ∧
    p.stepsBack? twoBackEdgeLoop p.blocks.length 0 = some 0 ∧
    p.chosen.countP (twoBackEdgeLoop.isLoopBackEdge 1) = 2 :=
  ⟨⟨1, [(0, 1), (1, 0)], [(1, 2), (0, 1)]⟩, by decide +kernel, by decide +kernel, by decide +kernel⟩

end AddressFormulas.CyclicPath
