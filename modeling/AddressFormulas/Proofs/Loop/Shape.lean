import AddressFormulas.Proofs.Loop.Circuit
import AddressFormulas.Proofs.Loop.Termination
import Mathlib.Order.Interval.Set.Defs
import Mathlib.Data.Set.Function

namespace AddressFormulas.CyclicPath

def chosen (p : CyclicPath) : List Nat := p.steps.map Prod.snd

structure HasShape (g : Graph) (start marker : Nat) (p : CyclicPath) : Prop where
  marker_eq : p.marker = marker
  first : p.blocks[0]? = some start
  nodup : p.blocks.Nodup
  inside : ∀ i b, 0 < i → p.blocks[i]? = some b → ∃ block, g.block? b = some block ∧
    marker ≤ block.marker
  entered : ∀ i b, p.blocks[i]? = some b → ∃ e edge, p.chosen[i]? = some e ∧
    g.edge? e = some edge ∧ edge.sink = b ∧
    if i + 1 < p.blocks.length then p.blocks[i + 1]? = some edge.source
    else edge.source ∈ p.blocks
  takes_iff : ∀ e, p.takesEdge g e = true ↔ e ∈ p.chosen
  chosen_nodup : p.chosen.Nodup
  chosen_length : p.chosen.length = p.blocks.length
  rank_bijOn : Set.BijOn p.rank {b | b ∈ p.blocks} (Set.Icc 1 p.blocks.length)
  rank_off : ∀ b, b ∉ p.blocks → p.rank b = 0
  rank_step : ∃ back, p.chosen.findIdx? (g.isLoopBackEdge marker) = some back ∧
    ∀ i b c, p.blocks[i]? = some b → p.blocks[i + 1]? = some c →
      if i = back then p.rank b = 1 ∧ p.rank c = p.blocks.length
      else p.rank c + 1 = p.rank b

theorem mem_of_lookup_zip {xs ys : List Nat} {x y : Nat} (h : (xs.zip ys).lookup x = some y) :
    ∃ i : Nat, xs[i]? = some x ∧ ys[i]? = some y := by
  induction xs generalizing ys with
  | nil => simp at h
  | cons x' xs ih =>
    cases ys with
    | nil => simp at h
    | cons y' ys =>
      rw [List.zip_cons_cons, List.lookup_cons] at h
      by_cases hx : x = x'
      · exact ⟨0, by simpa [hx] using h⟩
      · rw [beq_false_of_ne hx] at h
        obtain ⟨i, hi⟩ := ih h
        exact ⟨i + 1, by simpa using hi⟩

section

variable {g : Graph} {start marker last back : Nat} {blocks edges : List Nat}

theorem Found.chosen_eq (h : Found g start marker blocks edges last) :
    (pathOf marker blocks edges back).chosen = edges :=
  List.map_snd_zip (Nat.le_of_eq h.length.symm)

theorem Found.takesEdge_iff (h : Found g start marker blocks edges last) (e : Nat) :
    (pathOf marker blocks edges back).takesEdge g e = true ↔ e ∈ edges := by
  simp only [takesEdge, Option.any_eq_true, decide_eq_true_eq]
  constructor
  · rintro ⟨edge, _, hl⟩
    obtain ⟨i, _, hi⟩ := mem_of_lookup_zip hl
    exact List.mem_of_getElem? hi
  · intro he
    obtain ⟨i, hi⟩ := List.getElem?_of_mem he
    have hlt : i < blocks.length := h.length ▸ (List.getElem?_eq_some_iff.mp hi).1
    obtain ⟨e', edge, he', hedge, hsink, _⟩ := h.edge_at i hlt
    obtain rfl : e' = e := Option.some.inj (he'.symm.trans hi)
    exact ⟨edge, hedge, lookup_zip h.nodup hsink he'⟩

theorem Found.edges_nodup (h : Found g start marker blocks edges last) : edges.Nodup := by
  rw [List.nodup_iff_getElem?_ne_getElem?]
  intro i j hij hj heq
  obtain ⟨e, edge, he, hedge, hsink, _⟩ := h.edge_at i (by rw [h.length]; omega)
  obtain ⟨e', edge', he', hedge', hsink', _⟩ := h.edge_at j (by rw [h.length]; omega)
  obtain rfl : e = e' := Option.some.inj (he.symm.trans (heq.trans he'))
  obtain rfl : edge = edge' := Option.some.inj (hedge.symm.trans hedge')
  have := (List.getElem?_inj (by rw [h.length]; omega) h.nodup).mp (hsink.trans hsink'.symm)
  omega

theorem rank_pathOf_off {b : Nat} (hb : b ∉ blocks) :
    (pathOf marker blocks edges back).rank b = 0 := by
  unfold rank
  cases hl : (iterationRanks blocks (back + 1)).lookup b with
  | none => rfl
  | some r =>
    obtain ⟨i, hi, _⟩ := mem_of_lookup_zip hl
    have hm := List.mem_of_getElem? hi
    rw [List.mem_append] at hm
    exact absurd (hm.elim List.mem_of_mem_drop List.mem_of_mem_take) hb

theorem Found.rank_step (h : Found g start marker blocks edges last) (hb : back < edges.length)
    {i b c : Nat} (hi : blocks[i]? = some b) (hj : blocks[i + 1]? = some c) :
    if i = back then (pathOf marker blocks edges back).rank b = 1 ∧
      (pathOf marker blocks edges back).rank c = blocks.length
    else (pathOf marker blocks edges back).rank c + 1 = (pathOf marker blocks edges back).rank b := by
  have hlt := (List.getElem?_eq_some_iff.mp hj).1
  rw [h.rank_at hb hi, h.rank_at hb hj]
  split
  · next heq =>
    subst heq
    simp
  · next hne => split <;> split <;> omega

theorem Found.hasShape (h : Found g start marker blocks edges last)
    (hb : edges.findIdx? (g.isLoopBackEdge marker) = some back) :
    HasShape g start marker (pathOf marker blocks edges back) := by
  have hback : back < edges.length := (List.findIdx?_eq_some_iff_getElem.mp hb).1
  constructor <;> simp only [h.blocks_eq, h.chosen_eq]
  case first => exact h.start_at
  case nodup => exact h.nodup
  case inside =>
    intro i b hi hb
    obtain ⟨i, rfl⟩ : ∃ j, i = j + 1 := ⟨i - 1, by omega⟩
    apply h.inside b
    rw [← List.getElem?_tail] at hb
    exact List.mem_of_getElem? hb
  case entered =>
    intro i b hi
    have hlt := (List.getElem?_eq_some_iff.mp hi).1
    obtain ⟨e, edge, he, hedge, hsink, hsource⟩ := h.edge_at i hlt
    refine ⟨e, edge, he, hedge, Option.some.inj (hsink.symm.trans hi), ?_⟩
    split
    · next hnext => rwa [if_pos hnext] at hsource
    · next hnext =>
      rw [if_neg hnext] at hsource
      exact List.mem_of_getElem? hsource
  case takes_iff => exact h.takesEdge_iff
  case chosen_nodup => exact h.edges_nodup
  case chosen_length => exact h.length.symm
  case rank_bijOn => exact h.rank_bijOn hback
  case rank_off => exact fun b hm => rank_pathOf_off hm
  case rank_step => exact ⟨back, hb, fun i b c => h.rank_step hback⟩

end

/-- The search for a way around a loop ends, and what it finds has the shape of one. -/
theorem build?_hasShape {g : Graph} (hg : g.Built) (start marker : Nat) :
    Ends g start marker ∧ ∀ p, build? g start marker = some p → HasShape g start marker p := by
  refine ⟨ends hg.wellFormed start marker, fun p hp => ?_⟩
  obtain ⟨blocks, edges, last, back, hf, hb, rfl⟩ := found_of_build? hg.wellFormed hp
  exact hf.hasShape hb

def threeBlockLoop : Graph where
  loopTree := [0, 0]
  blocks := [{ id := 0, start := 0, stop := 0, rank := 0, marker := 0, outgoing := [0] },
    { id := 1, start := 0, stop := 0, rank := 1, marker := 1, incoming := [0, 3], outgoing := [1] },
    { id := 2, start := 0, stop := 0, rank := 2, marker := 1, incoming := [1], outgoing := [2] },
    { id := 3, start := 0, stop := 0, rank := 3, marker := 1, incoming := [2], outgoing := [3, 4] },
    { id := 4, start := 0, stop := 0, rank := 4, marker := 0, incoming := [4] }]
  edges := [⟨0, 0, 1, false⟩, ⟨1, 1, 2, false⟩, ⟨2, 2, 3, false⟩, ⟨3, 3, 1, true⟩, ⟨4, 3, 4, false⟩]

theorem threeBlockLoop_built : threeBlockLoop.Built :=
  @Graph.Built.addEdge _ 3 4 false (by decide) (by decide) <|
  @Graph.Built.addEdge _ 3 1 true (by decide) (by decide) <|
  @Graph.Built.addEdge _ 2 3 false (by decide) (by decide) <|
  @Graph.Built.addEdge _ 1 2 false (by decide) (by decide) <|
  @Graph.Built.addEdge _ 0 1 false (by decide) (by decide) <|
  .addBlock 4 0 [] <| .addBlock 3 1 [] <| .addBlock 2 1 [] <| .addBlock 1 1 [] <|
  .addBlock 0 0 [] <| .setLoopParents [0] rfl <| .empty ""

theorem build?_hasShape_threeBlockLoop : ∃ p, build? threeBlockLoop 2 1 = some p ∧
    p.blocks = [2, 1, 3] ∧ p.rank 3 = 3 ∧ HasShape threeBlockLoop 2 1 p :=
  ⟨⟨1, [(2, 1), (1, 3), (3, 2)], [(3, 3), (2, 2), (1, 1)]⟩, by decide +kernel, rfl, rfl,
    (build?_hasShape threeBlockLoop_built 2 1).2 _ (by decide +kernel)⟩

end AddressFormulas.CyclicPath
