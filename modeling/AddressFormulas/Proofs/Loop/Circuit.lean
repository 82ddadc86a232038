import AddressFormulas.Proofs.Loop.Trail
import Mathlib.Data.List.Perm.Subperm
import Mathlib.Data.Set.Function
import Mathlib.Order.Interval.Set.Defs

namespace AddressFormulas.CyclicPath

structure IsCircuit (g : Graph) (marker : Nat) (p : CyclicPath) (low top : Nat) : Prop where
  low_le : low ≤ top
  top_le : top ≤ g.blocks.length
  rank_pos : ∀ b ∈ p.blocks, 0 < p.rank b
  rank_le : ∀ b ∈ p.blocks, p.rank b ≤ top
  rank_inj : ∀ b ∈ p.blocks, ∀ c ∈ p.blocks, p.rank b = p.rank c → b = c
  step : ∀ b ∈ p.blocks, ∃ e edge, p.steps.lookup b = some e ∧ g.edge? e = some edge ∧
    edge.sink = b ∧ edge.source ∈ p.blocks ∧
    if g.isLoopBackEdge marker e then p.rank b = 1 ∧ (low < top → p.rank edge.source = top)
    else (p.rank b ≠ low + 1 → p.rank edge.source + 1 = p.rank b) ∧
      (p.rank b = low + 1 → p.rank edge.source ≤ low)

theorem lookup_zip {xs ys : List Nat} (hn : xs.Nodup) {i x y : Nat} (hx : xs[i]? = some x)
    (hy : ys[i]? = some y) : (xs.zip ys).lookup x = some y := by
  induction xs generalizing ys i with
  | nil => simp at hx
  | cons x' xs ih =>
    obtain ⟨hx', hn'⟩ := List.nodup_cons.mp hn
    cases ys with
    | nil => simp at hy
    | cons y' ys =>
      cases i with
      | zero => simp_all
      | succ i =>
        have : x ≠ x' := by
          rintro rfl
          exact hx' (List.mem_of_getElem? (by simpa using hx))
        simp only [List.zip_cons_cons, List.lookup_cons, beq_false_of_ne this]
        exact ih hn' (by simpa using hx) (by simpa using hy)

theorem eq_of_countP_eq_one {α : Type} {p : α → Bool} {xs : List α} (h : xs.countP p = 1)
    {i j : Nat} {x y : α} (hx : xs[i]? = some x) (hpx : p x = true) (hy : xs[j]? = some y)
    (hpy : p y = true) : i = j := by
  induction xs generalizing i j with
  | nil => simp at h
  | cons z zs ih =>
    rw [List.countP_cons] at h
    have none : p z = true → ∀ {k : Nat} {v : α}, zs[k]? = some v → p v ≠ true := by
      intro hz k v hv hpv
      have : 0 < zs.countP p := List.countP_pos_iff.mpr ⟨v, List.mem_of_getElem? hv, hpv⟩
      simp only [hz, if_true] at h
      omega
    cases i with
    | zero =>
      cases j with
      | zero => rfl
      | succ j =>
        simp only [List.getElem?_cons_zero, Option.some.injEq] at hx
        exact absurd hpy (none (hx ▸ hpx) (by simpa using hy))
    | succ i =>
      cases j with
      | zero =>
        simp only [List.getElem?_cons_zero, Option.some.injEq] at hy
        exact absurd hpx (none (hy ▸ hpy) (by simpa using hx))
      | succ j =>
        simp only [List.getElem?_cons_succ] at hx hy
        by_cases hz : p z = true
        · exact absurd hpx (none hz hx)
        · simp only [hz] at h
          exact congrArg (· + 1) (ih (by simpa using h) hx hy)

section Ranks

variable {blocks : List Nat} {head i b : Nat}

theorem lookup_iterationRanks (hn : blocks.Nodup) (hh : head ≤ blocks.length)
    (hb : blocks[i]? = some b) :
    (iterationRanks blocks head).lookup b =
      some (if i < head then head - i else blocks.length - (i - head)) := by
  have hi := (List.getElem?_eq_some_iff.mp hb).1
  have rotated : (blocks.drop head ++ blocks.take head).Nodup := by
    rw [← List.take_append_drop head blocks] at hn
    exact List.perm_append_comm.nodup_iff.mp hn
  have place : ∀ k < blocks.length,
      ((List.range blocks.length).reverse.map (· + 1))[k]? = some (blocks.length - k) := by
    intro k hk
    rw [List.getElem?_map, List.getElem?_reverse (by simpa using hk)]
    simp only [List.length_range]
    rw [List.getElem?_range (by omega)]
    simp only [Option.map_some, Option.some.injEq]
    omega
  unfold iterationRanks
  split
  · next h =>
    refine (lookup_zip (i := blocks.length - head + i) rotated ?_ (place _ (by omega))).trans ?_
    · rw [List.getElem?_append_right (by simp)]
      simp only [List.length_drop, Nat.add_sub_cancel_left]
      rw [List.getElem?_take_of_lt h]
      exact hb
    · congr 1
      omega
  · next h =>
    refine lookup_zip (i := i - head) rotated ?_ (place _ (by omega))
    rw [List.getElem?_append_left (by simp; omega), List.getElem?_drop]
    rw [show head + (i - head) = i by omega]
    exact hb

end Ranks

structure Found (g : Graph) (start marker : Nat) (blocks edges : List Nat) (last : Nat) : Prop where
  nodup : blocks.Nodup
  length : blocks.length = edges.length
  start_at : blocks[0]? = some start
  last_lt : last < blocks.length
  inside : ∀ b ∈ blocks.tail, ∃ block, g.block? b = some block ∧ marker ≤ block.marker
  edge_at : ∀ i < blocks.length, ∃ e edge, edges[i]? = some e ∧ g.edge? e = some edge ∧
    blocks[i]? = some edge.sink ∧
    blocks[if i + 1 < blocks.length then i + 1 else last]? = some edge.source
  closes : last = 0 ∨ ∃ i e, edges[i]? = some e ∧ g.isLoopBackEdge marker e = true ∧ last ≤ i

theorem Outcome.found {g : Graph} {start marker : Nat} {s t : Search}
    (h : Outcome g start marker s true t) :
    ∃ last, Found g start marker t.blocks.reverse t.edges.reverse last := by
  obtain ⟨b, trail, hmem, hclose⟩ := h.closed rfl
  obtain ⟨hlen, hstart, hedge⟩ := trail.edge_at
  have nodup : t.blocks.reverse.Nodup := List.nodup_reverse.mpr h.sound.nodup
  have pos : 0 < t.blocks.length := List.length_pos_of_mem hmem
  have start_at : t.blocks.reverse[0]? = some start := by
    rw [List.getElem?_append_left (by simpa using pos)] at hstart
    exact hstart
  obtain ⟨last, hlast⟩ := List.getElem?_of_mem (List.mem_reverse.mpr hmem)
  have hlt : last < t.blocks.reverse.length := (List.getElem?_eq_some_iff.mp hlast).1
  refine ⟨last, nodup, by simpa using hlen, start_at, hlt, fun c hc => ?_, fun i hi => ?_, ?_⟩
  · apply trail.inside c
    rw [List.tail_append_of_ne_nil (by simpa using List.ne_nil_of_length_pos pos)]
    exact List.mem_append_left _ hc
  · obtain ⟨e, edge, h₁, h₂, h₃, h₄⟩ := hedge i (by simpa using hi)
    refine ⟨e, edge, h₁, h₂, ?_, ?_⟩
    · rw [List.getElem?_append_left hi] at h₃
      exact h₃
    · split
      · next hi' =>
        rw [List.getElem?_append_left hi'] at h₄
        exact h₄
      · next hi' =>
        have hi : i + 1 = t.blocks.reverse.length := by omega
        rw [hi, List.getElem?_append_right (Nat.le_refl _)] at h₄
        rw [hlast]
        simpa using h₄
  · -- closed at the start, or at a block that comes before the back edge on the path
    obtain rfl | hback := hclose
    · exact .inl (nodup.getElem_inj_iff.mp (by
        rw [List.getElem?_eq_getElem hlt] at hlast
        rw [List.getElem?_eq_getElem (by simpa using pos)] at start_at
        exact (Option.some.inj hlast).trans (Option.some.inj start_at).symm))
    · obtain ⟨i, ⟨c, e⟩, hstep, he, hother⟩ := exists_of_backEdgeBefore hback
      obtain ⟨_, hedge'⟩ := List.getElem?_zip_eq_some.mp hstep
      have hi : i < t.edges.length := (List.getElem?_eq_some_iff.mp hedge').1
      simp only [List.length_reverse] at hlt
      refine .inr ⟨t.edges.length - 1 - i, e, ?_, he, ?_⟩
      · rw [List.getElem?_reverse (by omega)]
        rw [show t.edges.length - 1 - (t.edges.length - 1 - i) = i by omega]
        exact hedge'
      · by_contra hlate
        rw [List.getElem?_reverse hlt] at hlast
        have hk : t.blocks.length - 1 - last < i := by omega
        have he' : t.blocks.length - 1 - last < t.edges.length := by omega
        refine hother _ hk (b, t.edges.get ⟨_, he'⟩) ?_ rfl
        rw [List.getElem?_zip_eq_some]
        exact ⟨hlast, by simp⟩

theorem Found.length_le {g : Graph} (hg : g.WellFormed) {start marker last : Nat}
    {blocks edges : List Nat} (h : Found g start marker blocks edges last) :
    blocks.length ≤ g.blocks.length := by
  have sub : blocks ⊆ List.range g.blocks.length := by
    intro b hm
    obtain ⟨i, hi⟩ := List.getElem?_of_mem hm
    obtain ⟨e, edge, _, he, hs, _⟩ := h.edge_at i (List.getElem?_eq_some_iff.mp hi).1
    rw [hi, Option.some.injEq] at hs
    exact List.mem_range.mpr (hs ▸ hg.sink_lt e edge he)
  simpa using (List.subperm_of_subset h.nodup sub).length_le

section

variable {g : Graph} {start marker last back : Nat} {blocks edges : List Nat}

abbrev pathOf (marker : Nat) (blocks edges : List Nat) (back : Nat) : CyclicPath :=
  ⟨marker, blocks.zip edges, iterationRanks blocks (back + 1)⟩

theorem Found.blocks_eq (h : Found g start marker blocks edges last) :
    (pathOf marker blocks edges back).blocks = blocks :=
  List.map_fst_zip (Nat.le_of_eq h.length)

theorem Found.rank_at (h : Found g start marker blocks edges last) (hb : back < edges.length)
    {i b : Nat} (hi : blocks[i]? = some b) : (pathOf marker blocks edges back).rank b =
      if i < back + 1 then back + 1 - i else blocks.length - (i - (back + 1)) := by
  have head : back + 1 ≤ blocks.length := by have := h.length; omega
  simp [rank, lookup_iterationRanks h.nodup head hi]

theorem Found.rank_bijOn (h : Found g start marker blocks edges last) (hb : back < edges.length) :
    Set.BijOn (pathOf marker blocks edges back).rank {b | b ∈ blocks}
      (Set.Icc 1 blocks.length) := by
  have length := h.length
  refine ⟨?_, ?_, ?_⟩
  · intro b hm
    obtain ⟨i, hi⟩ := List.getElem?_of_mem hm
    have hlt := (List.getElem?_eq_some_iff.mp hi).1
    rw [h.rank_at hb hi, Set.mem_Icc]
    split <;> omega
  · intro b hm c hm' heq
    obtain ⟨i, hi⟩ := List.getElem?_of_mem hm
    obtain ⟨j, hj⟩ := List.getElem?_of_mem hm'
    have hlt := (List.getElem?_eq_some_iff.mp hi).1
    have hlt' := (List.getElem?_eq_some_iff.mp hj).1
    rw [h.rank_at hb hi, h.rank_at hb hj] at heq
    have : i = j := by split at heq <;> split at heq <;> omega
    exact Option.some.inj (hi.symm.trans (this ▸ hj))
  · intro r hr
    rw [Set.mem_Icc] at hr
    -- ranks up to the place of the back edge stand before it, the others after it
    have place : ∃ i < blocks.length,
        (if i < back + 1 then back + 1 - i else blocks.length - (i - (back + 1))) = r := by
      by_cases hle : r ≤ back + 1
      · exact ⟨back + 1 - r, by omega, by rw [if_pos (by omega)]; omega⟩
      · exact ⟨back + 1 + (blocks.length - r), by omega, by rw [if_neg (by omega)]; omega⟩
    obtain ⟨i, hi, hr⟩ := place
    refine ⟨blocks[i], List.getElem_mem hi, ?_⟩
    rw [h.rank_at hb (List.getElem?_eq_getElem hi), hr]

theorem Found.eq_back (h : Found g start marker blocks edges last)
    (hb : edges.findIdx? (g.isLoopBackEdge marker) = some back)
    (hone : (blocks.zip edges).countP (fun s => g.isLoopBackEdge marker s.2) = 1) {i e : Nat}
    (he : edges[i]? = some e) : g.isLoopBackEdge marker e = true ↔ i = back := by
  obtain ⟨hback, hisBack, _⟩ := List.findIdx?_eq_some_iff_getElem.mp hb
  constructor
  · intro hp
    have hi : i < blocks.length := by rw [h.length]; exact (List.getElem?_eq_some_iff.mp he).1
    have hb' : back < blocks.length := h.length ▸ hback
    have here : (blocks.zip edges)[i]? = some (blocks[i], e) :=
      List.getElem?_zip_eq_some.mpr ⟨List.getElem?_eq_getElem hi, he⟩
    have there : (blocks.zip edges)[back]? = some (blocks[back], edges[back]) :=
      List.getElem?_zip_eq_some.mpr
        ⟨List.getElem?_eq_getElem hb', List.getElem?_eq_getElem hback⟩
    exact eq_of_countP_eq_one hone here hp there hisBack
  · rintro rfl
    rw [List.getElem?_eq_getElem hback, Option.some.injEq] at he
    exact he ▸ hisBack

theorem Found.last_le (h : Found g start marker blocks edges last)
    (hb : edges.findIdx? (g.isLoopBackEdge marker) = some back)
    (hone : (blocks.zip edges).countP (fun s => g.isLoopBackEdge marker s.2) = 1) :
    last ≤ back := by
  obtain hz | ⟨i, e, he, hp, hle⟩ := h.closes
  · omega
  · exact (h.eq_back hb hone he).mp hp ▸ hle

theorem Found.isCircuit (hg : g.WellFormed) (h : Found g start marker blocks edges last)
    (hb : edges.findIdx? (g.isLoopBackEdge marker) = some back)
    (hone : (blocks.zip edges).countP (fun s => g.isLoopBackEdge marker s.2) = 1) :
    IsCircuit g marker (pathOf marker blocks edges back) (back + 1) blocks.length := by
  have hback : back < edges.length := (List.findIdx?_eq_some_iff_getElem.mp hb).1
  have head : back + 1 ≤ blocks.length := h.length ▸ hback
  have hlast : last ≤ back := h.last_le hb hone
  have ranks : Set.BijOn (pathOf marker blocks edges back).rank {b | b ∈ blocks}
      (Set.Icc 1 blocks.length) := h.rank_bijOn hback
  have blocks_eq : (pathOf marker blocks edges back).blocks = blocks := h.blocks_eq
  refine ⟨head, h.length_le hg, ?_, ?_, ?_, ?_⟩
  · exact fun b hm => (ranks.mapsTo (blocks_eq ▸ hm)).1
  · exact fun b hm => (ranks.mapsTo (blocks_eq ▸ hm)).2
  · exact fun b hm c hm' => ranks.injOn (blocks_eq ▸ hm) (blocks_eq ▸ hm')
  · intro b hm
    rw [blocks_eq] at hm ⊢
    obtain ⟨i, hi⟩ := List.getElem?_of_mem hm
    have hlt : i < blocks.length := (List.getElem?_eq_some_iff.mp hi).1
    obtain ⟨e, edge, he, hedge, hsink, hsource⟩ := h.edge_at i hlt
    have hs : edge.sink = b := Option.some.inj (hsink.symm.trans hi)
    refine ⟨e, edge, lookup_zip h.nodup hi he, hedge, hs, List.mem_of_getElem? hsource, ?_⟩
    rw [h.rank_at hback hi, h.rank_at hback hsource]
    simp only [h.eq_back hb hone he]
    split
    · next at_back =>
      subst at_back
      refine ⟨by simp, fun hlt => ?_⟩
      simp [hlt]
    · next off_back =>
      -- only the last block has its predecessor out of order, and it comes after the back edge
      constructor
      · intro hne
        split at hne <;> split <;> split <;> omega
      · intro heq
        split at heq <;> split <;> split <;> omega

end

theorem found_of_build? {g : Graph} (hg : g.WellFormed) {start marker : Nat} {p : CyclicPath}
    (h : build? g start marker = some p) : ∃ blocks edges last back,
      Found g start marker blocks edges last ∧
      edges.findIdx? (g.isLoopBackEdge marker) = some back ∧
      p = ⟨marker, blocks.zip edges, iterationRanks blocks (back + 1)⟩ := by
  unfold build? at h
  simp only [Option.bind_eq_bind, Option.bind_eq_some_iff] at h
  obtain ⟨first, _, h⟩ := h
  have outcome : post (search g start marker (g.blocks.length + 1) start 0)
      (Outcome g start marker { startRank := first.rank }) { startRank := first.rank } :=
    search_outcome hg (g.blocks.length + 1) start 0 ⟨List.nodup_nil, by simp⟩ .nil
  unfold post at outcome
  generalize (search g start marker (g.blocks.length + 1) start 0).run
    { startRank := first.rank } = answer at h outcome
  obtain ⟨found, t⟩ := answer
  cases found with
  | false => simp at h
  | true =>
    simp only [Bool.not_true, Bool.false_eq_true, if_false, Option.bind_eq_some_iff] at h
    obtain ⟨back, hb, h⟩ := h
    simp only [Option.pure_def, Option.some.injEq] at h
    obtain ⟨last, hf⟩ := outcome.found
    exact ⟨_, _, last, back, hf, hb, h.symm⟩

theorem isCircuit_of_build? {g : Graph} (hg : g.WellFormed) {start marker : Nat} {p : CyclicPath}
    (h : build? g start marker = some p)
    (hone : p.steps.countP (fun s => g.isLoopBackEdge marker s.2) = 1) :
    start ∈ p.blocks ∧ ∃ low top, p.IsCircuit g marker low top := by
  obtain ⟨blocks, edges, last, back, hf, hb, rfl⟩ := found_of_build? hg h
  refine ⟨?_, _, _, hf.isCircuit hg hb hone⟩
  rw [show (pathOf marker blocks edges back).blocks = blocks from hf.blocks_eq]
  exact List.mem_of_getElem? hf.start_at

end AddressFormulas.CyclicPath
