import AddressFormulas.Analysis
import AddressFormulas.Proofs.Data.Sorting
import AddressFormulas.Proofs.Routine.WellFormed
import Mathlib.Data.List.Nodup

namespace AddressFormulas.Graph

/-- `s` is memory operand `n`, counted from the sources on, of a micro-op that accesses memory. -/
def OperandAt (g : Graph) (s : OperandSite) (n : Nat) : Prop :=
  ∃ block u m, g.block? s.block = some block ∧ block.ops[s.index]? = some u ∧ u.kind ≠ .lea ∧
    u.memoryOperands[n]? = some m ∧ s.pc = u.pc ∧ s.opidx = m.opidx ∧ s.marker = block.marker

def siteRank (g : Graph) (s : OperandSite) : Int := ((g.block? s.block).map Block.rank).getD 0

def Precedes (g : Graph) (x y : OperandSite × Nat) : Prop :=
  g.siteRank x.1 < g.siteRank y.1 ∨ g.siteRank x.1 = g.siteRank y.1 ∧
    (x.1.block < y.1.block ∨ x.1.block = y.1.block ∧
      (x.1.index < y.1.index ∨ x.1.index = y.1.index ∧ x.2 < y.2))

def blocksByRank (g : Graph) : List Block :=
  sortBy (fun a b : Block => decide (a.rank ≤ b.rank)) g.blocks

def operandPlaces (g : Graph) : List (OperandSite × Nat) :=
  g.blocksByRank.flatMap fun b => b.ops.zipIdx.flatMap fun (u, i) => (opSites b i u).zipIdx

section FirstOccurrences

variable {seen : List OperandId} {sites : List OperandSite}

theorem firstOccurrences_sublist : (firstOccurrences seen sites).Sublist sites := by
  fun_induction firstOccurrences seen sites with
  | case1 => exact .slnil
  | case2 seen s rest _ ih => exact ih.cons s
  | case3 seen s rest _ ih => exact ih.cons_cons s

theorem id_notMem_of_mem_firstOccurrences {s : OperandSite}
    (h : s ∈ firstOccurrences seen sites) : s.id ∉ seen := by
  fun_induction firstOccurrences seen sites with
  | case1 => cases h
  | case2 seen t rest _ ih => exact ih h
  | case3 seen t rest ht ih =>
    obtain rfl | h := List.mem_cons.mp h
    · simpa using ht
    · intro hs
      exact ih h (List.mem_cons_of_mem _ hs)

theorem nodup_firstOccurrences : ((firstOccurrences seen sites).map OperandSite.id).Nodup := by
  fun_induction firstOccurrences seen sites with
  | case1 => exact .nil
  | case2 seen s rest _ ih => exact ih
  | case3 seen s rest _ ih =>
    refine List.nodup_cons.mpr ⟨?_, ih⟩
    intro h
    obtain ⟨t, ht, he⟩ := List.mem_map.mp h
    exact id_notMem_of_mem_firstOccurrences ht (he ▸ List.mem_cons_self)

theorem exists_mem_firstOccurrences {s : OperandSite} (hs : s ∈ sites) (hn : s.id ∉ seen) :
    ∃ t ∈ firstOccurrences seen sites, t.id = s.id := by
  fun_induction firstOccurrences seen sites with
  | case1 => cases hs
  | case2 seen t rest ht ih =>
    obtain rfl | hs := List.mem_cons.mp hs
    · exact absurd (by simpa using ht) hn
    · exact ih hs hn
  | case3 seen t rest _ ih =>
    by_cases he : t.id = s.id
    · exact ⟨t, List.mem_cons_self, he⟩
    · have rest : s ∈ rest := by
        obtain rfl | hs := List.mem_cons.mp hs
        · exact absurd rfl he
        · exact hs
      obtain ⟨t', ht', he'⟩ := ih rest (by simp [hn, Ne.symm he])
      exact ⟨t', List.mem_cons_of_mem _ ht', he'⟩

end FirstOccurrences

variable {g : Graph}

theorem map_operandPlaces (g : Graph) :
    g.operandSites = firstOccurrences [] (g.operandPlaces.map Prod.fst) := by
  simp [operandSites, operandPlaces, blocksByRank, List.map_flatMap, List.zipIdx_map_fst]

theorem pairwise_zipIdx {α : Type} (xs : List α) :
    xs.zipIdx.Pairwise fun x y => x.2 < y.2 := by
  apply List.pairwise_iff_getElem.mpr
  intro i j hi hj hij
  simpa using hij

theorem WellFormed.block?_id (hg : g.WellFormed) {b : Block} (hb : b ∈ g.blocks) :
    g.block? b.id = some b := by
  obtain ⟨n, h⟩ := List.getElem?_of_mem hb
  rw [hg.block_id n b h]
  exact h

theorem pairwise_blocksByRank (hg : g.WellFormed) :
    g.blocksByRank.Pairwise fun a b => a.rank < b.rank ∨ a.rank = b.rank ∧ a.id < b.id := by
  apply pairwise_sortBy
  · intro x _ y _ h
    simp only [decide_eq_false_iff_not] at h
    omega
  · intro x _ y _ z _ h h'
    simp only [decide_eq_true_eq] at h ⊢
    omega
  · apply List.pairwise_iff_getElem.mpr
    intro i j hi hj hij h
    have hx := hg.block_id i g.blocks[i] (List.getElem?_eq_getElem hi)
    have hy := hg.block_id j g.blocks[j] (List.getElem?_eq_getElem hj)
    simp only [decide_eq_true_eq] at h
    omega

theorem mem_operandPlaces {x : OperandSite × Nat} (hx : x ∈ g.operandPlaces) :
    ∃ b ∈ g.blocks, x ∈ (b.ops.zipIdx.flatMap fun (u, i) => (opSites b i u).zipIdx) := by
  obtain ⟨b, hb, hx⟩ := List.mem_flatMap.mp hx
  exact ⟨b, (mem_sortBy _ b _).mp hb, hx⟩

theorem of_mem_opSites {b : Block} {i n : Nat} {u : MicroOp} {s : OperandSite}
    (h : (s, n) ∈ (opSites b i u).zipIdx) :
    ∃ m, u.kind ≠ .lea ∧ u.memoryOperands[n]? = some m ∧ s = ⟨b.id, i, u.pc, m.opidx, b.marker⟩ := by
  rw [List.mem_zipIdx_iff_getElem?] at h
  unfold opSites at h
  split at h
  · simp at h
  · next hk =>
    rw [List.getElem?_map] at h
    obtain ⟨m, hm, hs⟩ := Option.map_eq_some_iff.mp h
    exact ⟨m, hk, hm, hs.symm⟩

theorem operandAt_of_mem (hg : g.WellFormed) {x : OperandSite × Nat} (hx : x ∈ g.operandPlaces) :
    g.OperandAt x.1 x.2 := by
  obtain ⟨b, hb, hx⟩ := mem_operandPlaces hx
  obtain ⟨⟨u, i⟩, hu, hx⟩ := List.mem_flatMap.mp hx
  obtain ⟨m, hk, hm, hs⟩ := of_mem_opSites hx
  refine ⟨b, u, m, ?_, ?_, hk, hm, ?_⟩
  · rw [hs]; exact hg.block?_id hb
  · rw [hs]; exact List.mem_zipIdx_iff_getElem?.mp hu
  · simp [hs]

theorem mem_of_operandAt (hg : g.WellFormed) {s : OperandSite} {n : Nat} (h : g.OperandAt s n) :
    (s, n) ∈ g.operandPlaces := by
  obtain ⟨block, u, m, hb, hu, hk, hm, hpc, hopidx, hmarker⟩ := h
  have id := hg.block_id s.block block hb
  refine List.mem_flatMap.mpr ⟨block, (mem_sortBy _ block _).mpr (List.mem_of_getElem? hb), ?_⟩
  refine List.mem_flatMap.mpr ⟨(u, s.index), List.mem_zipIdx_iff_getElem?.mpr hu, ?_⟩
  refine List.mem_zipIdx_iff_getElem?.mpr ?_
  simp only [opSites, hk, if_false, List.getElem?_map, hm, Option.map_some]
  rw [id, ← hpc, ← hopidx, ← hmarker]

theorem pairwise_operandPlaces (hg : g.WellFormed) : g.operandPlaces.Pairwise g.Precedes := by
  have rank : ∀ {b : Block} {u : MicroOp} {i n : Nat} {s : OperandSite}, b ∈ g.blocks →
      (s, n) ∈ (opSites b i u).zipIdx → g.siteRank s = b.rank ∧ s.block = b.id ∧ s.index = i := by
    intro b u i n s hb h
    obtain ⟨m, _, _, rfl⟩ := of_mem_opSites h
    simp [siteRank, hg.block?_id hb]
  have inside : ∀ b ∈ g.blocksByRank, b ∈ g.blocks := fun b hb => (mem_sortBy _ b _).mp hb
  refine List.pairwise_flatMap.mpr ⟨fun b hb => List.pairwise_flatMap.mpr ⟨?_, ?_⟩, ?_⟩
  · -- within a micro-op
    intro (u, i) _
    refine (pairwise_zipIdx _).imp_of_mem fun {x y} hx hy h => ?_
    obtain ⟨hr, hb', hi⟩ := rank (inside b hb) hx
    obtain ⟨hr', hb'', hi'⟩ := rank (inside b hb) hy
    exact .inr ⟨hr.trans hr'.symm, .inr ⟨hb'.trans hb''.symm, .inr ⟨hi.trans hi'.symm, h⟩⟩⟩
  · -- within a block
    refine (pairwise_zipIdx _).imp fun h x hx y hy => ?_
    obtain ⟨hr, hb', hi⟩ := rank (inside b hb) hx
    obtain ⟨hr', hb'', hi'⟩ := rank (inside b hb) hy
    exact .inr ⟨hr.trans hr'.symm, .inr ⟨hb'.trans hb''.symm, .inl (by omega)⟩⟩
  · refine (pairwise_blocksByRank hg).imp_of_mem fun {a b} ha hb h x hx y hy => ?_
    obtain ⟨⟨u, i⟩, _, hx⟩ := List.mem_flatMap.mp hx
    obtain ⟨⟨v, j⟩, _, hy⟩ := List.mem_flatMap.mp hy
    obtain ⟨hr, hb', _⟩ := rank (inside a ha) hx
    obtain ⟨hr', hb'', _⟩ := rank (inside b hb) hy
    unfold Precedes
    rw [hr, hr', hb', hb'']
    obtain h | ⟨h, h'⟩ := h
    · exact .inl h
    · exact .inr ⟨h, .inl h'⟩

structure ListsOperands (g : Graph) (sites : List OperandSite) : Prop where
  ordered : ∃ places : List (OperandSite × Nat), places.map Prod.fst = sites ∧
    places.Pairwise g.Precedes ∧ ∀ x ∈ places, g.OperandAt x.1 x.2
  nodup : (sites.map OperandSite.id).Nodup
  complete : ∀ s n, g.OperandAt s n → ∃ t ∈ sites, t.id = s.id

theorem ListsOperands.operandAt {sites : List OperandSite} (h : g.ListsOperands sites)
    {s : OperandSite} (hs : s ∈ sites) : ∃ n, g.OperandAt s n := by
  obtain ⟨places, rfl, _, hp⟩ := h.ordered
  obtain ⟨x, hx, rfl⟩ := List.mem_map.mp hs
  exact ⟨x.2, hp x hx⟩

theorem listsOperands_operandSites (hg : g.WellFormed) : g.ListsOperands g.operandSites where
  ordered := by
    have sub : g.operandSites.Sublist (g.operandPlaces.map Prod.fst) := by
      rw [map_operandPlaces]
      exact firstOccurrences_sublist
    obtain ⟨places, hp, he⟩ := List.sublist_map_iff.mp sub
    exact ⟨places, he.symm, (pairwise_operandPlaces hg).sublist hp,
      fun x hx => operandAt_of_mem hg (hp.subset hx)⟩
  nodup := by
    rw [map_operandPlaces]
    exact nodup_firstOccurrences
  complete s n h := by
    rw [map_operandPlaces]
    have : s ∈ g.operandPlaces.map Prod.fst := List.mem_map.mpr ⟨_, mem_of_operandAt hg h, rfl⟩
    exact exists_mem_firstOccurrences this (List.not_mem_nil)

end AddressFormulas.Graph
