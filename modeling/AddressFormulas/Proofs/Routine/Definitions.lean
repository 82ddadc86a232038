import AddressFormulas.Proofs.Routine.WellFormed
import Mathlib.Data.List.Nodup

namespace AddressFormulas

section LastBefore

variable {α β : Type} {xs : List α} {p : α → Option β}

theorem lastBefore?_eq_some {stop i : Nat} {x : α} {y : β}
    (h : lastBefore? xs p stop = some (i, x, y)) :
    i < stop ∧ xs[i]? = some x ∧ p x = some y ∧
      ∀ j z, i < j → j < stop → xs[j]? = some z → p z = none := by
  induction stop with
  | zero => cases h
  | succ stop ih =>
    unfold lastBefore? at h
    split at h
    · next x' y' hx =>
      cases h
      obtain ⟨x', hx', hp⟩ := Option.bind_eq_some_iff.mp hx
      obtain ⟨y', hy', he⟩ := Option.map_eq_some_iff.mp hp
      cases he
      exact ⟨by omega, hx', hy', fun j z hij hj => by omega⟩
    · next hx =>
      obtain ⟨hi, hx', hy, hlater⟩ := ih h
      refine ⟨by omega, hx', hy, fun j z hij hj hz => ?_⟩
      by_cases hjs : j = stop
      · subst hjs
        simpa [hz] using hx
      · exact hlater j z hij (by omega) hz

theorem lastBefore?_eq_none {stop : Nat} (h : lastBefore? xs p stop = none) {i : Nat} {x : α}
    (hi : i < stop) (hx : xs[i]? = some x) : p x = none := by
  induction stop with
  | zero => omega
  | succ stop ih =>
    unfold lastBefore? at h
    split at h
    · cases h
    · next hn =>
      by_cases his : i = stop
      · subst his
        simpa [hx] using hn
      · exact ih h (by omega)

theorem lastBefore?_eq {stop i : Nat} {x : α} {y : β} (hi : i < stop) (hx : xs[i]? = some x)
    (hy : p x = some y) (later : ∀ j z, i < j → j < stop → xs[j]? = some z → p z = none) :
    lastBefore? xs p stop = some (i, x, y) := by
  induction stop with
  | zero => omega
  | succ stop ih =>
    unfold lastBefore?
    by_cases last : i = stop
    · subst last
      simp [hx, hy]
    · have before := ih (by omega) fun j z hij hj => later j z hij (by omega)
      have none : (xs[stop]?.bind fun x => (p x).map fun y => (x, y)) = none := by
        cases hz : xs[stop]? with
        | none => rfl
        | some z => simp [later stop z (by omega) (by omega) hz]
      simp [none, before]

end LastBefore

namespace Graph

def op? (g : Graph) (b i : Nat) : Option MicroOp := (g.block? b).bind (·.ops[i]?)

theorem op?_eq_some {g : Graph} {b i : Nat} {u : MicroOp} :
    g.op? b i = some u ↔ ∃ block, g.block? b = some block ∧ block.ops[i]? = some u :=
  Option.bind_eq_some_iff

def DistinctSites (g : Graph) : Prop :=
  ∀ b i c j u v, g.op? b i = some u → g.op? c j = some v → u.site = v.site → b = c ∧ i = j

theorem distinctSites_of_nodup {g : Graph}
    (h : (g.blocks.flatMap fun block => block.ops.map MicroOp.site).Nodup) : g.DistinctSites := by
  obtain ⟨within, between⟩ := List.nodup_flatMap.mp h
  intro b i c j u v hu hv he
  obtain ⟨block, hb, hu⟩ := op?_eq_some.mp hu
  obtain ⟨block', hc, hv⟩ := op?_eq_some.mp hv
  obtain ⟨hb', rfl⟩ := List.getElem?_eq_some_iff.mp hb
  obtain ⟨hc', rfl⟩ := List.getElem?_eq_some_iff.mp hc
  have hus : (g.blocks[b].ops.map MicroOp.site)[i]? = some u.site := by simp [hu]
  have hvs : (g.blocks[c].ops.map MicroOp.site)[j]? = some v.site := by simp [hv]
  have apart : ∀ {b c : Nat} (hb : b < g.blocks.length) (hc : c < g.blocks.length), b < c →
      u.site ∈ g.blocks[b].ops.map MicroOp.site → u.site ∉ g.blocks[c].ops.map MicroOp.site :=
    fun hb hc hlt hm => List.pairwise_iff_getElem.mp between _ _ hb hc hlt hm
  have inb := List.mem_of_getElem? hus
  have inc : u.site ∈ g.blocks[c].ops.map MicroOp.site := he ▸ List.mem_of_getElem? hvs
  obtain hlt | rfl | hgt := Nat.lt_trichotomy b c
  · exact absurd inc (apart hb' hc' hlt inb)
  · refine ⟨rfl, ?_⟩
    rw [← he] at hvs
    obtain ⟨hi, _⟩ := List.getElem?_eq_some_iff.mp hus
    exact (List.getElem?_inj hi (within _ (List.getElem_mem hb'))).mp (hus.trans hvs.symm)
  · exact absurd inb (apart hc' hb' hgt inc)

def OrderedIn (g : Graph) (b : Nat) : Prop :=
  ∀ block, g.block? b = some block → block.ops.Pairwise fun u v => u.pc ≤ v.pc

def OrderedOps (g : Graph) : Prop :=
  ∀ b block, g.block? b = some block → block.ops.Pairwise fun u v => u.pc ≤ v.pc

theorem OrderedIn.pc_le {g : Graph} {b i j : Nat} {u v : MicroOp} (hg : g.OrderedIn b)
    (hu : g.op? b i = some u) (hv : g.op? b j = some v) (hij : i ≤ j) : u.pc ≤ v.pc := by
  obtain ⟨block, hb, hu⟩ := op?_eq_some.mp hu
  obtain ⟨block', hb', hv⟩ := op?_eq_some.mp hv
  cases hb.symm.trans hb'
  obtain ⟨hi, rfl⟩ := List.getElem?_eq_some_iff.mp hu
  obtain ⟨hj, rfl⟩ := List.getElem?_eq_some_iff.mp hv
  by_cases he : i = j
  · subst he
    exact Nat.le_refl _
  · exact List.pairwise_iff_getElem.mp (hg block hb) i j hi hj (by omega)

theorem start_le {g : Graph} (hg : g.WellFormed) {b i : Nat} {block : Block} {u : MicroOp}
    (ho : g.OrderedIn b) (hb : g.block? b = some block) (hu : g.op? b i = some u) : block.start ≤ u.pc := by
  have spans := hg.spans b block hb
  obtain ⟨block', hb', hu'⟩ := op?_eq_some.mp hu
  cases hb.symm.trans hb'
  unfold spansOps at spans
  split at spans
  · cases hops : block.ops with
    | nil => simp [hops] at hu'
    | cons v vs =>
      rw [spans.1, hops]
      exact ho.pc_le (op?_eq_some.mpr ⟨block, hb, by simp [hops]⟩) hu (Nat.zero_le i)
  · simp [spans] at hu'

def Undefined (g : Graph) (reg : Register) (b k : Nat) : Prop :=
  ∀ i u, i < k → g.op? b i = some u → u.defines? reg = none

end Graph

namespace Block

variable {g : Graph} {b stop : Nat} {block : Block} {reg : Register}

theorem definition?_eq_some (hb : g.block? b = some block) {i : Nat} {u : MicroOp}
    {written : Register} (h : block.definition? stop reg = some (i, u, written)) :
    i < stop ∧ g.op? b i = some u ∧ u.defines? reg = some written ∧
      ∀ j v, i < j → j < stop → g.op? b j = some v → v.defines? reg = none := by
  obtain ⟨hi, hu, hd, hlater⟩ := lastBefore?_eq_some h
  refine ⟨by omega, Graph.op?_eq_some.mpr ⟨block, hb, hu⟩, hd, fun j v hij hj hv => ?_⟩
  obtain ⟨block', hb', hv⟩ := Graph.op?_eq_some.mp hv
  cases hb.symm.trans hb'
  have := (List.getElem?_eq_some_iff.mp hv).1
  exact hlater j v hij (by omega) hv

theorem definition?_eq_none (hb : g.block? b = some block)
    (h : block.definition? stop reg = none) : g.Undefined reg b stop := by
  intro i u hi hu
  obtain ⟨block', hb', hu⟩ := Graph.op?_eq_some.mp hu
  cases hb.symm.trans hb'
  have := (List.getElem?_eq_some_iff.mp hu).1
  exact lastBefore?_eq_none h (by omega) hu

end Block

end AddressFormulas
