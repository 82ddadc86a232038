import AddressFormulas.Proofs.Loop.Dependence
import AddressFormulas.Proofs.Walk.Supply
import Mathlib.Data.List.Rotate

namespace AddressFormulas

structure MicroOp.PassesOn (u : MicroOp) (s d : Register) : Prop where
  unconditional : u.conditional = false
  kind : u.kind = .move ∨ u.kind = .copy ∨ u.kind = .alu
  modelled : u.operation ≠ .invalid
  sources : if u.operation = .mov ∨ u.operation = .not then u.sources = [.register s]
    else ∃ c, u.sources = [.register s, .immediate c]
  whole : s.isWhole = true
  writes : u.WritesOnly d

namespace MicroOp.PassesOn

variable {u : MicroOp} {s d : Register} (h : u.PassesOn s d)

include h

theorem sources_cases : u.sources = [.register s] ∧ (u.operation = .mov ∨ u.operation = .not) ∨
    ∃ c, u.sources = [.register s, .immediate c] := by
  have sources := h.sources
  split at sources
  · next hop => exact .inl ⟨sources, hop⟩
  · exact .inr sources

theorem sourceRegisters_eq : u.sourceRegisters = [s] := by
  obtain ⟨hs, _⟩ | ⟨c, hs⟩ := h.sources_cases <;> rw [MicroOp.sourceRegisters, hs] <;> rfl

theorem isLoad_eq : u.isLoad = false := by
  obtain hk | hk | hk := h.kind <;> simp [MicroOp.isLoad, hk]

theorem effect_eq : u.effect = .normal := by
  have branch : u.isBranch = false := by
    obtain hk | hk | hk := h.kind <;> simp [MicroOp.isBranch, hk]
  have sources := h.sourceRegisters_eq
  rw [Base.effect_eq branch h.isLoad_eq (by simp [sources, h.whole]), if_neg (by simp [sources])]

theorem readsSameTwice_eq : Stride.readsSameTwice u = false := by
  obtain ⟨hs, _⟩ | ⟨c, hs⟩ := h.sources_cases <;> simp [Stride.readsSameTwice, hs]

theorem valueSources_eq : u.valueSources = u.sources.length := by
  have general : s.isFlagOrStatus = false := by
    simp [Register.isFlagOrStatus, (Register.isWhole_iff.mp h.whole).1]
  obtain ⟨hs, _⟩ | ⟨c, hs⟩ := h.sources_cases
  · simp [MicroOp.valueSources, hs, Operand.isFlagOrStatus, general]
  · simp [MicroOp.valueSources, hs, Operand.isFlagOrStatus]

theorem defines?_eq {r : Register} (hr : r.isWhole = true) :
    u.defines? r = if r.canonical = d.canonical then some d.canonical else none := by
  unfold MicroOp.defines?
  rw [if_neg (by simp [h.unconditional]), h.writes.writes?_eq hr]

theorem memoryOperands_eq : u.memoryOperands = [] := by
  have targets : u.destinations.filterMap Operand.memory? = [] := by
    refine List.filterMap_eq_nil_iff.mpr fun o ho => ?_
    obtain rfl | hflag := h.writes.others o ho
    · rfl
    · cases o with
      | memory m => cases hflag
      | _ => rfl
  unfold MicroOp.memoryOperands
  rw [List.filterMap_append, targets]
  obtain ⟨hs, _⟩ | ⟨c, hs⟩ := h.sources_cases <;> rw [hs] <;> rfl

end MicroOp.PassesOn

namespace Loop

/-- The value of register `reg 0` before micro-op `spot 0` is that of the first of `us`, which passes
on the value of the next, and so on around to the first. Each reads its register at its own place. -/
structure ValueRing (ops us : List MicroOp) (spot : Nat → Nat) (reg : Nat → Register) : Prop where
  nonempty : us ≠ []
  distinct : (us.map MicroOp.site).Nodup
  op : ∀ (t : Nat) (u : MicroOp), us[t]? = some u →
    ops[spot (t + 1)]? = some u ∧ ∃ s d, u.PassesOn s d ∧ s.canonical = reg (t + 1)
  origin : ∀ t, t ≤ us.length → ∃ d, origin? ops (spot t) (reg t) = some (spot (t + 1), d)
  back : spot (us.length + 1) = spot 1
  plain : IsPlain (reg 0)

theorem ValueRing.isPlain {ops us : List MicroOp} {spot : Nat → Nat} {reg : Nat → Register}
    (h : ValueRing ops us spot reg) {t : Nat} (ht : t ≤ us.length) : IsPlain (reg t) := by
  cases t with
  | zero => exact h.plain
  | succ t =>
    obtain ⟨_, s, d, passes, hs⟩ := h.op t us[t] (List.getElem?_eq_getElem ht)
    rw [← hs]
    exact isPlain_canonical passes.whole

theorem ValueRing.definition {ops us : List MicroOp} {spot : Nat → Nat} {reg : Nat → Register}
    (h : ValueRing ops us spot reg) {t : Nat} (ht : t ≤ us.length) {u : MicroOp}
    (hu : ops[spot (t + 1)]? = some u) : ∃ k, us[k]? = some u ∧
      (∃ s d, u.PassesOn s d ∧ s.canonical = reg (k + 1)) ∧
      (k = t ∧ t < us.length ∨ k = 0 ∧ t = us.length) := by
  have at' : ∀ k, k < us.length → spot (t + 1) = spot (k + 1) → us[k]? = some u ∧
      ∃ s d, u.PassesOn s d ∧ s.canonical = reg (k + 1) := by
    intro k hk he
    obtain ⟨hop, passes⟩ := h.op k us[k] (List.getElem?_eq_getElem hk)
    rw [he, hop] at hu
    rw [List.getElem?_eq_getElem hk, hu]
    exact ⟨rfl, Option.some.inj hu ▸ passes⟩
  obtain hlt | rfl := Nat.lt_or_eq_of_le ht
  · obtain ⟨hk, passes⟩ := at' t hlt rfl
    exact ⟨t, hk, passes, .inl ⟨rfl, hlt⟩⟩
  · obtain ⟨hk, passes⟩ := at' 0 (List.length_pos_iff.mpr h.nonempty) h.back
    exact ⟨0, hk, passes, .inr ⟨rfl, rfl⟩⟩

/-- Micro-ops that pass one value on, from register `regs 0` through the others and back, and a load
from `regs j` into another register. -/
structure ValueChain (links : List MicroOp) (regs : Nat → Register) (load : MicroOp) (m : MemoryOperand)
    (d : Register) (j : Nat) : Prop where
  nonempty : links ≠ []
  link : ∀ (i : Nat) (u : MicroOp), links[i]? = some u → u.PassesOn (regs i) (regs (i + 1))
  back : regs links.length = regs 0
  increasing : (links ++ [load]).Pairwise fun u v => u.pc < v.pc
  kind : load.kind = .load
  sources : load.sources = [.memory m]
  base : m.base = some (regs j)
  index : m.index = none
  disp : m.disp = 0
  place : j ≤ links.length
  destinations : load.destinations = [.register d]
  apart : ∀ i, i ≤ links.length → d.canonical.overlaps (regs i).canonical = false

def placeBack (n k t : Nat) : Nat := (k + n - t) % n

theorem placeBack_zero {n k : Nat} (hk : k < n) : placeBack n k 0 = k := by
  rw [placeBack, Nat.sub_zero, Nat.add_mod_right, Nat.mod_eq_of_lt hk]

theorem placeBack_self {n k : Nat} (hk : k < n) : placeBack n k n = k := by
  rw [placeBack, Nat.add_sub_cancel, Nat.mod_eq_of_lt hk]

theorem placeBack_succ {n k t : Nat} (hk : k < n) (ht : t < n) :
    placeBack n k t < n ∧ placeBack n k (t + 1) =
      if placeBack n k t = 0 then n - 1 else placeBack n k t - 1 := by
  unfold placeBack
  have pos : 0 < n := by omega
  refine ⟨Nat.mod_lt _ pos, ?_⟩
  by_cases h : t ≤ k
  · have here : (k + n - t) % n = k - t := by
      rw [show k + n - t = k - t + n by omega, Nat.add_mod_right, Nat.mod_eq_of_lt (by omega)]
    rw [here]
    by_cases he : t = k
    · rw [if_pos (by omega), Nat.mod_eq_of_lt (by omega)]
      omega
    · rw [if_neg (by omega), show k + n - (t + 1) = k - t - 1 + n by omega, Nat.add_mod_right,
        Nat.mod_eq_of_lt (by omega)]
  · rw [Nat.mod_eq_of_lt (show k + n - t < n by omega), Nat.mod_eq_of_lt (by omega),
      if_neg (by omega)]
    omega

def linksBack (links : List MicroOp) (k : Nat) : List MicroOp := (links.rotate (k + 1)).reverse

theorem linksBack_perm (links : List MicroOp) (k : Nat) : (linksBack links k).Perm links :=
  (List.reverse_perm _).trans (List.rotate_perm _ _)

theorem getElem?_linksBack {links : List MicroOp} {k t : Nat}
    (ht : t < links.length) : (linksBack links k)[t]? = links[placeBack links.length k t]? := by
  unfold linksBack placeBack
  rw [List.getElem?_reverse (by simpa using ht), List.length_rotate,
    List.getElem?_rotate (by omega)]
  congr 2
  omega

def spots (n k : Nat) : Nat → Nat
  | 0 => n
  | t + 1 => placeBack n k t

def regsBack (regs : Nat → Register) (j n k : Nat) : Nat → Register
  | 0 => (regs j).canonical
  | t + 1 => (regs (placeBack n k t)).canonical

namespace ValueChain

variable {links : List MicroOp} {regs : Nat → Register} {load : MicroOp} {m : MemoryOperand}
  {d : Register} {j : Nat} (h : ValueChain links regs load m d j)

theorem op_link {i : Nat} (hi : i < links.length) : (links ++ [load])[i]? = some links[i] := by
  rw [List.getElem?_append_left hi, List.getElem?_eq_getElem hi]

theorem op_load : (links ++ [load])[links.length]? = some load := by simp

include h

theorem length_pos : 0 < links.length := List.length_pos_iff.mpr h.nonempty

theorem whole {i : Nat} (hi : i ≤ links.length) : (regs i).isWhole = true := by
  cases i with
  | zero =>
    exact (h.link 0 _ (List.getElem?_eq_getElem h.length_pos)).whole
  | succ i => exact (h.link i _ (List.getElem?_eq_getElem hi)).writes.whole

theorem load_defines? {i : Nat} (hi : i ≤ links.length) :
    load.defines? (regs i).canonical = none := by
  simp [MicroOp.defines?, MicroOp.writes?, h.destinations, MicroOp.operandRegister?, h.apart i hi]

theorem link_defines? {i i' : Nat} (hi : i < links.length) (hi' : i' ≤ links.length)
    (he : (regs i').canonical = (regs (i + 1)).canonical) :
    links[i].defines? (regs i').canonical = some (regs (i + 1)).canonical := by
  rw [(h.link i _ (List.getElem?_eq_getElem hi)).defines?_eq
    (Register.isWhole_canonical (h.whole hi')), Register.canonical_canonical, if_pos he]

theorem origin_link {i : Nat} (hi : i < links.length) :
    ∃ e, origin? (links ++ [load]) i (regs i).canonical =
      some (if i = 0 then links.length - 1 else i - 1, e) := by
  have pos := h.length_pos
  unfold origin?
  cases i with
  | zero =>
    have last : links.length - 1 < links.length := by omega
    have around : (regs 0).canonical = (regs (links.length - 1 + 1)).canonical := by
      rw [Nat.sub_add_cancel pos, h.back]
    have later : ∀ i' v, links.length - 1 < i' → i' < (links ++ [load]).length →
        (links ++ [load])[i']? = some v → v.defines? (regs 0).canonical = none := by
      intro i' v hlt hle hv
      rw [List.length_append, List.length_singleton] at hle
      obtain rfl : i' = links.length := by omega
      rw [← Option.some.inj (op_load.symm.trans hv)]
      exact h.load_defines? (Nat.zero_le _)
    have inside : links.length - 1 < (links ++ [load]).length := by
      rw [List.length_append]
      omega
    have found := lastBefore?_eq inside (op_link last)
      (h.link_defines? last (Nat.zero_le _) around) later
    rw [found]
    exact ⟨1, rfl⟩
  | succ i =>
    have before : i < links.length := Nat.lt_of_succ_lt hi
    rw [lastBefore?_eq (Nat.lt_succ_self i) (op_link before)
      (h.link_defines? before (Nat.le_of_lt hi) rfl) fun i' _ hlt hle => by omega]
    exact ⟨0, rfl⟩

theorem origin_load : ∃ k, k < links.length ∧
    origin? (links ++ [load]) links.length (regs j).canonical = some (k, 0) := by
  have pos := h.length_pos
  -- some link writes the register
  obtain ⟨i, hi, he⟩ : ∃ i, i < links.length ∧ (regs j).canonical = (regs (i + 1)).canonical := by
    cases hj : j with
    | zero => exact ⟨links.length - 1, by omega, by rw [Nat.sub_add_cancel pos, h.back]⟩
    | succ i =>
      have := h.place
      exact ⟨i, by omega, rfl⟩
  unfold origin?
  cases hlast : lastBefore? (links ++ [load]) (·.defines? (regs j).canonical) links.length with
  | none =>
    have := lastBefore?_eq_none hlast hi (op_link hi)
    rw [h.link_defines? hi h.place he] at this
    cases this
  | some found => exact ⟨found.1, (lastBefore?_eq_some hlast).1, rfl⟩

theorem ring {k : Nat} (hk : k < links.length)
    (hload : origin? (links ++ [load]) links.length (regs j).canonical = some (k, 0)) :
    ValueRing (links ++ [load]) (linksBack links k) (spots links.length k)
      (regsBack regs j links.length k) := by
  have length : (linksBack links k).length = links.length := by simp [linksBack]
  constructor
  case nonempty =>
    intro hnil
    rw [← length, hnil] at hk
    cases hk
  case distinct =>
    refine ((linksBack_perm links k).map MicroOp.site).nodup_iff.mpr (List.pairwise_map.mpr ?_)
    exact (List.pairwise_append.mp h.increasing).1.imp fun hlt he =>
      Nat.ne_of_lt hlt (congrArg Site.pc he)
  case op =>
    intro t u hu
    have ht : t < links.length := length ▸ (List.getElem?_eq_some_iff.mp hu).1
    rw [getElem?_linksBack ht] at hu
    have link := h.link _ u hu
    have inside := (placeBack_succ hk ht).1
    refine ⟨?_, _, _, link, rfl⟩
    rw [← hu]
    exact List.getElem?_append_left inside
  case origin =>
    intro t ht
    cases t with
    | zero =>
      refine ⟨0, hload.trans ?_⟩
      rw [spots, placeBack_zero hk]
    | succ t =>
      obtain ⟨inside, next⟩ := placeBack_succ hk (t := t) (by omega)
      obtain ⟨e, horigin⟩ := h.origin_link inside
      refine ⟨e, horigin.trans ?_⟩
      rw [spots, next]
  case back => rw [length, spots, spots, placeBack_self hk, placeBack_zero hk]
  case plain => exact isPlain_canonical (h.whole h.place)

end ValueChain

end Loop

end AddressFormulas
