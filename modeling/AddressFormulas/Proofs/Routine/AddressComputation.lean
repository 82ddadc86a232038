import AddressFormulas.Proofs.Machine.Run
import AddressFormulas.Proofs.Walk.Mirroring

namespace AddressFormulas

namespace MicroOp

def asAddress (u : MicroOp) (a b : Register) (opidx : Int) : MicroOp :=
  { u with kind := .lea, sources := [.memory { opidx, base := some a, index := some b }] }

structure AddsRegisters (u : MicroOp) (a b : Register) : Prop where
  kind : u.kind = .alu
  operation : u.operation = .add
  sources : u.sources = [.register a, .register b]
  destinations : ∃ d, u.destinations = [.register d]
  first : a.isWhole = true
  second : b.isWhole = true
  distinct : a.canonical ≠ b.canonical

namespace AddsRegisters

variable {u : MicroOp} {a b : Register} (h : u.AddsRegisters a b) (opidx : Int)

include h

theorem sourceRegisters : u.sourceRegisters = [a, b] := by
  simp [MicroOp.sourceRegisters, h.sources, operandRegister?]

theorem passes : u.Passes (u.asAddress a b opidx) := by
  constructor
  · rfl
  · rfl
  · rw [h.sourceRegisters]
    rfl
  · exact fun _ => rfl
  · simp [isStore, asAddress, h.kind]
  · simp [isStore, h.kind]

theorem counts : ∀ r ∈ [a, b],
    (!(r.canonical.isAbsent || r.canonical.isPseudo || r.canonical.isFlagOrStatus)) = true := by
  have whole : ∀ r : Register, r.isWhole = true →
      (!(r.canonical.isAbsent || r.canonical.isPseudo || r.canonical.isFlagOrStatus)) = true := by
    intro r hr
    obtain ⟨hc, _⟩ := Register.isWhole_iff.mp (Register.isWhole_canonical hr)
    simp [Register.isAbsent, Register.isPseudo, Register.isFlagOrStatus, hc]
  intro r hr
  obtain rfl | rfl := by simpa using hr
  · exact whole _ h.first
  · exact whole _ h.second

theorem effect : u.effect = .normal ∧ (u.asAddress a b opidx).effect = .normal := by
  have values : ∀ v : MicroOp, v.sourceRegisters = [a, b] → v.valueRegisters.isEmpty = false := by
    intro v hv
    have kept : a.canonical ∈ v.valueRegisters :=
      List.mem_filter.mpr ⟨by simp [hv], h.counts a (by simp)⟩
    simpa using List.ne_nil_of_mem kept
  have kind : (u.asAddress a b opidx).kind = .lea := rfl
  have lea := values (u.asAddress a b opidx) ((h.passes opidx).sourceRegisters.trans h.sourceRegisters)
  constructor
  · simp [MicroOp.effect, isBranch, isLoad, h.kind, values u h.sourceRegisters]
  · simp [MicroOp.effect, isBranch, isLoad, kind, lea]

theorem valueSources : u.valueSources = 2 := by
  obtain ⟨hc, _⟩ := Register.isWhole_iff.mp h.second
  simp [MicroOp.valueSources, h.sources, Operand.isFlagOrStatus, Register.isFlagOrStatus, hc]

theorem memoryOperands : u.memoryOperands = [] := by
  obtain ⟨d, hd⟩ := h.destinations
  simp [MicroOp.memoryOperands, h.sources, hd, Operand.memory?]

theorem hardwired? : ∀ r ∈ [a, b], u.hardwired? r.canonical = none := by
  have whole : ∀ r : Register, r.isWhole = true → u.hardwired? r.canonical = none := by
    intro r hr
    obtain ⟨hc, _⟩ := Register.isWhole_iff.mp (Register.isWhole_canonical hr)
    simp [MicroOp.hardwired?, Register.hardwired?, hc]
  intro r hr
  obtain rfl | rfl := by simpa using hr
  · exact whole _ h.first
  · exact whole _ h.second

theorem apart_slots (slot : Slot) (ha : slot.overlaps a.canonical = true) :
    slot.overlaps b.canonical = false := by
  cases slot with
  | site s => cases ha
  | register r =>
    apply eq_false_of_ne_true
    intro both
    have parents : ∀ s : Register, r.overlaps s = true → r.name.parent = s.name.parent := by
      intro s hs
      simp only [Register.overlaps, Bool.and_eq_true, decide_eq_true_eq] at hs
      exact hs.1.1.2
    apply h.distinct
    rw [Register.canonical_eq_iff h.first h.second, ← a.name.parent_parent, ← b.name.parent_parent]
    exact (parents a.canonical ha).symm.trans (parents b.canonical both)

def seen (u : MicroOp) (r : Register) : TermKey × Term :=
  (.register u.site r.canonical, ⟨.one, some u.site⟩)

theorem addressFormula : ∃ m, (u.asAddress a b opidx).sources = [.memory m] ∧
    (((u.asAddress a b opidx).addressFormula m).terms.entries = [seen u a, seen u b] ∨
      ((u.asAddress a b opidx).addressFormula m).terms.entries = [seen u b, seen u a]) := by
  refine ⟨_, rfl, ?_⟩
  have ne : TermKey.register u.site b.canonical ≠ .register u.site a.canonical := by
    intro heq
    exact h.distinct (TermKey.register.inj heq).2.symm
  have first : Formula.zero.addTerm (.register u.site a.canonical) .one (some u.site) =
      { terms := ⟨[seen u a]⟩ } := rfl
  have sum : ((u.asAddress a b opidx).addressFormula { opidx, base := some a, index := some b }) =
      ({ terms := ⟨[seen u a]⟩ } : Formula).addTerm (.register u.site b.canonical) .one (some u.site) := rfl
  rw [sum]
  have other : compare (TermKey.register u.site b.canonical) (.register u.site a.canonical) ≠ .eq :=
    fun heq => ne (Std.LawfulEqOrd.eq_of_compare heq)
  have absent : ({ terms := ⟨[seen u a]⟩ } : Formula).terms.get? (.register u.site b.canonical) = none := by
    simp [Table.get?, Table.findEntry, seen, other]
  rw [Formula.addTerm_of_none (by decide) absent]
  change Table.insertEntry _ _ [seen u a] = _ ∨ Table.insertEntry _ _ [seen u a] = _
  unfold Table.insertEntry seen
  split
  · exact .inr rfl
  · next heq => exact absurd heq other
  · exact .inl rfl

end AddsRegisters

end MicroOp

def KeySwap.Spares (σ : KeySwap) (pc : Nat) : Prop := ∀ idx r, σ.site ⟨pc, idx⟩ r = ⟨pc, idx⟩

def MicroOp.KeepsName (u : MicroOp) (σ : KeySwap) (reg : Register) : Prop :=
  ∀ r, r = reg ∨ reg.overlaps r = true → σ.site u.site r = u.site

/-- What a register of the sum of `a` and `b` holds from outside is called as if it came from `u`, and
what `u` defines is called the same. -/
structure KeySwap.Suits (σ : KeySwap) (u : MicroOp) (a b : Register) : Prop where
  own : ∀ reg, u.CanDefine reg → u.KeepsName σ reg
  outside : ∀ r ∈ [a.canonical, b.canonical], u.defines? r = none → σ.site ⟨u.pc, -1⟩ r = u.site

namespace MicroOp

def inAddress (u : MicroOp) (a b : Register) (opidx : Int) (v : MicroOp) : MicroOp :=
  if v = u then u.asAddress a b opidx else v

def sumNames (u : MicroOp) (a b : Register) : KeySwap :=
  .sites ⟨u.pc, -1⟩ u.site ([a.canonical, b.canonical].filter fun r => (u.defines? r).isNone)

theorem AddsRegisters.sumNames_suits {u : MicroOp} {a b : Register} (h : u.AddsRegisters a b) :
    (u.sumNames a b).Suits u a b := by
  constructor
  · intro reg ⟨r', hr'⟩ r same
    have other : r ∉ [a.canonical, b.canonical].filter fun r => (u.defines? r).isNone := by
      intro mem
      obtain ⟨summand, undefined⟩ := List.mem_filter.mp mem
      have whole : r.isWhole = true := by
        obtain rfl | rfl := by simpa using summand
        · exact Register.isWhole_canonical h.first
        · exact Register.isWhole_canonical h.second
      have shared : reg.overlaps r = true := by
        obtain rfl | shared := same
        · exact (Register.overlaps_iff whole whole).mpr rfl
        · exact shared
      unfold defines? at hr' undefined
      obtain ⟨unconditional, written⟩ := Option.ite_none_left_eq_some.mp hr'
      rw [if_neg unconditional] at undefined
      have hit : (u.writes? r).isSome = true :=
        List.find?_isSome.mpr ⟨reg, List.mem_of_find?_eq_some written, shared⟩
      simp [Option.isNone_iff_eq_none.mp undefined] at hit
    simp only [sumNames, KeySwap.sites, if_neg other]
  · intro r hr undefined
    have mem : r ∈ [a.canonical, b.canonical].filter fun r => (u.defines? r).isNone :=
      List.mem_filter.mpr ⟨hr, by simp [undefined]⟩
    simp only [sumNames, KeySwap.sites, if_pos mem, if_true]

theorem sumNames_spares {u : MicroOp} {pc : Nat} (h : pc ≠ u.pc) (a b : Register) :
    (u.sumNames a b).Spares pc := by
  intro idx r
  have outside : (⟨pc, idx⟩ : Site) ≠ ⟨u.pc, -1⟩ := fun heq => h (congrArg Site.pc heq)
  have own : (⟨pc, idx⟩ : Site) ≠ u.site := fun heq => h (congrArg Site.pc heq)
  simp only [sumNames, KeySwap.sites, if_neg outside, if_neg own, ite_self]

end MicroOp

def Event.missesOperand (site : Site) : Event → Bool
  | .failure (.missingOperand s _) => s = site
  | _ => false

namespace Graph

/-- `φ` leaves the micro-ops of `g` as they are, or turns `u`, which adds `a` and `b`, into the address
computation. The names exchanged by `σ` fit. -/
structure Rewrites (g : Graph) (φ : MicroOp → MicroOp) (σ : KeySwap) (u : MicroOp) (a b : Register)
    (opidx : Int) : Prop where
  words : ∀ c i v, g.op? c i = some v → v.HasWords
  op : ∀ c i v, g.op? c i = some v → φ v = v ∧ σ.Spares v.pc ∨
    v = u ∧ φ v = u.asAddress a b opidx ∧ u.AddsRegisters a b ∧ σ.Suits u a b

structure HasSum (g : Graph) (u : MicroOp) (a b : Register) : Prop where
  adds : u.AddsRegisters a b
  alone : ∀ c i v, g.op? c i = some v → v.pc = u.pc → v = u
  words : ∀ c i v, g.op? c i = some v → v.HasWords

def sumAsAddress (g : Graph) (u : MicroOp) (a b : Register) (opidx : Int) : Graph :=
  g.mapOps (u.inAddress a b opidx)

variable {g : Graph} {u v : MicroOp} {a b : Register} {opidx : Int} {φ : MicroOp → MicroOp} {σ : KeySwap}
  {c i : Nat}

theorem HasSum.rewrites (h : g.HasSum u a b) (opidx : Int) :
    g.Rewrites (u.inAddress a b opidx) (u.sumNames a b) u a b opidx := by
  constructor
  · exact h.words
  · intro c i v hv
    unfold MicroOp.inAddress
    split
    · next hvu => exact .inr ⟨hvu, rfl, h.adds, h.adds.sumNames_suits⟩
    · next hvu => exact .inl ⟨rfl, MicroOp.sumNames_spares (fun hpc => hvu (h.alone c i v hv hpc)) a b⟩

theorem rewrites_id (words : ∀ c i v, g.op? c i = some v → v.HasWords) :
    g.Rewrites (fun v => v) .id u a b opidx :=
  ⟨words, fun _ _ _ _ => .inl ⟨rfl, fun _ _ => rfl⟩⟩

namespace Rewrites

variable (h : g.Rewrites φ σ u a b opidx) (hv : g.op? c i = some v)

include h hv

theorem passes : v.Passes (φ v) := by
  obtain ⟨same, _⟩ | ⟨rfl, sum, adds, _⟩ := h.op c i v hv
  · rw [same]
    exact ⟨rfl, rfl, rfl, fun _ => rfl, rfl, fun _ => rfl⟩
  · rw [sum]
    exact adds.passes opidx

theorem isLoad : (φ v).isLoad = v.isLoad := by
  obtain ⟨same, _⟩ | ⟨rfl, sum, adds, _⟩ := h.op c i v hv
  · rw [same]
  · rw [sum]
    simp [MicroOp.isLoad, MicroOp.asAddress, adds.kind]

theorem keepsName {reg : Register} (hd : v.CanDefine reg) : v.KeepsName σ reg := by
  obtain ⟨_, spares⟩ | ⟨rfl, _, _, suits⟩ := h.op c i v hv
  · exact fun r _ => spares v.idx r
  · exact suits.own reg hd

end Rewrites

end Graph

end AddressFormulas
