import AddressFormulas.MicroOp.Basic
import Mathlib.Data.BitVec

namespace AddressFormulas

namespace RegisterName

theorem parent_parent (n : RegisterName) : n.parent.parent = n.parent := by
  cases n with
  | listed i => exact congrArg listed (NameTable.entry_parent i).1
  | _ => rfl

theorem cls_parent (n : RegisterName) : n.parent.cls = n.cls := by
  cases n with
  | listed i => exact (NameTable.entry_parent i).2
  | _ => rfl

end RegisterName

namespace Register

def isWhole (r : Register) : Bool := r.cls = .general && r.lsb = 0 && r.msb = 63

theorem isWhole_iff {r : Register} :
    r.isWhole = true ↔ r.cls = .general ∧ r.lsb = 0 ∧ r.msb = 63 := by
  simp [isWhole, and_assoc]

theorem isWhole_canonical {r : Register} (h : r.isWhole = true) : r.canonical.isWhole = true := by
  obtain ⟨hc, hl, hm⟩ := isWhole_iff.mp h
  exact isWhole_iff.mpr ⟨r.name.cls_parent.trans hc, hl, hm⟩

theorem canonical_canonical (r : Register) : r.canonical.canonical = r.canonical := by
  simp [canonical, RegisterName.parent_parent]

theorem canonical_eq_iff {r s : Register} (hr : r.isWhole = true) (hs : s.isWhole = true) :
    r.canonical = s.canonical ↔ r.name.parent = s.name.parent := by
  obtain ⟨_, hl, hm⟩ := isWhole_iff.mp hr
  obtain ⟨_, hl', hm'⟩ := isWhole_iff.mp hs
  simp [canonical, hl, hm, hl', hm']

theorem cls_eq_of_overlaps {r s : Register} (h : r.overlaps s = true) : r.cls = s.cls := by
  simp only [overlaps, Bool.and_eq_true, decide_eq_true_eq] at h
  have := congrArg RegisterName.cls h.1.1.2
  rwa [RegisterName.cls_parent, RegisterName.cls_parent] at this

theorem overlaps_iff {r s : Register} (hr : r.isWhole = true) (hs : s.isWhole = true) :
    r.overlaps s = true ↔ r.canonical = s.canonical := by
  rw [canonical_eq_iff hr hs]
  obtain ⟨hc, hl, hm⟩ := isWhole_iff.mp hr
  obtain ⟨hc', hl', hm'⟩ := isWhole_iff.mp hs
  simp [overlaps, isAbsent, hc, hc', hl, hm, hl', hm']

end Register

abbrev Registers := RegisterName → BitVec 64

def Registers.read (st : Registers) (r : Register) : BitVec 64 := st r.name.parent

theorem Registers.read_canonical (st : Registers) (r : Register) :
    st.read r.canonical = st.read r :=
  congrArg st r.name.parent_parent

/-- The result of an operation on its natural number of operands. Shifts take their amounts modulo
the width. -/
def Operation.onBits? : Operation → List (BitVec 64) → Option (BitVec 64)
  | .mov, [a] => some a
  | .not, [a] => some (~~~a)
  | .add, [a, b] => some (a + b)
  | .sub, [a, b] => some (a - b)
  | .and, [a, b] => some (a &&& b)
  | .or, [a, b] => some (a ||| b)
  | .xor, [a, b] => some (a ^^^ b)
  | .andn, [a, b] => some (a &&& ~~~b)
  | .orn, [a, b] => some (a ||| ~~~b)
  | .xnor, [a, b] => some (~~~(a ^^^ b))
  | .mul, [a, b] => some (a * b)
  | .sll, [a, b] => some (a <<< (b.toNat % 64))
  | _, _ => none

namespace MicroOp

def operandBits? (st : Registers) : Operand → Option (BitVec 64)
  | .immediate v => some (BitVec.ofInt 64 v)
  | .register r => if r.isWhole then some (st.read r) else none
  | _ => none

def registerBits (u : MicroOp) (st : Registers) (r : Register) : BitVec 64 :=
  match u.hardwired? r.canonical with
  | some v => BitVec.ofInt 64 v
  | none => st.read r

theorem registerBits_canonical (u : MicroOp) (st : Registers) (r : Register) :
    u.registerBits st r.canonical = u.registerBits st r := by
  rw [registerBits, registerBits, Register.canonical_canonical, Registers.read_canonical]

def addressBits (u : MicroOp) (st : Registers) (m : MemoryOperand) : BitVec 64 :=
  BitVec.ofInt 64 m.disp + (m.base.map (u.registerBits st)).getD 0 +
    BitVec.ofInt 64 m.scale * (m.index.map (u.registerBits st)).getD 0

def result? (u : MicroOp) (st : Registers) : Option (BitVec 64) :=
  if u.conditional then none
  else
    match u.kind with
    | .lea =>
      match u.sources with
      | [.memory m] => some (u.addressBits st m)
      | _ => none
    | .move | .copy | .alu => (u.sources.mapM (operandBits? st)).bind u.operation.onBits?
    | _ => none

structure Step (u : MicroOp) (st st' : Registers) : Prop where
  kept : ∀ r : Register, r.isWhole = true → u.writes? r = none → st'.read r = st.read r
  written : ∀ r : Register, r.isWhole = true → u.writes? r ≠ none →
    ∀ v, u.result? st = some v → st'.read r = v

end MicroOp

namespace MicroOp

structure WritesOnly (u : MicroOp) (d : Register) : Prop where
  whole : d.isWhole = true
  mem : .register d ∈ u.destinations
  others : ∀ o ∈ u.destinations, o = .register d ∨ o.isFlagOrStatus = true

theorem WritesOnly.writes?_eq {u : MicroOp} {d r : Register} (h : u.WritesOnly d)
    (hr : r.isWhole = true) :
    u.writes? r = if r.canonical = d.canonical then some d.canonical else none := by
  have hd := Register.isWhole_canonical h.whole
  -- flags belong to no general register
  have apart : ∀ s ∈ (u.destinations.filterMap u.operandRegister?).map Register.canonical,
      s.overlaps r = true → s = d.canonical := by
    intro s hs ho
    obtain ⟨s', hs', rfl⟩ := List.mem_map.mp hs
    obtain ⟨o, ho', hos⟩ := List.mem_filterMap.mp hs'
    obtain rfl | hflag := h.others o ho'
    · cases hos
      rfl
    · cases o with
      | register q =>
        have : q = s' := Option.some.inj hos
        subst this
        have same := Register.cls_eq_of_overlaps ho
        have general := (Register.isWhole_iff.mp hr).1
        have parent : q.canonical.cls = q.cls := q.name.cls_parent
        simp only [Operand.isFlagOrStatus, Register.isFlagOrStatus, ← parent, same, general] at hflag
        cases hflag
      | _ => cases hflag
  have mem : d.canonical ∈ (u.destinations.filterMap u.operandRegister?).map Register.canonical :=
    List.mem_map.mpr ⟨d, List.mem_filterMap.mpr ⟨_, h.mem, rfl⟩, rfl⟩
  unfold writes?
  split
  · next heq =>
    have overlaps : d.canonical.overlaps r = true := by
      rw [Register.overlaps_iff hd hr, Register.canonical_canonical]
      exact heq.symm
    have found : (((u.destinations.filterMap u.operandRegister?).map Register.canonical).find?
        (·.overlaps r)).isSome = true :=
      List.find?_isSome.mpr ⟨d.canonical, mem, overlaps⟩
    obtain ⟨s, hs⟩ := Option.isSome_iff_exists.mp found
    have hit : s.overlaps r = true := by simpa using List.find?_some hs
    rw [hs, apart s (List.mem_of_find?_eq_some hs) hit]
  · next hne =>
    refine List.find?_eq_none.mpr fun s hs ho => hne ?_
    obtain rfl := apart s hs ho
    rw [Register.overlaps_iff hd hr, Register.canonical_canonical] at ho
    exact ho.symm

end MicroOp

def IsRun (ops : List MicroOp) (st : Nat → Registers) : Prop :=
  ∀ k (u : MicroOp), ops[k]? = some u → u.Step (st k) (st (k + 1))

/-- The registers along a loop: before and after each micro-op of its body, in every iteration. -/
structure IsLoopRun (ops : List MicroOp) (st : Nat → Nat → Registers) : Prop where
  run : ∀ t, IsRun ops (st t)
  next : ∀ t, st (t + 1) 0 = st t ops.length

def Untouched (ops : List MicroOp) (r : Register) (i k : Nat) : Prop :=
  ∀ j u, i ≤ j → j < k → ops[j]? = some u → u.writes? r = none

theorem read_untouched {ops : List MicroOp} {st : Nat → Registers} (run : IsRun ops st)
    {r : Register} (hr : r.isWhole = true) {i k : Nat} (hik : i ≤ k) (hk : k ≤ ops.length)
    (h : Untouched ops r i k) : (st k).read r = (st i).read r := by
  induction k, hik using Nat.le_induction with
  | base => rfl
  | succ k hik ih =>
    have hu : ops[k]? = some ops[k] := List.getElem?_eq_getElem (by omega)
    rw [(run k _ hu).kept r hr (h k _ hik (by omega) hu)]
    exact ih (by omega) fun j u hj hjk => h j u hj (by omega)

section Execution

variable (ops : List MicroOp) (dest : Nat → Register)

def MicroOp.exec (u : MicroOp) (d : Register) (st : Registers) : Registers :=
  Function.update st d.name.parent ((u.result? st).getD 0)

def stateAt (st : Registers) : Nat → Registers
  | 0 => st
  | k + 1 =>
    match ops[k]? with
    | some u => u.exec (dest k) (stateAt st k)
    | none => stateAt st k

def iterationStart (st : Registers) : Nat → Registers
  | 0 => st
  | t + 1 => stateAt ops dest (iterationStart st t) ops.length

variable {ops dest}

theorem MicroOp.WritesOnly.step {u : MicroOp} {d : Register} (h : u.WritesOnly d) (st : Registers) :
    u.Step st (u.exec d st) where
  kept r hr hnone := by
    have other : r.name.parent ≠ d.name.parent := by
      rw [h.writes?_eq hr] at hnone
      intro he
      rw [if_pos ((Register.canonical_eq_iff hr h.whole).mpr he)] at hnone
      cases hnone
    exact Function.update_of_ne other _ _
  written r hr hsome v hv := by
    have same : r.name.parent = d.name.parent := by
      rw [h.writes?_eq hr] at hsome
      by_contra hne
      exact hsome (if_neg (mt (Register.canonical_eq_iff hr h.whole).mp hne))
    unfold Registers.read exec
    rw [same, hv]
    exact Function.update_self _ _ _

theorem isLoopRun_stateAt (h : ∀ (i : Nat) (u : MicroOp), ops[i]? = some u → u.WritesOnly (dest i))
    (st : Registers) : IsLoopRun ops fun t => stateAt ops dest (iterationStart ops dest st t) where
  run t k u hu := by
    have next : stateAt ops dest (iterationStart ops dest st t) (k + 1) =
        u.exec (dest k) (stateAt ops dest (iterationStart ops dest st t) k) := by
      rw [stateAt, hu]
    rw [next]
    exact (h k u hu).step _
  next _ := rfl

end Execution

end AddressFormulas
