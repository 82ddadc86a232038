import AddressFormulas.Proofs.Base.Consumption
import Mathlib.Algebra.Order.Group.Multiset
import Mathlib.Data.List.TakeWhile
import Mathlib.Tactic.MkIffOfInductiveProp

namespace AddressFormulas

def Slot.owner : Slot → Slot
  | register r => register ⟨r.name.parent, 0, 0⟩
  | site s => site s

def Register.owner (r : Register) : Slot := (Slot.register r).owner

def owners (rs : List Register) : Multiset Slot := (rs.map Register.owner : List Slot)

def Register.isFollowed (r : Register) : Bool := !(r.isAbsent || r.isPseudo || r.isFlagOrStatus)

namespace MicroOp

def registers (u : MicroOp) : List Register :=
  (u.sources ++ u.destinations).flatMap fun
    | .register r => [r]
    | .memory m => m.base.toList ++ m.index.toList
    | _ => []

/-- A micro-op that claims every register that was sliced for it, unless it is given up: an address
that it computes names no register twice and none times zero, and a division or shift with three
sources has no memory operand but the first. -/
@[mk_iff] structure Tidy (u : MicroOp) : Prop where
  lea : u.kind = .lea → ∀ m ∈ u.sources.head?.bind Operand.memory?, ∀ i ∈ m.index,
    i.isFollowed = true → m.scale ≠ 0 ∧ ∀ b ∈ m.base, b.canonical ≠ i.canonical
  three : u.kind = .div ∨ u.operation = .sll → u.valueSources = 3 →
    ∀ m ∈ u.sources.tail.filterMap Operand.memory?, ∀ r ∈ m.base.toList ++ m.index.toList,
      r.isFollowed = false

instance (u : MicroOp) : Decidable u.Tidy := decidable_of_iff' _ (tidy_iff u)

def follows (u : MicroOp) (o : Operand) : List Register :=
  ((match o with
    | .memory m => m.base.toList ++ m.index.toList
    | o => (u.operandRegister? o).toList).map Register.canonical).filter Register.isFollowed

theorem valueRegisters_eq_flatMap (u : MicroOp) : u.valueRegisters = u.sources.flatMap u.follows := by
  rw [valueRegisters, sourceRegisters, List.map_flatMap, List.filter_flatMap]
  rfl

end MicroOp

theorem Register.isFollowed_canonical (r : Register) : r.canonical.isFollowed = r.isFollowed := by
  have same : r.canonical.cls = r.cls := r.name.cls_parent
  simp [isFollowed, isAbsent, isPseudo, isFlagOrStatus, same]

namespace MicroOp

variable {u : MicroOp}

theorem follows_flag {o : Operand} (h : o.isFlagOrStatus = true) : u.follows o = [] := by
  cases o with
  | register r =>
    have out : r.canonical.isFollowed = false := by
      rw [Register.isFollowed_canonical]
      simp [Register.isFollowed, show r.isFlagOrStatus = true from h]
    simp [follows, operandRegister?, out]
  | _ => cases h

theorem valueRegisters_eq_take (u : MicroOp) :
    u.valueRegisters = (u.sources.take u.valueSources).flatMap u.follows := by
  have parts : u.sources = (u.sources.reverse.dropWhile Operand.isFlagOrStatus).reverse ++
      (u.sources.reverse.takeWhile Operand.isFlagOrStatus).reverse := by
    rw [← List.reverse_append, List.takeWhile_append_dropWhile, List.reverse_reverse]
  have front : u.sources.take u.valueSources =
      (u.sources.reverse.dropWhile Operand.isFlagOrStatus).reverse := by
    have length : u.valueSources =
        (u.sources.reverse.dropWhile Operand.isFlagOrStatus).reverse.length := by
      rw [List.length_reverse, valueSources]
    rw [length]
    nth_rewrite 2 [parts]
    exact List.take_left
  have flags : (u.sources.reverse.takeWhile Operand.isFlagOrStatus).reverse.flatMap u.follows = [] := by
    apply List.flatMap_eq_nil_iff.mpr
    intro o ho
    exact follows_flag (List.mem_takeWhile_imp (List.mem_reverse.mp ho))
  rw [valueRegisters_eq_flatMap, front]
  nth_rewrite 1 [parts]
  rw [List.flatMap_append, flags, List.append_nil]

/-- Each register that is an operand, or part of the address of one, begins at bit zero. -/
def Low (u : MicroOp) : Prop := ∀ r ∈ u.registers, r.lsb = 0

instance (u : MicroOp) : Decidable u.Low := inferInstanceAs (Decidable (∀ r ∈ u.registers, r.lsb = 0))

theorem Low.operandRegister? (h : u.Low) {o : Operand} (ho : o ∈ u.sources ∨ o ∈ u.destinations)
    {r : Register} (hr : u.operandRegister? o = some r) : r.lsb = 0 := by
  cases o with
  | register s =>
    obtain rfl : s = r := Option.some.inj hr
    exact h s (List.mem_flatMap.mpr ⟨_, List.mem_append.mpr ho, List.mem_singleton_self s⟩)
  | temporary i =>
    obtain rfl : Register.temporary i u.width = r := Option.some.inj hr
    rfl
  | _ => cases hr

theorem Low.address (h : u.Low) {m : MemoryOperand} (hm : m ∈ u.memoryOperands) {r : Register}
    (hr : r ∈ m.base.toList ++ m.index.toList) : r.lsb = 0 := by
  obtain ⟨o, ho, hmem⟩ := List.mem_filterMap.mp hm
  cases o with
  | memory m' =>
    obtain rfl : m' = m := Option.some.inj hmem
    exact h r (List.mem_flatMap.mpr ⟨_, ho, hr⟩)
  | _ => cases hmem

theorem Low.sources (h : u.Low) {r : Register} (hr : r ∈ u.sourceRegisters) : r.lsb = 0 := by
  obtain ⟨o, ho, hmem⟩ := List.mem_flatMap.mp hr
  cases o with
  | memory m =>
    apply h.address (List.mem_filterMap.mpr ⟨.memory m, List.mem_append_left _ ho, rfl⟩)
    exact hmem
  | _ => exact h.operandRegister? (.inl ho) (Option.mem_toList.mp hmem)

theorem Low.defines? (h : u.Low) {r d : Register} (hd : u.defines? r = some d) : d.lsb = 0 := by
  unfold MicroOp.defines? at hd
  split at hd
  · cases hd
  · obtain ⟨s, hs, rfl⟩ := List.mem_map.mp (List.mem_of_find?_eq_some hd)
    obtain ⟨o, ho, hreg⟩ := List.mem_filterMap.mp hs
    have low : s.lsb = 0 := h.operandRegister? (.inr ho) hreg
    exact low

end MicroOp

namespace Base

variable {u : MicroOp}

theorem owners_append (rs rs' : List Register) : owners (rs ++ rs') = owners rs + owners rs' := by
  simp [owners]

theorem owner_eq_iff {r s : Register} : r.owner = s.owner ↔ r.name.parent = s.name.parent := by
  simp [Register.owner, Slot.owner]

section Operands

theorem owners_follows_le {i : Nat} {o : Operand} (ho : u.sources[i]? = some o)
    (hm : ∀ m, o = .memory m → u.follows o = []) : owners (u.follows o) ≤ owners (operandClaim u i) := by
  have claim : operandClaim u i = ((u.operandRegister? o).map Register.canonical).toList := by
    simp [operandClaim, ho]
  have some : ∀ {r : Register}, u.operandRegister? o = some r →
      u.follows o = [r.canonical].filter Register.isFollowed →
      owners (u.follows o) ≤ owners (operandClaim u i) := by
    intro r hr hf
    rw [claim, hr, hf]
    exact Multiset.coe_le.mpr ((List.filter_sublist.map _).subperm)
  cases o with
  | memory m =>
    rw [hm m rfl]
    exact Multiset.zero_le _
  | immediate v => exact Multiset.zero_le _
  | register r => exact some rfl rfl
  | temporary k => exact some rfl rfl

theorem follows_memory {m : MemoryOperand}
    (h : ∀ r ∈ m.base.toList ++ m.index.toList, r.isFollowed = false) : u.follows (.memory m) = [] := by
  apply List.filter_eq_nil_iff.mpr
  intro r hr
  obtain ⟨s, hs, rfl⟩ := List.mem_map.mp hr
  rw [Register.isFollowed_canonical, h s hs]
  decide

theorem owners_take_le {k : Nat}
    (hm : ∀ i < k, ∀ m, u.sources[i]? = some (.memory m) → u.follows (.memory m) = []) :
    owners ((u.sources.take k).flatMap u.follows) ≤ owners ((List.range k).flatMap (operandClaim u)) := by
  induction k with
  | zero => exact Multiset.zero_le _
  | succ k ih =>
    have before := ih fun i hi => hm i (by omega)
    rw [List.take_add_one, List.range_succ, List.flatMap_append, List.flatMap_append, owners_append,
      owners_append]
    apply add_le_add before
    cases ho : u.sources[k]? with
    | none => exact Multiset.zero_le _
    | some o =>
      rw [Option.toList_some, List.flatMap_singleton, List.flatMap_singleton]
      apply owners_follows_le ho
      rintro m rfl
      exact hm k (by omega) m ho

theorem valueRegisters_le_three (ht : u.Tidy) (hkind : u.kind = .div ∨ u.operation = .sll)
    (hcount : u.valueSources = 3) (hfirst : ∀ m, u.sources[0]? ≠ some (.memory m)) :
    owners u.valueRegisters ≤
      owners (operandClaim u 0) + (owners (operandClaim u 1) + owners (operandClaim u 2)) := by
  have tidy : ∀ i < 3, ∀ m, u.sources[i]? = some (.memory m) → u.follows (.memory m) = [] := by
    intro i hi m hm
    cases i with
    | zero => exact absurd hm (hfirst m)
    | succ i =>
      have tail : .memory m ∈ u.sources.tail := by
        apply List.mem_of_getElem?
        rw [List.getElem?_tail]
        exact hm
      exact follows_memory (ht.three hkind hcount m (List.mem_filterMap.mpr ⟨_, tail, rfl⟩))
  rw [u.valueRegisters_eq_take, hcount, ← owners_append, ← owners_append]
  have claimed := owners_take_le tidy
  simpa [List.range_succ] using claimed

theorem valueRegisters_le_two (hpos : 0 < u.valueSources) (hcount : u.valueSources ≤ 2)
    (hmemory : ∀ i < u.valueSources, ∀ m, u.sources[i]? ≠ some (.memory m)) :
    owners u.valueRegisters ≤
      owners (operandClaim u 0) + owners (if 1 < u.valueSources then operandClaim u 1 else []) := by
  have claimed := owners_take_le (u := u) fun i hi m hm => absurd hm (hmemory i hi m)
  have range : (List.range u.valueSources).flatMap (operandClaim u) =
      operandClaim u 0 ++ if 1 < u.valueSources then operandClaim u 1 else [] := by
    obtain hone | htwo : u.valueSources = 1 ∨ u.valueSources = 2 := by omega
    · simp [hone]
    · simp [htwo, List.range_succ]
  rw [u.valueRegisters_eq_take, ← owners_append, ← range]
  exact claimed

end Operands

section Lea

theorem mem_registers_of_get? {f : Formula} {site : Site} {r : Register} {t : Term}
    (h : f.terms.get? (.register site r) = some t) : r ∈ f.terms.entries.filterMap termRegister? :=
  List.mem_filterMap.mpr ⟨_, Table.mem_of_findEntry h, rfl⟩

variable {m : MemoryOperand} (hm : ∀ i ∈ m.index, i.isFollowed = true →
  m.scale ≠ 0 ∧ ∀ b ∈ m.base, b.canonical ≠ i.canonical)

include hm

theorem base_mem_addressFormula {b : Register} (hb : b ∈ m.base) (followed : b.isFollowed = true) :
    b.canonical ∈ (u.addressFormula m).terms.entries.filterMap termRegister? := by
  have first : (addRegister u (.constant m.disp) m.base 1).terms.get? (.register u.site b.canonical) =
      some ⟨.ofInt 1, some u.site⟩ := by
    rw [Option.mem_def.mp hb, addRegister, Formula.addTerm_of_none rfl (get?_constant _ _ _)]
    exact Table.get?_insert_self _ _ _
  apply @mem_registers_of_get? _ u.site
  rw [addressFormula_eq]
  cases hi : m.index with
  | none => exact first
  | some i =>
    have other : i.canonical ≠ b.canonical := by
      intro same
      have followed' : i.isFollowed = true := by
        rw [← i.isFollowed_canonical, same, b.isFollowed_canonical, followed]
      exact (hm i hi followed').2 b hb same.symm
    rw [addRegister, Formula.get?_addTerm_of_ne (by simpa using Ne.symm other)]
    exact first

theorem index_mem_addressFormula {i : Register} (hi : i ∈ m.index) (followed : i.isFollowed = true) :
    i.canonical ∈ (u.addressFormula m).terms.entries.filterMap termRegister? := by
  obtain ⟨scale, apart⟩ := hm i hi followed
  have new : (addRegister u (.constant m.disp) m.base 1).terms.get? (.register u.site i.canonical) =
      none := by
    cases hb : m.base with
    | none => exact get?_constant _ _ _
    | some b =>
      rw [addRegister, Formula.get?_addTerm_of_ne (by simpa using Ne.symm (apart b hb))]
      exact get?_constant _ _ _
  have nonzero : (Coeff.ofInt m.scale).isZero = false := decide_eq_false scale
  apply @mem_registers_of_get? _ u.site _ ⟨.ofInt m.scale, some u.site⟩
  rw [addressFormula_eq, Option.mem_def.mp hi]
  change ((addRegister u (.constant m.disp) m.base 1).addTerm _ _ _).terms.get? _ = _
  rw [Formula.addTerm_of_none nonzero new]
  exact Table.get?_insert_self _ _ _

theorem nodup_follows_memory : (u.follows (.memory m)).Nodup := by
  have pair : ∀ x y : Register, (y.isFollowed = true → x ≠ y) →
      ([x, y].filter Register.isFollowed).Nodup := by
    intro x y hxy
    by_cases hx : x.isFollowed = true <;> by_cases hy : y.isFollowed = true <;> simp_all
  have single : ∀ x : Register, ([x].filter Register.isFollowed).Nodup := fun x =>
    (List.nodup_singleton x).filter _
  change (((m.base.toList ++ m.index.toList).map Register.canonical).filter Register.isFollowed).Nodup
  cases hb : m.base with
  | none =>
    cases m.index with
    | none => exact List.nodup_nil
    | some i => exact single i.canonical
  | some b =>
    cases hi : m.index with
    | none => exact single b.canonical
    | some i =>
      apply pair
      rw [i.isFollowed_canonical]
      exact fun followed => (hm i hi followed).2 b hb

theorem follows_subperm_lea :
    (u.follows (.memory m)).Subperm ((u.addressFormula m).terms.entries.filterMap termRegister?) := by
  apply (nodup_follows_memory hm).subperm
  intro r hr
  obtain ⟨hmem, followed⟩ := List.mem_filter.mp hr
  obtain ⟨s, hs, rfl⟩ := List.mem_map.mp hmem
  rw [Register.isFollowed_canonical] at followed
  obtain hs | hs := List.mem_append.mp hs
  · exact base_mem_addressFormula hm (Option.mem_toList.mp hs) followed
  · exact index_mem_addressFormula hm (Option.mem_toList.mp hs) followed

end Lea

def sliced (u : MicroOp) : List Register := if u.operation = .invalid then [] else u.valueRegisters

section Address

variable {m : MemoryOperand} (hhead : u.sources.head? = some (.memory m))

include hhead

theorem sliced_le_lea (ht : u.Tidy) (hlea : u.kind = .lea) (hone : u.valueSources = 1) :
    owners (sliced u) ≤ owners ((u.addressFormula m).terms.entries.filterMap termRegister?) := by
  unfold sliced
  split
  · exact Multiset.zero_le _
  · obtain ⟨rest, hsources⟩ : ∃ rest, u.sources = .memory m :: rest :=
      List.head?_eq_some_iff.mp hhead
    have first : u.valueRegisters = u.follows (.memory m) := by
      rw [u.valueRegisters_eq_take, hone, hsources]
      simp
    rw [first]
    have tidy := ht.lea hlea m (by rw [hhead]; rfl)
    exact Multiset.map_le_map (Multiset.coe_le.mpr (follows_subperm_lea tidy))

theorem low_of_mem_lea (hu : u.Low) :
    ∀ r ∈ (u.addressFormula m).terms.entries.filterMap termRegister?, r.lsb = 0 := by
  intro r hr
  obtain ⟨⟨key, t⟩, he, hkey⟩ := List.mem_filterMap.mp hr
  cases key with
  | register site r' =>
    obtain rfl : r' = r := Option.some.inj hkey
    obtain ⟨_, s, hs, rfl⟩ := key_of_mem_addressFormula he rfl
    have mem : m ∈ u.memoryOperands :=
      List.mem_filterMap.mpr ⟨.memory m, List.mem_append_left _ (List.mem_of_head? hhead), rfl⟩
    have low : s.lsb = 0 := hu.address mem (by simpa using hs)
    exact low
  | _ => cases hkey

end Address

end Base

end AddressFormulas
