import AddressFormulas.Proofs.Base.Values
import AddressFormulas.Proofs.Routine.Definitions
import AddressFormulas.Stride.Slicer
import Mathlib.Logic.Relation

namespace AddressFormulas

structure MicroOp.IsLinear (u : MicroOp) (d : Register) : Prop extends u.IsArithmetic d where
  linear : u.operation = .mov ∨ u.operation = .add ∨ u.operation = .sub

theorem MicroOp.IsLinear.isLoad_eq {u : MicroOp} {d : Register} (hu : u.IsLinear d) :
    u.isLoad = false := by
  obtain hk | hk | hk := hu.kind <;> simp [MicroOp.isLoad, hk]

def operandWord (st : Registers) : Operand → BitVec 64
  | .immediate v => BitVec.ofInt 64 v
  | .register r => st.read r
  | _ => 0

theorem MicroOp.IsLinear.operandBits?_eq {u : MicroOp} {d : Register} (hu : u.IsLinear d)
    (st : Registers) : u.sources.mapM (MicroOp.operandBits? st) = some (u.sources.map (operandWord st)) := by
  have sources := hu.sources
  generalize u.sources = os at sources
  induction os with
  | nil => rfl
  | cons o os ih =>
    have rest := ih fun o ho => sources o (List.mem_cons_of_mem _ ho)
    have first : MicroOp.operandBits? st o = some (operandWord st o) := by
      obtain ⟨v, rfl⟩ | ⟨r, rfl, hr⟩ := sources o List.mem_cons_self
      · rfl
      · simp [MicroOp.operandBits?, operandWord, hr]
    simp [first, rest]

namespace Loop

section Dependence

variable (ops : List MicroOp)

/-- The micro-op that computes what micro-op `i` reads from `r`, and how many iterations before. -/
def origin? (i : Nat) (r : Register) : Option (Nat × Nat) :=
  match lastBefore? ops (·.defines? r) i with
  | some (j, _, _) => some (j, 0)
  | none => (lastBefore? ops (·.defines? r) ops.length).map fun found => (found.1, 1)

/-- The micro-op that computes source `k` of micro-op `i`, and how many iterations before. Loads and
differences of a register with itself depend on no register. -/
def feed? (i k : Nat) : Option (Nat × Nat) :=
  ops[i]?.bind fun u =>
    if u.isLoad || (u.operation = .sub && Stride.readsSameTwice u) then none
    else
      match u.sources[k]? with
      | some (.register r) => origin? ops i r.canonical
      | _ => none

def Leads : Nat → Nat → Prop :=
  Relation.ReflTransGen fun i j => ∃ k d, feed? ops i k = some (j, d)

/-- Micro-op `i` depends on what micro-op `s` computed `e` iterations before, with no other value of
`s` in between. -/
inductive Reaches (s : Nat) : Nat → Nat → Prop
  | here : Reaches s s 0
  | step {i j k d e : Nat} : i ≠ s → feed? ops i k = some (j, d) → Reaches s j e →
      Reaches s i (d + e)

def Relevant (i : Nat) (r : Register) (j : Nat) : Prop :=
  ∃ a d, origin? ops i r = some (a, d) ∧ Leads ops a j

/-- An operand of micro-op `i` that cannot be taken for zero: another immediate, or a register that
the loop does not write. -/
def NonZero (i : Nat) : Operand → Prop
  | .immediate v => v ≠ 0
  | .register r => origin? ops i r.canonical = none
  | _ => False

/-- The value cycles on which the value of `r` at micro-op `i` depends are those of counters, as far
as nothing shows that they are not: a micro-op depends on itself through one source only, which it
does not subtract from what may be taken for zero, and on what it computed in the iteration
before. -/
structure Steady (i : Nat) (r : Register) : Prop where
  single : ∀ {j k k' a a' d d' : Nat}, Relevant ops i r j → feed? ops j k = some (a, d) →
    feed? ops j k' = some (a', d') → Leads ops a j → Leads ops a' j → k = k'
  added : ∀ {j a d : Nat} {u : MicroOp}, Relevant ops i r j → ops[j]? = some u →
    u.operation = .sub → feed? ops j 1 = some (a, d) → Leads ops a j →
      ∃ o, u.sources[0]? = some o ∧ NonZero ops j o
  turn : ∀ {j k a d e : Nat}, Relevant ops i r j → feed? ops j k = some (a, d) →
    Reaches ops j a e → d + e = 1

structure Body (dest : Nat → Register) : Prop where
  linear : ∀ (i : Nat) (u : MicroOp), ops[i]? = some u → u.isLoad = false → u.IsLinear (dest i)
  unconditional : ∀ (i : Nat) (u : MicroOp), ops[i]? = some u → u.conditional = false
  writes : ∀ (i : Nat) (u : MicroOp), ops[i]? = some u → u.WritesOnly (dest i)

end Dependence

variable {ops : List MicroOp} {dest : Nat → Register} {st : Nat → Nat → Registers}

theorem feed?_eq_origin? {i k : Nat} {u : MicroOp} {r : Register} (hu : ops[i]? = some u)
    (hload : u.isLoad = false) (hdiffers : u.operation = .sub → Stride.readsSameTwice u = false)
    (hk : u.sources[k]? = some (.register r)) : feed? ops i k = origin? ops i r.canonical := by
  have depends : ¬((u.isLoad || (decide (u.operation = .sub) && Stride.readsSameTwice u)) = true) := by
    rw [hload]
    by_cases hop : u.operation = .sub
    · simp [hdiffers hop]
    · simp [hop]
  unfold feed?
  simp only [hu, Option.bind_some]
  rw [if_neg depends, hk]

theorem Reaches.leads {s i e : Nat} (h : Reaches ops s i e) : Leads ops i s := by
  induction h with
  | here => exact .refl
  | step _ hf _ ih => exact .head ⟨_, _, hf⟩ ih

theorem Leads.feed {i j k a d : Nat} (h : Leads ops i j) (hf : feed? ops j k = some (a, d)) :
    Leads ops i a :=
  .tail h ⟨k, d, hf⟩

def result (dest : Nat → Register) (st : Nat → Nat → Registers) (i t : Nat) : BitVec 64 :=
  (st t (i + 1)).read (dest i)

namespace Body

variable (hb : Body ops dest)

include hb

theorem defines? {i : Nat} {u : MicroOp} (hu : ops[i]? = some u) {r : Register}
    (hr : r.isWhole = true) :
    u.defines? r = if r.canonical = (dest i).canonical then some (dest i).canonical else none := by
  unfold MicroOp.defines?
  rw [if_neg (by simp [hb.unconditional i u hu]), (hb.writes i u hu).writes?_eq hr]

theorem untouched {r : Register} {a c : Nat}
    (h : ∀ j (u : MicroOp), a ≤ j → j < c → ops[j]? = some u → u.defines? r = none) :
    Untouched ops r a c := by
  intro j u hj hjc hu
  have none := h j u hj hjc hu
  unfold MicroOp.defines? at none
  rwa [if_neg (by simp [hb.unconditional j u hu])] at none

theorem read_of_last (hrun : IsLoopRun ops st) {r : Register} (hr : r.isWhole = true) {j c : Nat}
    {u : MicroOp} {written : Register} (hc : c ≤ ops.length)
    (hlast : lastBefore? ops (·.defines? r) c = some (j, u, written)) (t : Nat) :
    (st t c).read r = result dest st j t := by
  obtain ⟨hj, hu, hd, later⟩ := lastBefore?_eq_some hlast
  have kept : Untouched ops r (j + 1) c :=
    hb.untouched fun a v ha hac hv => later a v (by omega) hac hv
  rw [read_untouched (hrun.run t) hr (by omega) hc kept]
  have same : r.canonical = (dest j).canonical := by
    rw [hb.defines? hu hr] at hd
    by_contra hne
    rw [if_neg hne] at hd
    cases hd
  rw [← Registers.read_canonical _ r, same, Registers.read_canonical]
  rfl

theorem read_of_none (hrun : IsLoopRun ops st) {r : Register} (hr : r.isWhole = true) {c : Nat}
    (hc : c ≤ ops.length) (hlast : lastBefore? ops (·.defines? r) c = none) (t : Nat) :
    (st t c).read r = (st t 0).read r :=
  read_untouched (hrun.run t) hr (Nat.zero_le c) hc <|
    hb.untouched fun _ _ _ hac hv => lastBefore?_eq_none hlast hac hv

theorem read_origin (hrun : IsLoopRun ops st) {r : Register} (hr : r.isWhole = true) {i j d : Nat}
    (hi : i ≤ ops.length) (h : origin? ops i r = some (j, d)) (t : Nat) :
    (st (t + d) i).read r = result dest st j t := by
  unfold origin? at h
  split at h
  · next a u written hlast =>
    cases h
    exact hb.read_of_last hrun hr hi hlast t
  · next hnone =>
    obtain ⟨⟨a, u, written⟩, hlast, he⟩ := Option.map_eq_some_iff.mp h
    cases he
    rw [hb.read_of_none hrun hr hi hnone, hrun.next]
    exact hb.read_of_last hrun hr (Nat.le_refl _) hlast t

theorem read_outside (hrun : IsLoopRun ops st) {r : Register} (hr : r.isWhole = true) {i : Nat}
    (hi : i ≤ ops.length) (h : origin? ops i r = none) (t : Nat) :
    (st t i).read r = (st 0 0).read r := by
  unfold origin? at h
  split at h
  · cases h
  next hnone =>
  have never : lastBefore? ops (·.defines? r) ops.length = none := by simpa using h
  rw [hb.read_of_none hrun hr hi hnone]
  induction t with
  | zero => rfl
  | succ t ih => rw [hrun.next, hb.read_of_none hrun hr (Nat.le_refl _) never, ih]

omit hb in
theorem origin?_spec {i j d : Nat} {r : Register} (h : origin? ops i r = some (j, d)) :
    d ≤ 1 ∧ ∃ u written, ops[j]? = some u ∧ u.defines? r = some written := by
  unfold origin? at h
  split at h
  · next a u written hlast =>
    cases h
    obtain ⟨_, hu, hd, _⟩ := lastBefore?_eq_some hlast
    exact ⟨Nat.zero_le 1, u, written, hu, hd⟩
  · obtain ⟨⟨a, u, written⟩, hlast, he⟩ := Option.map_eq_some_iff.mp h
    cases he
    obtain ⟨_, hu, hd, _⟩ := lastBefore?_eq_some hlast
    exact ⟨Nat.le_refl 1, u, written, hu, hd⟩

theorem result_eq (hrun : IsLoopRun ops st) {i : Nat} {u : MicroOp} (hu : ops[i]? = some u)
    (hload : u.isLoad = false) (t : Nat) {v : BitVec 64}
    (hv : u.operation.onBits? (u.sources.map (operandWord (st t i))) = some v) :
    result dest st i t = v := by
  have linear := hb.linear i u hu hload
  have whole := linear.writes.whole
  refine (hrun.run t i u hu).written (dest i) whole ?_ v ?_
  · rw [linear.writes.writes?_eq whole, if_pos rfl]
    simp
  · unfold MicroOp.result?
    rw [linear.unconditional]
    obtain hk | hk | hk := linear.kind <;> simp [hk, linear.operandBits?_eq, hv]

end Body

end Loop

end AddressFormulas
