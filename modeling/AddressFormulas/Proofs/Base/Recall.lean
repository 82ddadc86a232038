import AddressFormulas.Proofs.Base.Consumption
import AddressFormulas.Proofs.Base.Definition
import AddressFormulas.Proofs.Base.Termination

/-!
What one definition comes to, whether its value was found before or not. Values are kept under the
micro-op alone, so this needs a routine in which no micro-op defines two of the registers that are
asked for, and every micro-op claims just the registers that it has sliced.
-/

namespace AddressFormulas

open WalkM

def MicroOp.asks (u : MicroOp) : List Register :=
  (if u.isStore then u.sourceRegisters.map Register.canonical else u.valueRegisters) ++
    u.memoryOperands.flatMap fun m => (m.base.toList ++ m.index.toList).map Register.canonical

theorem MicroOp.valueRegisters_subset_asks (u : MicroOp) : u.valueRegisters ⊆ u.asks := by
  intro r hr
  apply List.mem_append_left
  split
  · exact (List.mem_filter.mp hr).1
  · exact hr

theorem MicroOp.defines?_eq_some {u : MicroOp} {r d : Register} (h : u.defines? r = some d) :
    u.conditional = false ∧ d.overlaps r = true := by
  unfold defines? at h
  split at h
  · cases h
  · next hc => exact ⟨by simpa using hc, by simpa using List.find?_some h⟩

theorem Register.overlaps_self {r : Register} (hr : r.isAbsent = false) (hb : r.lsb ≤ r.msb) :
    r.overlaps r = true := by
  simp [overlaps, hr, hb]

theorem Register.isAbsent_of_overlaps {r s : Register} (h : r.overlaps s = true) :
    r.isAbsent = false := by
  simp only [overlaps, Bool.and_eq_true] at h
  simpa using h.1.1.1.1

namespace Graph

def ops (g : Graph) : List MicroOp := g.blocks.flatMap Block.ops

def asked (g : Graph) : List Register := g.ops.flatMap MicroOp.asks

structure Orderly (g : Graph) : Prop where
  bits : ∀ r ∈ g.asked, r.overlaps r = true
  /-- All registers that a micro-op defines, of those that are asked for, are one. -/
  single : ∀ u ∈ g.ops, u.effect ≠ .impossible → ∀ r ∈ g.asked, ∀ s ∈ g.asked,
    (u.defines? r).isSome → (u.defines? s).isSome → u.defines? r = u.defines? s
  /-- What is sliced for a micro-op is claimed by it. -/
  claims : ∀ u ∈ g.ops, u.effect = .normal →
    (Base.claims u).Perm (if u.operation = .invalid then [] else u.valueRegisters)
  /-- A micro-op does not read different parts of one register. -/
  apart : ∀ u ∈ g.ops, u.effect = .normal → ∀ r ∈ u.valueRegisters, ∀ s ∈ u.valueRegisters,
    r.name.parent = s.name.parent → r = s

def AsksFor (g : Graph) (u : MicroOp) (d : Register) : Prop := ∃ r ∈ g.asked, u.defines? r = some d

theorem mem_ops {g : Graph} {b i : Nat} {u : MicroOp} (h : g.op? b i = some u) : u ∈ g.ops := by
  obtain ⟨block, hb, hi⟩ := op?_eq_some.mp h
  exact List.mem_flatMap.mpr ⟨block, List.mem_of_getElem? hb, List.mem_of_getElem? hi⟩

theorem mem_asked {g : Graph} {b i : Nat} {u : MicroOp} (h : g.op? b i = some u) {r : Register}
    (hr : r ∈ u.asks) : r ∈ g.asked :=
  List.mem_flatMap.mpr ⟨u, mem_ops h, hr⟩

end Graph

namespace Base

section Definitions

variable (settings : Settings) (g : Graph) (bases : OperandTable)

def freshValue (u : Placed) (reg : Register) : Formula :=
  match (define settings g g.placeBound u reg).run { client := { bases } } with
  | .ok _ w => (w.client.definitions.get? u.op.site).getD .zero
  | .error _ _ => .zero

/-- The definitions known are those that would be found afresh. -/
def AsFresh (definitions : Table Site Formula) : Prop :=
  ∀ u : Placed, g.op? u.block u.index = some u.op → ∀ f, definitions.get? u.op.site = some f →
    ∀ d, g.AsksFor u.op d → f = freshValue settings g bases u d

structure Holding (vs : List (Slot × Formula)) (w : Walk BaseState) : Prop where
  values : w.client.values.newestFirst = vs
  table : w.client.bases = bases
  stop : w.bounds.stop = 0
  known : AsFresh settings g bases w.client.definitions

def Kept (n : Nat) (definitions definitions' : Table Site Formula) : Prop :=
  ∀ u : Placed, g.op? u.block u.index = some u.op → n ≤ g.weight u.block u.index →
    definitions'.get? u.op.site = definitions.get? u.op.site

def Brings {α : Type} (n : Nat) (m : M α) (top top' : List (Slot × Formula)) (a : α) : Prop :=
  ∀ vs w, Holding settings g bases (top ++ vs) w →
    wp m (fun a' w' => a' = a ∧ Holding settings g bases (top' ++ vs) w' ∧
      Kept g n w.client.definitions w'.client.definitions) (fun _ _ => False) w

end Definitions

variable {settings : Settings} {g : Graph} {bases : OperandTable} {α β : Type} {n : Nat}
  {top top' top'' : List (Slot × Formula)}

namespace Brings

theorem bind {m : M α} {f : α → M β} {a : α} {b : β}
    (hm : Brings settings g bases n m top top' a) (hf : Brings settings g bases n (f a) top' top'' b) :
    Brings settings g bases n (m >>= f) top top'' b := by
  intro vs w hw
  refine wp_bind.mpr (wp_imp (hm vs w hw) ?_)
  rintro _ w₁ ⟨rfl, hw₁, kept₁⟩
  refine wp_imp (hf vs w₁ hw₁) ?_
  rintro _ w₂ ⟨rfl, hw₂, kept₂⟩
  exact ⟨rfl, hw₂, fun u hu hn => (kept₂ u hu hn).trans (kept₁ u hu hn)⟩

theorem congr {m m' : M α} {a : α} (hm : ∀ w, w.bounds.stop = 0 → m' w = m w)
    (h : Brings settings g bases n m top top' a) : Brings settings g bases n m' top top' a :=
  fun vs w hw => (wp_congr (hm w hw.stop)).mpr (h vs w hw)

theorem above {m : M α} {a : α} (h : Brings settings g bases n m [] top' a)
    (top : List (Slot × Formula)) : Brings settings g bases n m top (top' ++ top) a := by
  intro vs w hw
  rw [List.append_assoc]
  exact h (top ++ vs) w hw

theorem weaken {m : M α} {a : α} {n' : Nat} (h : Brings settings g bases n m top top' a)
    (hn : n ≤ n') : Brings settings g bases n' m top top' a := by
  intro vs w hw
  refine wp_imp (h vs w hw) ?_
  rintro _ w' ⟨rfl, hw', kept⟩
  exact ⟨rfl, hw', fun u hu hn' => kept u hu (hn.trans hn')⟩

theorem of_turns {m : M α} {a : α} (h : Turns m top top' a) :
    Brings settings g bases n m top top' a := by
  intro vs w hw
  refine wp_imp (h vs w hw.values) ?_
  rintro a' w' ⟨rfl, client, bounds⟩
  refine ⟨rfl, ⟨by rw [client], by rw [client]; exact hw.table, by rw [bounds]; exact hw.stop, ?_⟩, ?_⟩
  · rw [client]
    exact hw.known
  · rw [client]
    exact fun _ _ _ => rfl

theorem ok (a : α) : Brings settings g bases n (pure a : M α) top top a := of_turns (.ok a)

theorem push {reg : Register} (hr : reg.isAbsent = false) (f : Formula) :
    Brings settings g bases n (push reg f) [] [(.register reg, f)] () := by
  intro vs w hw
  refine ⟨rfl, ⟨?_, hw.table, hw.stop, hw.known⟩, fun _ _ _ => rfl⟩
  change (w.client.values.push reg f).newestFirst = _
  rw [Pending.push, hr, hw.values]
  rfl

theorem pushSite (site : Site) (f : Formula) :
    Brings settings g bases n (pushSite site f) [] [(.site site, f)] () := by
  intro vs w hw
  refine ⟨rfl, ⟨?_, hw.table, hw.stop, hw.known⟩, fun _ _ _ => rfl⟩
  change (.site site, f) :: w.client.values.newestFirst = _
  rw [hw.values]
  rfl

theorem report (hs : settings.strict = false) {failure : Failure}
    (hf : failure.isCoverageGap = true) :
    Brings settings g bases n (WalkM.report settings.strict failure) top top () := by
  refine of_turns (.keep fun w => ?_)
  rw [hs]
  exact (wp_report hf).mpr ⟨rfl, rfl, rfl⟩

theorem read {f : Walk BaseState → M β} {b : β}
    (hf : ∀ w, w.bounds.stop = 0 → Brings settings g bases n (f w) top top' b) :
    Brings settings g bases n (get >>= f) top top' b :=
  fun vs w hw => hf w hw.stop vs w hw

theorem client {f : BaseState → M β} {b : β}
    (hf : ∀ st, st.bases = bases → Brings settings g bases n (f st) top top' b) :
    Brings settings g bases n (WalkM.client >>= f) top top' b :=
  fun vs w hw => hf w.client hw.table vs w hw

theorem setStart (start : Nat) :
    Brings settings g bases n (modify fun w => { w with bounds.start := start }) top top () :=
  fun _ _ hw => ⟨rfl, ⟨hw.values, hw.table, hw.stop, hw.known⟩, fun _ _ _ => rfl⟩

theorem setBounds {bounds : Bounds} (hb : bounds.stop = 0) :
    Brings settings g bases n ((slicer settings g).setBounds bounds) top top () :=
  fun _ _ hw => ⟨rfl, ⟨hw.values, hw.table, hb, hw.known⟩, fun _ _ _ => rfl⟩

end Brings

section Remembered

variable {u : Placed} {definitions : Table Site Formula} (hd : g.DistinctSites)
  (hu : g.op? u.block u.index = some u.op)

include hd hu

theorem eq_of_site_eq {v : Placed} (hv : g.op? v.block v.index = some v.op)
    (same : v.op.site = u.op.site) : v = u := by
  obtain ⟨hb, hi⟩ := hd _ _ _ _ _ _ hv hu same
  rw [hb, hi, hu] at hv
  obtain ⟨vb, vi, vo⟩ := v
  obtain ⟨ub, ui, uo⟩ := u
  simp_all

theorem AsFresh.insert (h : AsFresh settings g bases definitions) {f : Formula}
    (hf : ∀ d, g.AsksFor u.op d → f = freshValue settings g bases u d) :
    AsFresh settings g bases (definitions.insert u.op.site f) := by
  intro v hv f' hf' d hd'
  by_cases hvu : v = u
  · subst hvu
    rw [Table.get?_insert_self] at hf'
    rw [← Option.some.inj hf']
    exact hf d hd'
  · rw [Table.get?_insert_of_ne fun same => hvu (eq_of_site_eq hd hu hv same)] at hf'
    exact h v hv f' hf' d hd'

theorem Kept.insert {definitions' : Table Site Formula}
    (h : Kept g (g.weight u.block u.index) definitions definitions') (f : Formula) :
    Kept g (g.weight u.block u.index + 1) definitions (definitions'.insert u.op.site f) := by
  intro v hv hweight
  have other : v ≠ u := by
    rintro rfl
    omega
  rw [Table.get?_insert_of_ne fun same => other (eq_of_site_eq hd hu hv same)]
  exact h v hv (by omega)

end Remembered

section Steps

variable (hs : settings.strict = false)

def WalksBring (settings : Settings) (g : Graph) (bases : OperandTable) (p : Position) : Prop :=
  ∀ reg ∈ g.asked, ∃ d f, d.overlaps reg = true ∧ ∀ k bounds, g.weight p.block p.before < k →
    bounds.stop = 0 → Brings settings g bases (g.weight p.block p.before)
      ((slicer settings g).walk g k p reg bounds) [] [(.register d, f)] ()

structure Spill where
  asked : Register
  put : Register
  value : Formula
  overlaps : put.overlaps asked = true

def Spill.pending (found? : Option Spill) : List (Slot × Formula) :=
  found?.toList.map fun found => (.register found.put, found.value)

def FollowsBring (settings : Settings) (g : Graph) (bases : OperandTable) (p : Position) : Prop :=
  ∀ address, ∃ found?, ∀ k, g.weight p.block p.before < k →
    Brings settings g bases (g.weight p.block p.before) ((slicer settings g).follow g k p address)
      [] (Spill.pending found?) (found?.map Spill.asked)

variable {u : Placed} (hu : g.op? u.block u.index = some u.op)

include hs in
theorem sliceSource_brings (hg : g.Orderly) (hw : WalksBring settings g bases ⟨u.block, u.index⟩)
    {r : Register} (hr : r ∈ u.op.valueRegisters) (hasked : r ∈ g.asked) :
    ∃ d f, d.overlaps r = true ∧ ∀ k source, g.weight u.block u.index < k → source.canonical = r →
      Brings settings g bases (g.weight u.block u.index)
        ((slicer settings g).sliceSource ((slicer settings g).walk g k) u source) []
        [(.register d, f)] () := by
  have counts : (r.isAbsent || r.isPseudo || r.isFlagOrStatus) = false := by
    simpa using (List.mem_filter.mp hr).2
  cases hv : u.op.hardwired? r with
  | some v =>
    refine ⟨r, .constant v, hg.bits r hasked, ?_⟩
    rintro k source _ rfl
    unfold Slicer.sliceSource
    dsimp only
    rw [if_neg (by simp [counts]), hv]
    exact .push (by simp_all) _
  | none =>
    obtain ⟨d, f, hd, brings⟩ := hw r hasked
    refine ⟨d, f, hd, ?_⟩
    rintro k source hk rfl
    have walk := brings k ⟨u.op.pc, 0⟩ hk rfl
    unfold Slicer.sliceSource
    dsimp only
    rw [if_neg (by simp [counts]), hv]
    dsimp only
    have slice : Brings settings g bases (g.weight u.block u.index)
        ((slicer settings g).sliceWith ((slicer settings g).walk g k) ⟨u.block, u.index⟩
          source.canonical ⟨u.op.pc, 0⟩) [] [(.register d, f)] () := .bind (.ok ()) walk
    split
    · exact .bind (.report hs rfl) slice
    · exact slice

include hs in
theorem sliceSources_brings (hg : g.Orderly) (hu : g.op? u.block u.index = some u.op)
    (hnormal : u.op.effect = .normal) (hw : WalksBring settings g bases ⟨u.block, u.index⟩) :
    ∃ place value top, Stocked place value u.op.valueRegisters top ∧ ∀ k,
      g.weight u.block u.index < k → Brings settings g bases (g.weight u.block u.index)
        ((slicer settings g).sliceSources ((slicer settings g).walk g k) u u.op.sourceRegisters)
        [] top () := by
  have each : ∀ r ∈ u.op.valueRegisters, _ := fun r hr =>
    sliceSource_brings hs hg hw hr (Graph.mem_asked hu (u.op.valueRegisters_subset_asks hr))
  have : Nonempty Register := ⟨.absent⟩
  have : Nonempty Formula := ⟨.zero⟩
  choose! place value hits brings using each
  let put (r : Register) : Slot × Formula := (.register (place r), value r)
  refine ⟨place, value, (u.op.valueRegisters.map put).reverse, ?_, ?_⟩
  · refine ⟨List.reverse_perm _, hits, fun r hr s hs' hover => ?_⟩
    have same := hits s hs'
    simp only [Register.overlaps, Bool.and_eq_true, decide_eq_true_eq] at same hover
    exact hg.apart u.op (Graph.mem_ops hu) hnormal s hs' r hr
      (same.1.1.2.symm.trans hover.1.1.2)
  · intro k hk
    have all : ∀ sources : List Register, (∀ source ∈ sources, source ∈ u.op.sourceRegisters) →
        Brings settings g bases (g.weight u.block u.index)
          ((slicer settings g).sliceSources ((slicer settings g).walk g k) u sources) []
          ((((sources.map Register.canonical).filter fun r =>
            !(r.isAbsent || r.isPseudo || r.isFlagOrStatus)).map put).reverse) () := by
      intro sources hsources
      -- each source puts its value on top of those before it, hence the reversed list
      induction sources with
      | nil => exact .ok ()
      | cons source rest ih =>
        have rest' := ih fun s hs' => hsources s (List.mem_cons_of_mem _ hs')
        rw [List.map_cons, List.filter_cons]
        split
        · next counts =>
          have member : source.canonical ∈ u.op.valueRegisters := by
            refine List.mem_filter.mpr ⟨List.mem_map_of_mem ?_, counts⟩
            exact hsources source List.mem_cons_self
          rw [List.map_cons, List.reverse_cons]
          exact .bind (brings _ member k source hk rfl) (rest'.above _)
        · next skipped =>
          have skip : (slicer settings g).sliceSource ((slicer settings g).walk g k) u source =
              pure () := by
            unfold Slicer.sliceSource
            dsimp only
            rw [if_pos (by rwa [Bool.not_eq_true, Bool.not_eq_false'] at skipped)]
          refine .bind (a := ()) ?_ rest'
          rw [skip]
          exact .ok ()
    exact all _ fun _ => id

def loadValue (u : MicroOp) (reg : Register) (base : Formula) :
    Option Spill → Formula
  | some found => if found.value.definedBefore 0 then .load u.site reg else found.value
  | none =>
    match base.constantValue? with
    | some c => .reference u.site c.value
    | none => .load u.site reg

theorem resolveLoad_brings (hf : FollowsBring settings g bases ⟨u.block, u.index⟩) (reg : Register) :
    ∃ f, ∀ k, g.weight u.block u.index < k → Brings settings g bases (g.weight u.block u.index)
      (resolveLoad settings ((slicer settings g).follow g k) u reg) [] [(.site u.op.site, f)] () := by
  cases hbase : Slicer.loadBase? bases u.op with
  | none =>
    refine ⟨.load u.op.site reg, fun k _ => .client fun st hst => ?_⟩
    rw [hst, hbase]
    exact .bind (.of_turns (.tell _)) (.pushSite _ _)
  | some base =>
    obtain ⟨found?, follow⟩ := hf base
    refine ⟨loadValue u.op reg base (if settings.followSpills then found? else none), fun k hk => ?_⟩
    refine .client fun st hst => ?_
    split
    · next hnone =>
      rw [hst, hbase] at hnone
      cases hnone
    next base' hbase' =>
    rw [hst, hbase] at hbase'
    cases hbase'
    extract_lets resolved
    -- with a spill or without one, a single value is put for the load
    have rest : ∀ found? : Option Spill,
        Brings settings g bases (g.weight u.block u.index) (resolved (found?.map Spill.asked))
          (Spill.pending found?) [(.site u.op.site, loadValue u.op reg base found?)] () := by
      intro found?
      unfold resolved
      cases found? with
      | none =>
        unfold loadValue
        cases base.constantValue? with
        | some c => exact .pushSite _ _
        | none => exact .pushSite _ _
      | some found =>
        refine .bind (.of_turns (.claim_one found.overlaps found.value)) (.read fun w hstop => ?_)
        rw [hstop]
        unfold loadValue
        dsimp only
        split
        · exact .pushSite _ _
        · exact .bind (.of_turns (.tell _)) (.pushSite _ _)
    split
    · exact .bind (.setStart _) (.bind (follow k hk) (rest found?))
    · exact .bind (.ok none) (rest none)

def callFormula (g : Graph) (u : Placed) : Formula :=
  .call u.op.site (((g.block? u.block).bind (calleeBehind? g) <|> u.op.target).getD 0)

theorem callValue_turns (hu : g.op? u.block u.index = some u.op) :
    Turns (callValue g u) top top (callFormula g u) := by
  obtain ⟨block, hb, _⟩ := Graph.op?_eq_some.mp hu
  unfold callValue callFormula
  rw [hb]
  exact .ok _

structure Defines (settings : Settings) (g : Graph) (bases : OperandTable) (u : Placed)
    (reg : Register) (f : Formula) (vs : List (Slot × Formula)) (w w' : Walk BaseState) : Prop where
  values : w'.client.values.newestFirst = (.register reg, f) :: vs
  table : w'.client.bases = bases
  stop : w'.bounds.stop = 0
  definitions : ∃ definitions, w'.client.definitions = definitions.insert u.op.site f ∧
    AsFresh settings g bases definitions ∧
    Kept g (g.weight u.block u.index) w.client.definitions definitions

def Computes (settings : Settings) (g : Graph) (bases : OperandTable) (u : Placed) (reg : Register)
    (f : Formula) : Prop :=
  ∃ top, Turns (definitionValue settings g u reg) top [] f ∧ ∀ k, g.weight u.block u.index < k →
    Brings settings g bases (g.weight u.block u.index) (prepare settings g k u reg) [] top ()

theorem Computes.defines {reg : Register} {f : Formula} (h : Computes settings g bases u reg f)
    (hu : g.op? u.block u.index = some u.op) (present : reg.isAbsent = false) {k : Nat}
    (hk : g.weight u.block u.index < k) {vs : List (Slot × Formula)} {w : Walk BaseState}
    (hw : Holding settings g bases vs w) (new : w.client.definitions.get? u.op.site = none) :
    wp (define settings g k u reg)
      (fun _ w' => Defines settings g bases u reg (valueOf u.op.site reg f) vs w w')
      (fun _ _ => False) w := by
  obtain ⟨top, value, prepared⟩ := h
  have computed : Brings settings g bases (g.weight u.block u.index)
      (definitionValue settings g u reg) top [] f := .of_turns value
  apply (wp_define (hw.stop.le.trans (Nat.zero_le _)) new).mpr
  apply wp_imp (prepared k hk vs w hw)
  rintro _ w₁ ⟨_, hw₁, kept₁⟩
  have new₁ := (kept₁ u hu (Nat.le_refl _)).trans new
  apply wp_leaveOp_new (hw₁.stop.le.trans (Nat.zero_le _)) new₁
  apply wp_imp (computed vs w₁ hw₁)
  rintro _ w₂ ⟨rfl, hw₂, kept₂⟩ journal
  refine ⟨?_, hw₂.table, hw₂.stop, _, rfl, hw₂.known, ?_⟩
  · simp [recorded, Pending.push, present, hw₂.values]
  · exact fun v hv hn => (kept₂ v hv hn).trans (kept₁ v hv hn)

section Effects

variable (reg : Register)

include hs in
theorem computes_easy (heffect : u.op.effect = .easy) : ∃ f, Computes settings g bases u reg f := by
  obtain ⟨f, value⟩ : ∃ f, Turns (easyValue settings u.op reg) [] [] f :=
    easyValue_turns hs u.op reg
  refine ⟨f, [], .bind (.classify u.op) ?_, fun k _ => .bind (.of_turns (.classify u.op)) ?_⟩
  · rw [heffect]
    exact value
  · rw [heffect]
    exact .ok ()

include hs in
theorem computes_normal (hg : g.Orderly) (hu : g.op? u.block u.index = some u.op)
    (heffect : u.op.effect = .normal) (hw : WalksBring settings g bases ⟨u.block, u.index⟩) :
    ∃ f, Computes settings g bases u reg f := by
  have claimed := hg.claims u.op (Graph.mem_ops hu) heffect
  by_cases hop : u.op.operation = .invalid
  · rw [if_pos hop] at claimed
    have none : Stocked id (fun _ => .zero) (claims u.op) [] := by
      rw [List.perm_nil.mp claimed]
      exact ⟨.nil, nofun, nofun⟩
    obtain ⟨f, value⟩ := normalValue_turns hs reg none
    refine ⟨f, [], .bind (.classify u.op) ?_, fun k _ => .bind (.of_turns (.classify u.op)) ?_⟩
    · rw [heffect]
      exact value
    · rw [heffect]
      dsimp only
      rw [if_pos hop]
      exact .of_turns (.tell _)
  · rw [if_neg hop] at claimed
    obtain ⟨place, value, top, stocked, sources⟩ := sliceSources_brings hs hg hu heffect hw
    obtain ⟨f, value⟩ := normalValue_turns hs reg (stocked.of_perm claimed.symm)
    refine ⟨f, top, .bind (.classify u.op) ?_, fun k hk => .bind (.of_turns (.classify u.op)) ?_⟩
    · rw [heffect]
      exact value
    · rw [heffect]
      dsimp only
      rw [if_neg hop]
      exact sources k hk

theorem computes_hard (heffect : u.op.effect = .hard)
    (hf : FollowsBring settings g bases ⟨u.block, u.index⟩) :
    ∃ f, Computes settings g bases u reg f := by
  obtain ⟨f, load⟩ := resolveLoad_brings hf reg
  refine ⟨f, [(.site u.op.site, f)], .bind (.classify u.op) ?_,
    fun k hk => .bind (.of_turns (.classify u.op)) ?_⟩
  · rw [heffect]
    exact .bind (.claimSite _ _) (.ok _)
  · rw [heffect]
    exact load k hk

theorem computes_impossible (hu : g.op? u.block u.index = some u.op)
    (heffect : u.op.effect = .impossible) (unconditional : u.op.conditional = false) :
    Computes settings g bases u reg (callFormula g u) := by
  refine ⟨[], .bind (.classify u.op) ?_, fun k _ => .bind (.of_turns (.classify u.op)) ?_⟩
  · rw [heffect]
    dsimp only
    rw [if_neg (by simp [unconditional])]
    exact callValue_turns hu
  · rw [heffect]
    exact .ok ()

end Effects

include hs in
theorem define_new (hg : g.Orderly) (hu : g.op? u.block u.index = some u.op) {reg : Register}
    (hask : g.AsksFor u.op reg) (hw : WalksBring settings g bases ⟨u.block, u.index⟩)
    (hf : FollowsBring settings g bases ⟨u.block, u.index⟩) :
    ∃ f, (u.op.effect = .impossible → f = callFormula g u) ∧ ∀ k, g.weight u.block u.index < k →
      ∀ vs w, Holding settings g bases vs w → w.client.definitions.get? u.op.site = none →
        wp (define settings g k u reg)
          (fun _ w' => Defines settings g bases u reg f vs w w') (fun _ _ => False) w := by
  obtain ⟨r, _, hdefines⟩ := hask
  obtain ⟨unconditional, hover⟩ := MicroOp.defines?_eq_some hdefines
  have present := Register.isAbsent_of_overlaps hover
  have known : ∀ {f}, Computes settings g bases u reg f → ∀ k, g.weight u.block u.index < k →
      ∀ vs w, Holding settings g bases vs w → w.client.definitions.get? u.op.site = none →
        wp (define settings g k u reg) (fun _ w' =>
          Defines settings g bases u reg (valueOf u.op.site reg f) vs w w') (fun _ _ => False) w :=
    fun computes k hk vs w hw new => computes.defines hu present hk hw new
  cases heffect : u.op.effect with
  | easy =>
    obtain ⟨f, computes⟩ := computes_easy hs reg heffect
    exact ⟨_, nofun, known computes⟩
  | normal =>
    obtain ⟨f, computes⟩ := computes_normal hs reg hg hu heffect hw
    exact ⟨_, nofun, known computes⟩
  | hard =>
    obtain ⟨f, computes⟩ := computes_hard reg heffect hf
    exact ⟨_, nofun, known computes⟩
  | impossible =>
    have call : valueOf u.op.site reg (callFormula g u) = callFormula g u :=
      valueOf_plain (by simp [callFormula, Formula.call])
    exact ⟨_, fun _ => call, known (computes_impossible reg hu heffect unconditional)⟩

theorem holding_fresh (settings : Settings) (g : Graph) (bases : OperandTable) :
    Holding settings g bases [] { client := { bases } } :=
  ⟨rfl, rfl, rfl, fun _ _ _ hf => nomatch hf⟩

theorem weight_lt_of_op? (hu : g.op? u.block u.index = some u.op) :
    g.weight u.block u.index < g.placeBound := by
  obtain ⟨block, hb, hi⟩ := Graph.op?_eq_some.mp hu
  have inside := (List.getElem?_eq_some_iff.mp hi).1
  have length := Graph.length_le_opCount hb
  exact Graph.weight_lt_placeBound _ (by omega)

theorem freshValue_eq (hu : g.op? u.block u.index = some u.op) {reg : Register} {f : Formula}
    (h : ∀ k, g.weight u.block u.index < k → ∀ vs w, Holding settings g bases vs w →
      w.client.definitions.get? u.op.site = none → wp (define settings g k u reg)
        (fun _ w' => Defines settings g bases u reg f vs w w') (fun _ _ => False) w) :
    freshValue settings g bases u reg = f := by
  have first := h g.placeBound (weight_lt_of_op? hu) [] _ (holding_fresh settings g bases) rfl
  unfold freshValue
  unfold wp at first
  change (match define settings g g.placeBound u reg { client := { bases } } with
    | .ok _ w => (w.client.definitions.get? u.op.site).getD .zero
    | .error _ _ => .zero) = f
  split at first
  · next run =>
    obtain ⟨definitions, hd, _, _⟩ := first.definitions
    rw [run]
    simp only [hd, Table.get?_insert_self, Option.getD_some]
  · exact first.elim

include hs in
theorem define_brings (hg : g.Orderly) (hd : g.DistinctSites)
    (hu : g.op? u.block u.index = some u.op) {reg : Register} (hask : g.AsksFor u.op reg)
    (hw : WalksBring settings g bases ⟨u.block, u.index⟩)
    (hf : FollowsBring settings g bases ⟨u.block, u.index⟩) :
    ∃ f, ∀ k, g.weight u.block u.index < k → Brings settings g bases (g.weight u.block u.index + 1)
      (define settings g k u reg) [] [(.register reg, f)] () := by
  obtain ⟨f, hcall, new⟩ := define_new hs hg hu hask hw hf
  have fresh := freshValue_eq hu new
  -- All registers that are asked for have the same value, so one entry serves them all.
  have same : ∀ d, g.AsksFor u.op d → f = freshValue settings g bases u d := by
    intro d hd'
    by_cases himpossible : u.op.effect = .impossible
    · obtain ⟨f', hcall', new'⟩ := define_new hs hg hu hd' hw hf
      rw [freshValue_eq hu new', hcall' himpossible, hcall himpossible]
    · obtain ⟨r, hr, hdef⟩ := hask
      obtain ⟨r', hr', hdef'⟩ := hd'
      have one := hg.single u.op (Graph.mem_ops hu) himpossible r hr r' hr' (by simp [hdef])
        (by simp [hdef'])
      rw [hdef, hdef'] at one
      rw [← Option.some.inj one, fresh]
  refine ⟨f, fun k hk vs w holding => ?_⟩
  cases hget : w.client.definitions.get? u.op.site with
  | some f' =>
    obtain rfl : f' = f := (holding.known u hu f' hget reg hask).trans fresh
    obtain ⟨r, _, hdefines⟩ := hask
    have present := Register.isAbsent_of_overlaps (MicroOp.defines?_eq_some hdefines).2
    apply (wp_congr (define_run_known (holding.stop.le.trans (Nat.zero_le _)) hget k)).mpr
    have hit : Brings settings g bases (g.weight u.block u.index + 1) (push reg f') []
        [(.register reg, f')] () := .push present f'
    exact hit vs w holding
  | none =>
    refine wp_imp (new k hk vs w holding hget) ?_
    rintro _ w' ⟨values, table, stop, definitions, inserted, known, kept⟩
    refine ⟨rfl, ⟨values, table, stop, ?_⟩, ?_⟩
    · rw [inserted]
      exact known.insert hd hu same
    · rw [inserted]
      exact kept.insert hd hu f

end Steps

end Base

end AddressFormulas
