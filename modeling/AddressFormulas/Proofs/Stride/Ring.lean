import AddressFormulas.Proofs.Stride.Address
import AddressFormulas.Proofs.Stride.Passing

/-!
Slices around a ring of micro-ops that pass one value on. A slice goes backward from one micro-op to
the next until it meets the first one again, which is in progress still and seeds the cycle with zero.
On the way back every micro-op adds its part to the open sum, which is a finished stride at the first.
-/

namespace AddressFormulas.Stride

open WalkM Loop Skeleton

section Ring

variable {ops us : List MicroOp} {spot : Nat → Nat} {reg : Nat → Register} {t count : Nat}
  {first u v : MicroOp} {r r' : Register} {l l₂ : Ledger}

structure Underway (us : List MicroOp) (t : Nat) (l : Ledger) : Prop where
  entered : ∀ (i : Nat) (v : MicroOp), us[i]? = some v → i < t → 0 < (l.notes v.site).loopCount
  idle : ∀ (i : Nat) (v : MicroOp), us[i]? = some v → t ≤ i → (l.notes v.site).loopCount = 0
  blank : ∀ v ∈ us, (l.notes v.site).formula = none
  calm : l.cycles = []

structure Seeking (us : List MicroOp) (spot : Nat → Nat) (reg : Nat → Register) (t : Nat) (l : Ledger)
    (i : Nat) (r : Register) : Prop where
  within : t ≤ us.length
  place : i = spot t
  register : r = reg t
  underway : Underway us t l

/-- The open sum of the micro-ops from place `t` on was put for register `r`. It depends on the first
micro-op, where the cycle starts. -/
structure Summed (us : List MicroOp) (t : Nat) (first u : MicroOp) (l : Ledger) (r : Register)
    (l' : Ledger) : Prop where
  sum : ∃ f, PartialSum (us.drop t) f ∧ (l'.notes u.site).formula = some f
  kind : (l'.notes u.site).kind = .partialSum
  values : l'.values = (.register r, .definition u.site (l.notes first.site).visit) :: l.values
  cycles : l'.cycles = [⟨(l.notes first.site).visit, first.site⟩]
  blank : ∀ (i : Nat) (v : MicroOp), us[i]? = some v → 0 < i → i < t →
    (l'.notes v.site).formula = none

structure Completed (us : List MicroOp) (first : MicroOp) (l : Ledger) (r : Register)
    (l' : Ledger) : Prop where
  sum : ∃ f, PartialSum us f ∧ (l'.notes first.site).formula = some f
  kind : (l'.notes first.site).kind = .stride
  values : l'.values = (.register r, .definition first.site 0) :: l.values

def Unwound (ops us : List MicroOp) (spot : Nat → Nat) (t : Nat) (l : Ledger) (_ : Nat) (r : Register)
    (l' : Ledger) : Prop :=
  ∀ first u, us[0]? = some first → ops[spot (t + 1)]? = some u →
    (t = 0 → Completed us first l r l') ∧ (0 < t → Summed us t first u l r l')

theorem site_inj (distinct : (us.map MicroOp.site).Nodup) {i j : Nat} (hi : us[i]? = some u)
    (hj : us[j]? = some v) (hs : u.site = v.site) : i = j := by
  have inside : i < (us.map MicroOp.site).length := by
    rw [List.length_map]
    exact (List.getElem?_eq_some_iff.mp hi).1
  exact (List.getElem?_inj inside distinct).mp (by simp [hi, hj, hs])

variable (distinct : (us.map MicroOp.site).Nodup) (hu : us[t]? = some u)

include distinct hu

theorem Underway.enter (h : Underway us t l) (hcount : 0 < count) :
    Underway us (t + 1) (l.enter u.site count) where
  entered i v hv hi := by
    by_cases he : v.site = u.site
    · simpa [Ledger.enter, Ledger.note, he] using hcount
    · have earlier : i < t := by
        refine Nat.lt_of_le_of_ne (Nat.le_of_lt_succ hi) ?_
        rintro rfl
        exact he (congrArg MicroOp.site (Option.some.inj (hv.symm.trans hu)))
      simpa [Ledger.enter, Ledger.note, he] using h.entered i v hv earlier
  idle i v hv hi := by
    have he : v.site ≠ u.site := fun he => by
      have := site_inj distinct hv hu he
      omega
    simpa [Ledger.enter, Ledger.note, he] using h.idle i v hv (Nat.le_of_succ_le hi)
  blank v hv := by
    by_cases he : v.site = u.site
    · simp [Ledger.enter, Ledger.note, he]
    · simpa [Ledger.enter, Ledger.note, he] using h.blank v hv
  calm := h.calm

theorem Summed.pass {f : Formula} (hfirst : us[0]? = some first) (ht : 0 < t)
    (h : Summed us (t + 1) first v (l.enter u.site count) r' l₂)
    (hf : PartialSum (us.drop (t + 1)) f) :
    Summed us t first u l r ({ l₂ with values := l.values }.settle u.site r false
      (settledFormula u r (passedValue u r f 0)) .partialSum (l.notes first.site).visit) where
  sum := ⟨_, hf.pass_drop hu r, by simp [Ledger.settle, Ledger.note, Ledger.put]⟩
  kind := by simp [Ledger.settle, Ledger.note, Ledger.put]
  values := rfl
  cycles := by
    have other : first.site ≠ u.site := fun he => by
      have := site_inj distinct hfirst hu he
      omega
    have same : ((l.enter u.site count).notes first.site).visit = (l.notes first.site).visit := by
      simp [Ledger.enter, Ledger.note, other]
    rw [← same]
    exact h.cycles
  blank i w hw hi hlt := by
    have other : w.site ≠ u.site := fun he => by
      have := site_inj distinct hw hu he
      omega
    simpa [Ledger.settle, Ledger.note, Ledger.put, other] using h.blank i w hw hi (by omega)

omit hu in
theorem Underway.seed (h : Underway us us.length l) (hfirst : us[0]? = some first) (r : Register) :
    Summed us us.length first first l r (l.seed first.site r) where
  sum := by
    rw [List.drop_length]
    exact ⟨.zero, .start, by simp [Ledger.seed, Ledger.note, Ledger.put]⟩
  kind := by simp [Ledger.seed, Ledger.note, Ledger.put]
  values := rfl
  cycles := by simp [Ledger.seed, Ledger.note, Ledger.put, h.calm, StrideState.insertCycle]
  blank i w hw hi _ := by
    have other : w.site ≠ first.site := fun he => by
      have := site_inj distinct hw hfirst he
      omega
    simpa [Ledger.seed, Ledger.note, Ledger.put, other] using h.blank w (List.mem_of_getElem? hw)

end Ring

section Slice

variable {task : Task} {p : CyclicPath} {low top b : Nat} {block : Block} {us : List MicroOp}
  {spot : Nat → Nat} {reg : Nat → Register} {w w₂ : Walk StrideState} {depth i j t count : Nat}
  {first u v : MicroOp} {r s d written : Register} {l : Ledger} {dist : Nat}
  (distinct : (us.map MicroOp.site).Nodup)

include distinct in
theorem finishOp_unwound (hu : us[t]? = some u) (passes : u.PassesOn s d) (hr : r.isWhole = true)
    (hfirst : us[0]? = some first) (hop : block.ops[spot (t + 1)]? = some u)
    (h : Summed us (t + 1) first v (l.enter u.site count) s.canonical (ledger w₂))
    (hvisit : ((ledger w₂).notes first.site).visit =
      ((l.enter u.site count).notes first.site).visit) :
    yields (finishOp task ⟨b, j, u⟩ r)
      (fun _ w' => Unwound block.ops us spot t l i r (ledger w')) w₂ := by
  obtain ⟨f, hsum, hf⟩ := h.sum
  have start : w₂.client.atCycleStart u.site = decide (t = 0) := by
    have cycles : w₂.client.cycles = _ := h.cycles
    rw [StrideState.atCycleStart, cycles]
    by_cases ht : t = 0
    · subst ht
      obtain rfl : first = u := Option.some.inj (hfirst.symm.trans hu)
      simp
    · have other : first.site ≠ u.site := fun he => ht (site_inj distinct hfirst hu he).symm
      simp [ht, other]
  have blank : decide (t = 0) = false → ((ledger w₂).notes u.site).formula = none := by
    intro ht
    exact h.blank t u hu (Nat.pos_of_ne_zero (of_decide_eq_false ht)) (Nat.lt_succ_self t)
  have pending : ledger w₂ = { ledger w₂ with values := (.register s.canonical,
      .definition v.site ((l.enter u.site count).notes first.site).visit) :: l.values } :=
    congrArg (fun vs => { ledger w₂ with values := vs }) h.values
  refine wp_imp (finishOp_compute (u := ⟨b, j, u⟩) (Q := fun v l' =>
    v = passedValue u r f ((l.enter u.site count).notes first.site).visit ∧
    l' = { ledger w₂ with values := l.values }) hr start (fun _ => passes.isLoad_eq) blank
    fun w' hw' => definitionValue_passed passes hf h.kind r (hw'.trans pending)) ?_
  rintro _ w' ⟨_, _, ⟨rfl, rfl⟩, h'⟩ first' u' hfirst' hu'
  obtain rfl : first = first' := Option.some.inj (hfirst.symm.trans hfirst')
  obtain rfl : u = u' := Option.some.inj (hop.symm.trans hu')
  rw [settledFormula_passed, passedValue_kind, passedValue_target] at h'
  constructor
  · rintro rfl
    obtain rfl : first = u := Option.some.inj (hfirst.symm.trans hu)
    have target : ((l.enter first.site count).notes first.site).visit =
        ((ledger w₂).notes first.site).visit := hvisit.symm
    simp only [target, decide_true, Bool.and_self, if_true] at h'
    rw [h']
    refine ⟨⟨_, hsum.pass_drop hu r, ?_⟩, ?_, rfl⟩ <;> simp [Ledger.settle, Ledger.note, Ledger.put]
  · intro ht
    have other : first.site ≠ u.site := fun he => by
      have := site_inj distinct hfirst hu he
      omega
    have visit : ((l.enter u.site count).notes first.site).visit = (l.notes first.site).visit := by
      simp [Ledger.enter, Ledger.note, other]
    have open' : decide (t = 0) = false := decide_eq_false (by omega)
    simp only [open', visit, Bool.false_and, Bool.false_eq_true, if_false] at h'
    rw [h']
    exact h.pass distinct hu hfirst ht hsum

variable (hset : Setting task p low top) (ha : Alone task p b block)
  (hring : ValueRing block.ops us spot reg)

include hset ha hring

omit distinct in
theorem sources_unwound {sk : Skeleton} (hw : WalkYields task p low b block (Seeking us spot reg)
      (Unwound block.ops us spot) depth) (hu : block.ops[spot (t + 1)]? = some u)
    (hk : us[t]? = some u) (hlt : t < us.length) (passes : u.PassesOn s d)
    (hs : s.canonical = reg (t + 1)) (underway : Underway us t l) (hcount : 0 < count)
    (hl : ledger w = l.enter u.site count) (served : Served p u.pc sk (skeleton w))
    (behind : (skeleton w).Behind task.graph p b (spot (t + 1)))
    (deep : idle task.graph (skeleton w) * stretch task.graph + reach task.graph < depth) :
    yields ((slicer task).sliceSources ((slicer task).walk task.graph depth) ⟨b, spot (t + 1), u⟩
        u.sourceRegisters)
      (fun _ w' => Served p u.pc sk (skeleton w') ∧
        yields (finishOp task ⟨b, spot (t + 1), u⟩ (reg t))
          (fun _ w'' => Unwound block.ops us spot t l i (reg t) (ledger w'')) w') w := by
  have hfirst : us[0]? = some us[0] := List.getElem?_eq_getElem (Nat.zero_lt_of_lt hlt)
  have whole := (hring.isPlain (Nat.le_of_lt hlt)).1
  obtain ⟨_, next⟩ := hring.origin (t + 1) hlt
  obtain ⟨_, v, _, hv, _⟩ := Body.origin?_spec next
  have entered : Underway us (t + 1) (ledger w) := hl ▸ underway.enter hring.distinct hk hcount
  have progress : (skeleton w).InProgress us[0].site := entered.entered 0 us[0] hfirst (Nat.succ_pos t)
  rw [passes.sourceRegisters_eq]
  refine wp_bind.mpr (wp_imp (sliceSource_yields hset ha hw hu served.inv behind deep passes.whole
    ⟨hlt, rfl, hs, entered⟩) ?_)
  rintro _ w₂ ⟨unwound, served₂⟩
  have summed := (unwound us[0] v hfirst hv).2 (Nat.succ_pos t)
  have visit : ((ledger w₂).notes us[0].site).visit = ((ledger w).notes us[0].site).visit :=
    served₂.frame.visit _ progress
  rw [hl] at summed visit
  exact ⟨served.trans served₂, finishOp_unwound hring.distinct hk passes whole hfirst hu summed visit⟩

omit distinct in
theorem definition_unwound (hw : WalkYields task p low b block (Seeking us spot reg)
      (Unwound block.ops us spot) depth) {before : Nat} (hu : block.ops[j]? = some u)
    (horigin : origin? block.ops i r = some (j, dist)) (hd : u.defines? r = some written)
    (hinv : (skeleton w).Inv p) (hj : j < before)
    (hbehind : (skeleton w).Behind task.graph p b before)
    (hwalk : Walking task.graph p low (skeleton w) r b before)
    (hdepth : idle task.graph (skeleton w) * stretch task.graph ≤ depth)
    (hp : Seeking us spot reg t (ledger w) i r) :
    yields (do
        tell (.definitionFound u.site written)
        if ← enterOp task ((slicer task).follow task.graph depth) ⟨b, j, u⟩ written then
          (slicer task).sliceSources ((slicer task).walk task.graph depth) ⟨b, j, u⟩ u.sourceRegisters
        leaveOp task ⟨b, j, u⟩ written)
      (fun _ w' => Unwound block.ops us spot t (ledger w) i r (ledger w')) w := by
  obtain ⟨within, rfl, rfl, underway⟩ := hp
  have nonempty := List.length_pos_iff.mpr hring.nonempty
  obtain ⟨_, horigin'⟩ := hring.origin t within
  obtain rfl : j = spot (t + 1) := by
    rw [horigin] at horigin'
    exact congrArg Prod.fst (Option.some.inj horigin')
  obtain ⟨k, hk, ⟨s, d, passes, hs⟩, hplace⟩ := hring.definition within hu
  obtain ⟨whole, plain⟩ := hring.isPlain within
  have written_eq : written = reg t := by
    rw [passes.defines?_eq whole] at hd
    split at hd
    · next he => rw [← Option.some.inj hd, ← he, plain]
    · cases hd
  subst written_eq
  have idle : k = t → ((ledger w).notes u.site).loopCount = 0 := by
    rintro rfl
    exact underway.idle k u hk (Nat.le_refl k)
  -- only the member at which the ring closes can be in progress: the cycle is seeded there
  apply definition_yields hset ha hu (by simp [hd]) hinv hj hbehind hwalk hdepth
    (fun _ => passes.modelled) (fun _ _ => passes.readsSameTwice_eq) (by simp [passes.effect_eq]) whole
  case hseed =>
    intro progress first u' hfirst hu'
    have progress : 0 < ((ledger w).notes u.site).loopCount := progress
    obtain ⟨hkt, _⟩ | ⟨rfl, rfl⟩ := hplace
    · have := idle hkt
      omega
    · obtain rfl : u = u' := Option.some.inj (hu.symm.trans hu')
      obtain rfl : first = u := Option.some.inj (hfirst.symm.trans hk)
      exact ⟨fun ht => by omega, fun _ => underway.seed hring.distinct hfirst _⟩
  case hpass =>
    intro w₁ entered still _
    have blank := underway.blank u (List.mem_of_getElem? hk)
    generalize ledger w₁ = l at entered
    cases entered with
    | pending progress => omega
    | again _ reusable => exact absurd blank reusable.1
    | easy _ _ effect => simp [passes.effect_eq] at effect
    | equal _ _ _ _ same => simp [passes.readsSameTwice_eq] at same
    | load _ _ effect => simp [passes.effect_eq] at effect
  case hsources =>
    intro w₁ entered served behind deep
    generalize hl : ledger w₁ = l at entered
    cases entered with
    | sources still =>
      obtain ⟨rfl, hlt⟩ | ⟨rfl, rfl⟩ := hplace
      · exact sources_unwound hset ha hring hw hu hk hlt passes hs underway (Nat.succ_pos _) hl served
          behind deep
      · have := underway.entered 0 u hk nonempty
        omega

/-- Walks through a ring come around to the first micro-op and add up what the others pass on. -/
theorem walks_unwind (depth : Nat) :
    WalkYields task p low b block (Seeking us spot reg) (Unwound block.ops us spot) depth := by
  apply walk_yields hset ha
  case hwhole =>
    rintro t l i r ⟨within, rfl, rfl, _⟩
    exact (hring.isPlain within).1
  case houtside =>
    rintro t l i r ⟨within, rfl, rfl, _⟩ none
    obtain ⟨_, horigin⟩ := hring.origin t within
    rw [none] at horigin
    cases horigin
  case hdefinition =>
    intro depth t i j before dist r written u w hw hu horigin hd hinv hj hbehind hwalk hdepth seeking
    exact definition_unwound hset ha hring hw hu horigin hd hinv hj hbehind hwalk hdepth seeking

end Slice

section Operand

variable {task : Task} {b : Nat} {block : Block} {us : List MicroOp} {spot : Nat → Nat}
  {reg : Nat → Register} {w : Walk StrideState} {session : StrideSession} {load : MicroOp}
  (hring : ValueRing block.ops us spot reg)

theorem underway_fresh {path : Option CyclicPath} (us : List MicroOp)
    (hw : w.client = { path, session }) : Underway us 0 (ledger w) := by
  refine ⟨fun _ _ _ hi => absurd hi (Nat.not_lt_zero _), fun _ _ _ _ => ?_, fun _ _ => ?_, ?_⟩ <;>
    simp only [ledger, hw] <;> rfl

include hring

theorem slice_ring {p : CyclicPath} {low top : Nat} (hset : Setting task p low top)
    (ha : Alone task p b block) (hu : block.ops[spot 0]? = some load)
    (hdepth : sufficientDepth task.graph ≤ task.settings.depth)
    (hw : w.client = { path := some p, session }) :
    ends (slice task ⟨b, spot 0⟩ (reg 0) ⟨load.pc, 0⟩)
      (fun _ w' => ends (registerStride (reg 0)) (fun f _ => PartialSum us f) w') w := by
  have pos := List.length_pos_iff.mpr hring.nonempty
  have hfirst : us[0]? = some us[0] := List.getElem?_eq_getElem pos
  obtain ⟨_, origin⟩ := hring.origin 0 (Nat.zero_le _)
  obtain ⟨_, first, _, hop, _⟩ := Body.origin?_spec origin
  refine wp_imp (slice_first hset ha (walks_unwind hset ha hring _) hu hdepth hw
    ⟨Nat.zero_le _, rfl, rfl, underway_fresh us hw⟩) ?_
  rintro _ w' ⟨unwound, _⟩
  obtain ⟨⟨f, sum, formula⟩, kind, values⟩ := (unwound us[0] first hfirst hop).1 rfl
  have nothing : (ledger w).values = [] := by simp only [ledger, hw]
  rw [nothing] at values
  refine wp_imp (registerStride_sole (hring.isPlain (Nat.zero_le _)) values) ?_
  rintro _ _ ⟨w₁, same, rfl⟩
  rw [← same] at formula kind
  have kind : (w₁.client.progressAt us[0].site).kind = .stride := kind
  rw [strideOf_definition (s := w₁.client) formula, kind]
  exact sum

theorem operandStride_ring (hset : ∀ p, CyclicPath.build? task.graph b task.marker = some p →
      ∃ low top, Setting task p low top ∧ Alone task p b block)
    (hway : ∃ p, CyclicPath.build? task.graph b task.marker = some p)
    (hb : task.graph.block? b = some block) (hu : block.ops[spot 0]? = some load)
    (hdepth : sufficientDepth task.graph ≤ task.settings.depth) (hw : w.client = { session })
    {m : MemoryOperand} (hm : load.memoryOperands = [m])
    (haddress : (load.addressFormula m).terms.entries =
      [(.register load.site (reg 0), ⟨.one, some load.site⟩)]) :
    ends (operandStride task b (spot 0) m.opidx)
      (fun g _ => ∃ f, PartialSum us f ∧ g = addressStride load (reg 0) f) w := by
  have found : CyclicPath.build? task.graph b task.marker = none → False := by
    obtain ⟨p, hp⟩ := hway
    simp [hp]
  apply operandStride_single hb found ?_ hw (hring.isPlain (Nat.zero_le _)) hu hm haddress
  intro p session w hp hw
  obtain ⟨low, top, hset, ha⟩ := hset p hp
  exact slice_ring hring hset ha hu hdepth hw

end Operand

open Formula

theorem addressStride_constant (u : MicroOp) (reg : Register) {x : Int} (h : Word.fits x = true) :
    addressStride u reg (constant x) = constant x := by
  have sum : zero + constant x = constant x := by
    have added := constant_add (x := 0) (y := x) (by rwa [Int.zero_add])
    rwa [Int.zero_add] at added
  rw [addressStride, constant_scale_one h, sum, overflow_constant, if_neg Bool.false_ne_true]

theorem addressStride_irregular (u : MicroOp) (reg : Register) {f : Formula}
    (h : f.access.irregular = true) : (addressStride u reg f).access.irregular = true := by
  have sum : ∀ g : Formula, g.access.irregular = true → (zero + g).access.irregular = true := by
    intro g hg
    change (_ || g.access.irregular) = true
    rw [hg, Bool.or_true]
  unfold addressStride
  split
  · exact sum _ rfl
  · exact sum _ h

end AddressFormulas.Stride
