import AddressFormulas.Proofs.Base.Reload

namespace AddressFormulas

open WalkM

structure Register.IsGeneral (r : Register) : Prop where
  cls : r.cls = .general
  range : r.lsb ≤ r.msb

namespace Register.IsGeneral

variable {r : Register}

theorem canonical (h : r.IsGeneral) : r.canonical.IsGeneral := ⟨r.name.cls_parent.trans h.cls, h.range⟩

theorem hardwired?_eq_none (h : r.IsGeneral) (pc : Nat) : r.hardwired? pc = none := by
  simp [Register.hardwired?, h.cls]

theorem isAbsent_eq_false (h : r.IsGeneral) : r.isAbsent = false := by
  simp [isAbsent, h.cls]

theorem overlaps_canonical (h : r.IsGeneral) : r.canonical.overlaps r = true := by
  have parents : r.canonical.name.parent = r.name.parent := r.name.parent_parent
  have low : r.canonical.lsb ≤ r.msb := h.range
  have high : r.lsb ≤ r.canonical.msb := h.range
  simp [overlaps, h.isAbsent_eq_false, h.canonical.isAbsent_eq_false, parents, low, high]

theorem overlaps_self (h : r.IsGeneral) : r.overlaps r = true :=
  Register.overlaps_self h.isAbsent_eq_false h.range

end Register.IsGeneral

structure MicroOp.IsSelfXor (u : MicroOp) (r : Register) : Prop where
  kind : u.kind = .alu
  operation : u.operation = .xor
  unconditional : u.conditional = false
  sources : u.sources = [.register r, .register r]
  general : r.IsGeneral

namespace MicroOp.IsSelfXor

variable {u : MicroOp} {r d : Register}

theorem sourceRegisters_eq (h : u.IsSelfXor r) : u.sourceRegisters = [r, r] := by
  simp [sourceRegisters, h.sources, operandRegister?]

theorem valueSources_eq (h : u.IsSelfXor r) : u.valueSources = 2 := by
  simp [valueSources, h.sources, Operand.isFlagOrStatus, Register.isFlagOrStatus, h.general.cls]

theorem effect_eq (h : u.IsSelfXor r) : u.effect = .normal := by
  have general := h.general.canonical.cls
  simp [effect, isBranch, isLoad, h.kind, valueRegisters, h.sourceRegisters_eq, Register.isAbsent,
    Register.isPseudo, Register.isFlagOrStatus, general]

theorem defines?_isSome (h : u.IsSelfXor r) (hd : d.IsGeneral)
    (destination : .register d ∈ u.destinations) : (u.defines? d).isSome = true := by
  unfold defines? writes?
  rw [h.unconditional, if_neg (by decide), List.find?_isSome]
  refine ⟨d.canonical, List.mem_map_of_mem ?_, hd.overlaps_canonical⟩
  exact List.mem_filterMap.mpr ⟨.register d, destination, rfl⟩

end MicroOp.IsSelfXor

theorem Formula.sameTerms_self (f : Formula) : f.sameTerms f = true := by
  simp [sameTerms, List.zip]

namespace Base

variable {settings : Settings} {g : Graph} {c : BaseState} {u : Placed} {r : Register}

theorem sliceSource_general (h : r.IsGeneral) (walk : Slicer.WalkFor BaseState) :
    (slicer settings g).sliceSource walk u r =
      (slicer settings g).sliceWith walk ⟨u.block, u.index⟩ r.canonical ⟨u.op.pc, 0⟩ := by
  have general := h.canonical.cls
  have free : u.op.hardwired? r.canonical = none := h.canonical.hardwired?_eq_none _
  unfold Slicer.sliceSource
  simp [Register.isAbsent, Register.isPseudo, Register.isFlagOrStatus, Register.isStack, general, free]

theorem operandValue_register {u : MicroOp} {i : Nat} (h : u.sources[i]? = some (.register r)) :
    operandValue u i = claim r.canonical := by
  unfold operandValue
  rw [h]
  rfl

theorem definitionValue_acts_of_isSelfXor (hx : u.op.IsSelfXor r) {d : Register} {f : Formula}
    {rest : List (Slot × Formula)}
    (hc : c.values.newestFirst = (.register d, f) :: (.register d, f) :: rest)
    (hover : d.overlaps r.canonical = true) (reg : Register) :
    Acts (definitionValue settings g u reg) c .zero { c with values := ⟨rest⟩ } := by
  have first : Acts (operandValue u.op 0) c (some f) { c with values := ⟨(.register d, f) :: rest⟩ } := by
    rw [operandValue_register (by rw [hx.sources]; rfl)]
    exact claim_acts hc hover
  have second : Acts (operandValue u.op 1) { c with values := ⟨(.register d, f) :: rest⟩ } (some f)
      { c with values := ⟨rest⟩ } := by
    rw [operandValue_register (by rw [hx.sources]; rfl)]
    exact claim_acts rfl hover
  have zero : ∀ unknown c, Acts (combine u.op unknown f f) c .zero c := by
    intro unknown c
    unfold combine
    rw [hx.operation]
    dsimp only
    rw [if_pos f.sameTerms_self]
    exact .bind (.tell _) (.ok _)
  refine .bind (.classify u.op) ?_
  rw [hx.effect_eq]
  dsimp only
  unfold normalValue twoSourceValue
  simp only [hx.valueSources_eq, hx.kind, hx.operation]
  exact .bind first (.bind second (zero _ _))

theorem define_acts_of_isSelfXor (hx : u.op.IsSelfXor r)
    (walks : WalksRenew settings g ⟨u.block, u.index⟩)
    (spared : g.Spares u.op.site ⟨u.block, u.index⟩) (settled : Settled c)
    (unknown : c.definitions.get? u.op.site = none) (reg : Register) :
    ∃ c', ∀ k, g.weight u.block u.index < k →
      Acts (define settings g k u reg) c () (recorded c' u.op.site reg .zero) := by
  obtain ⟨c₁, walk, keeps, renewed⟩ := walks r.canonical c settled
  -- the first operand leaves `f` on top, and slicing the second one can only put it there again
  obtain ⟨d, f, rest, values, hover, _, again⟩ := renewed hx.general.canonical.overlaps_self
  have unmet : c₁.definitions.get? u.op.site = none := (keeps.spared _ spared).trans unknown
  have present := Register.isAbsent_of_overlaps hover
  refine ⟨{ c₁ with values := ⟨rest⟩ }, fun k hk => ?_⟩
  have enter : Acts (enterOp settings ((slicer settings g).follow g k) u reg) c true c := by
    refine .read fun w hc hstop => ?_
    rw [hc, hstop, if_neg (by simp [Table.contains, unknown])]
    refine .bind (.classify u.op) ?_
    rw [hx.effect_eq]
    dsimp only
    rw [hx.operation]
    exact .ok true
  have source : ∀ c₂ c₃, Walks settings g ⟨u.block, u.index⟩ r.canonical c₂ c₃ →
      Acts ((slicer settings g).sliceSource ((slicer settings g).walk g k) u r) c₂ () c₃ := by
    intro c₂ c₃ walks
    rw [sliceSource_general hx.general]
    exact .bind (.ok ()) (walks k _ hk rfl)
  have sources : Acts ((slicer settings g).sliceSources ((slicer settings g).walk g k) u
      u.op.sourceRegisters) c () { c₁ with values := c₁.values.push d f } := by
    rw [hx.sourceRegisters_eq]
    exact .bind (source _ _ walk) (.bind (source _ _ (again c₁ rfl)) (.ok ()))
  have twice : (c₁.values.push d f).newestFirst = (.register d, f) :: (.register d, f) :: rest := by
    simp [Pending.push, present, values]
  refine .bind enter (.bind sources (leaveOp_acts_plain ?_ ?_ rfl))
  · exact unmet
  · exact definitionValue_acts_of_isSelfXor hx twice hover reg

theorem walk_acts_of_isSelfXor {b i : Nat} {u : MicroOp} (hu : g.op? b i = some u)
    (hx : u.IsSelfXor r) (walks : WalksRenew settings g ⟨b, i⟩) (spared : g.Spares u.site ⟨b, i⟩)
    {target written : Register} (hwritten : u.defines? target = some written) (settled : Settled c)
    (unknown : c.definitions.get? u.site = none) :
    ∃ c', Walks settings g ⟨b, i + 1⟩ target c (recorded c' u.site written .zero) := by
  obtain ⟨block, hb, hi⟩ := Graph.op?_eq_some.mp hu
  have found : block.definition? (i + 1) target = some (i, u, written) := by
    have inside := (List.getElem?_eq_some_iff.mp hi).1
    apply lastBefore?_eq (by omega) hi hwritten
    intro j v hij hj
    omega
  have lighter : g.weight b i < g.weight b (i + 1) := Graph.weight_lt_of_lt (Nat.lt_succ_self i)
  obtain ⟨c', defined⟩ :=
    define_acts_of_isSelfXor (u := ⟨b, i, u⟩) hx walks spared settled unknown written
  refine ⟨c', fun k bounds hk hbounds => ?_⟩
  obtain ⟨k, rfl⟩ : ∃ j, k = j + 1 := ⟨k - 1, by omega⟩
  refine .bind (setBounds_acts hbounds c) (.bind (.require hb) ?_)
  rw [found]
  exact .bind (.tell _) (defined k (by dsimp only at hk ⊢; omega))

theorem slice_agree (settings : Settings) (g : Graph) (depth : Nat) (h : settings.depth ≤ depth)
    (p : Position) (reg : Register) (bounds : Bounds) :
    Agree (fun _ => True) (fun _ => True) (do slice settings g p reg bounds; claim reg)
      (do slice { settings with strict := false, depth } g p reg bounds; claim reg) := by
  have lax : settings.Agree (fun _ => True) { settings with strict := false, depth } := by
    refine ⟨?_, rfl, rfl, rfl⟩
    cases strict : settings.strict with
    | false => exact .inl rfl
    | true => exact .inr ⟨rfl, fun _ => trivial⟩
  have hooks := slicer_agree (g := g) lax (B := fun _ => True) trivial
  have walks := (hooks.walk_and_follow (g := g) trivial h).1
  exact .bind (.bind (.ok ()) fun _ => walks p reg bounds trivial trivial) fun _ => claim_agree reg

variable {bases : OperandTable} {b i : Nat} {u : MicroOp} {d : Register}

theorem slice_selfXor_lax (hs : settings.strict = false) (hdepth : g.placeBound ≤ settings.depth)
    (hg : g.Built) (ha : g.ForwardAcyclic) (distinct : g.DistinctSites) (hu : g.op? b i = some u)
    (hx : u.IsSelfXor r) (destination : .register d ∈ u.destinations) (hd : d.IsGeneral)
    {w : Walk BaseState} (hw : w.client = { bases }) (start : Nat) :
    ∃ t, (do slice settings g ⟨b, i + 1⟩ d ⟨start, 0⟩; claim d).run w = .ok (some .zero) t := by
  obtain ⟨written, hwritten⟩ := Option.isSome_iff_exists.mp (hx.defines?_isSome hd destination)
  have overlaps := (MicroOp.defines?_eq_some hwritten).2
  obtain ⟨block, hb, hi⟩ := Graph.op?_eq_some.mp hu
  have inside := (List.getElem?_eq_some_iff.mp hi).1
  have length := Graph.length_le_opCount hb
  have light : g.weight b (i + 1) < g.placeBound := Graph.weight_lt_placeBound b (by omega)
  have lighter : g.weight b i < g.weight b (i + 1) := Graph.weight_lt_of_lt (Nat.lt_succ_self i)
  have walks := (walks_renew_and_follows_act hs hg.wellFormed ha settings.depth ⟨b, i⟩
    (List.getElem?_eq_some_iff.mp hb).1 (by dsimp only; omega)).1
  have spared := Graph.spares_of_distinctSites distinct ha hu (Nat.le_refl i)
  have fresh : Settled { bases } := fun _ _ known => nomatch known
  obtain ⟨c', walk⟩ := walk_acts_of_isSelfXor hu hx walks spared hwritten fresh rfl
  have zero : Acts (do slice settings g ⟨b, i + 1⟩ d ⟨start, 0⟩; claim d) { bases } (some .zero)
      { recorded c' u.site written .zero with values := c'.values } := by
    refine .bind (.bind (.ok ()) (walk _ _ ?_ rfl)) (claim_acts ?_ overlaps)
    · dsimp only
      omega
    · simp [recorded, Pending.push, Register.isAbsent_of_overlaps overlaps]
  exact zero.of_slice (by omega) hw

/-- The exclusive or of a register with itself is zero, whatever defines the register and however far
back. -/
theorem slice_selfXor (settings : Settings) (hg : g.Built) (ha : g.ForwardAcyclic)
    (distinct : g.DistinctSites) (hu : g.op? b i = some u) (hx : u.IsSelfXor r)
    (destination : .register d ∈ u.destinations) (hd : d.IsGeneral) {w : Walk BaseState}
    (hw : w.client = { bases }) (start : Nat) :
    (∀ answer t, (do slice settings g ⟨b, i + 1⟩ d ⟨start, 0⟩; claim d).run w = .ok answer t →
      answer = some .zero) ∧
    (settings.strict = false → g.placeBound ≤ settings.depth →
      ∃ t, (do slice settings g ⟨b, i + 1⟩ d ⟨start, 0⟩; claim d).run w = .ok (some .zero) t) := by
  refine ⟨fun answer t run => ?_, fun hs hdepth =>
    slice_selfXor_lax hs hdepth hg ha distinct hu hx destination hd hw start⟩
  -- an answer under any settings is the one that a lax run of enough depth comes to
  let lax : Settings := { settings with strict := false, depth := max settings.depth g.placeBound }
  have run' : (do slice lax g ⟨b, i + 1⟩ d ⟨start, 0⟩; claim d).run w = .ok answer t :=
    (slice_agree settings g _ (le_max_left _ _) _ _ _).run_ok trivial run
  obtain ⟨t', zero⟩ : ∃ t, (do slice lax g ⟨b, i + 1⟩ d ⟨start, 0⟩; claim d).run w =
      .ok (some .zero) t :=
    slice_selfXor_lax rfl (le_max_right _ _) hg ha distinct hu hx destination hd hw start
  cases run'.symm.trans zero
  rfl

def clearedLoad : Graph :=
  let rax : Register := ⟨.listed 0, 0, 63⟩
  let eax : Register := ⟨.listed 1, 0, 31⟩
  let ah : Register := ⟨.listed 64, 8, 15⟩
  let next : MicroOp :=
    { pc := 0x14, kind := .alu, operation := .add, sources := [.register rax, .immediate 4],
      destinations := [.register ⟨.listed 4, 0, 63⟩] }
  let cleared : MicroOp :=
    { pc := 0x18, kind := .alu, operation := .xor, sources := [.register ah, .register ah],
      destinations := [.register eax] }
  ((({} : Graph).addBlock 0 0 [refill 0x10 rax]).addBlock 1 0 [next, cleared]).addEdge 0 1 false

theorem slice_selfXor_clearedLoad :
    let eax : Register := ⟨.listed 1, 0, 31⟩
    let w : Walk BaseState := { client := { bases := bothAt64 0x10 0x14 } }
    (∀ answer t, (do slice { strict := true } clearedLoad ⟨1, 1 + 1⟩ eax ⟨0x18, 0⟩; claim eax).run w =
      .ok answer t → answer = some .zero) ∧
    ∃ t, (do slice {} clearedLoad ⟨1, 1 + 1⟩ eax ⟨0x18, 0⟩; claim eax).run w = .ok (some .zero) t := by
  intro eax w
  have built : clearedLoad.Built := .addEdge _ (by decide) (by decide) <|
    .addBlock _ _ _ (.addBlock _ _ _ (.empty ""))
  have acyclic : clearedLoad.ForwardAcyclic := Graph.forwardAcyclic_of_ranks id (by decide)
  have distinct : clearedLoad.DistinctSites := Graph.distinctSites_of_nodup (by decide)
  have zero (settings : Settings) := slice_selfXor settings built acyclic distinct (b := 1) (i := 1)
    rfl ⟨rfl, rfl, rfl, rfl, rfl, by decide⟩ (List.mem_singleton_self _) ⟨rfl, by decide⟩
    (rfl : w.client = _) 0x18
  exact ⟨(zero { strict := true }).1, (zero {}).2 rfl (by decide)⟩

end Base

end AddressFormulas
