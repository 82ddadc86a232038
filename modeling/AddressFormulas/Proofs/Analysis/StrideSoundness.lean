import AddressFormulas.Proofs.Analysis.OneBlockLoop
import AddressFormulas.Proofs.Analysis.Overflow
import AddressFormulas.Proofs.Stride.Agreement
import AddressFormulas.Proofs.Stride.Change

/-!
Strides in a loop of one block. A constant stride of its load, without marks, is the change of the
address from every iteration to the next, from as many iterations on as the body has micro-ops, if
the address depends on no value cycles but those of counters. On other cycles it can be wrong: a
value that is doubled or negated in every iteration is given the stride zero.
-/

namespace AddressFormulas

namespace Loop

structure LoadBody (ops : List MicroOp) (dest : Nat → Register) (k : Nat) (load : MicroOp)
    (m : MemoryOperand) (reg : Register) : Prop extends Body ops dest where
  increasing : ops.Pairwise fun u v => u.pc < v.pc
  op : ops[k]? = some load
  kind : load.kind = .load
  only : ∀ (i : Nat) (u : MicroOp), ops[i]? = some u → u.isLoad = true → i = k
  sources : load.sources = [.memory m]
  base : m.base = some reg
  index : m.index = none
  disp : m.disp = 0
  whole : reg.isWhole = true

namespace LoadBody

variable {ops : List MicroOp} {dest : Nat → Register} {k : Nat} {load : MicroOp}
  {m : MemoryOperand} {reg : Register} (h : LoadBody ops dest k load m reg)

include h

theorem site_inj (i j : Nat) (u v : MicroOp) (hu : ops[i]? = some u) (hv : ops[j]? = some v)
    (hs : u.site = v.site) : i = j :=
  pc_inj h.increasing hu hv (congrArg Site.pc hs)

theorem storeless {u : MicroOp} (hu : u ∈ ops) : u.isStore = false := by
  obtain ⟨i, hi⟩ := List.getElem?_of_mem hu
  cases hload : u.isLoad with
  | true =>
    have kind : u.kind = .load := by simpa [MicroOp.isLoad] using hload
    simp [MicroOp.isStore, kind]
  | false => obtain hk | hk | hk := (h.linear i u hi hload).kind <;> simp [MicroOp.isStore, hk]

omit h in
theorem memory_destinations {u : MicroOp} {d : Register} (hu : u.WritesOnly d) :
    u.destinations.filterMap Operand.memory? = [] := by
  refine List.filterMap_eq_nil_iff.mpr fun o ho => ?_
  obtain rfl | hflag := hu.others o ho
  · rfl
  · cases o with
    | memory m => cases hflag
    | _ => rfl

theorem memoryOperands_eq {i : Nat} {u : MicroOp} (hu : ops[i]? = some u) :
    u.memoryOperands = if i = k then [m] else [] := by
  unfold MicroOp.memoryOperands
  rw [List.filterMap_append, memory_destinations (h.writes i u hu), List.append_nil]
  split
  · next hi =>
    subst hi
    obtain rfl := Option.some.inj (hu.symm.trans h.op)
    rw [h.sources]
    rfl
  · next hi =>
    have hload : u.isLoad = false := by simpa using mt (h.only i u hu) hi
    refine List.filterMap_eq_nil_iff.mpr fun o ho => ?_
    obtain ⟨v, rfl⟩ | ⟨r, rfl, _⟩ := (h.linear i u hu hload).sources o ho
    · rfl
    · rfl

theorem soleOperand : SoleOperand ops k load m where
  op := h.op
  operands _ _ := h.memoryOperands_eq
  kind := by simp [h.kind]

theorem addressFormula_entries : (load.addressFormula m).terms.entries =
    [(.register load.site reg.canonical, ⟨.one, some load.site⟩)] := by
  rw [MicroOp.addressFormula, h.base, h.index, h.disp]
  rfl

theorem addressBits_eq (st : Registers) : load.addressBits st m = st.read reg.canonical := by
  unfold MicroOp.addressBits MicroOp.registerBits
  simp [h.base, h.index, h.disp, Base.hardwired?_of_whole (Register.isWhole_canonical h.whole),
    Registers.read_canonical]

end LoadBody

/-- What unknowns stand for in a run of a loop, seen in the iteration whose number is the length of
the body. -/
def valuation (ops : List MicroOp) (st : Nat → Nat → Registers) : TermKey → BitVec 64
  | .register site r =>
    match lastBefore? ops (fun u => if u.pc = site.pc then some u else none) ops.length with
    | some (i, u, _) => (st ops.length (if u.sourceRegisters = [] then i + 1 else i)).read r
    | none => 0
  | _ => 1

theorem LoadBody.scene {ops : List MicroOp} {dest : Nat → Register} {k : Nat} {load : MicroOp}
    {m : MemoryOperand} {reg : Register} (h : LoadBody ops dest k load m reg)
    {st : Nat → Nat → Registers} (hrun : IsLoopRun ops st) :
    Stride.Scene ops dest st (valuation ops st) := by
  have place : ∀ (i : Nat) (u : MicroOp) (r : Register) (idx : Int), ops[i]? = some u →
      valuation ops st (.register ⟨u.pc, idx⟩ r) =
        (st ops.length (if u.sourceRegisters = [] then i + 1 else i)).read r := by
    intro i u r idx hu
    have hi := (List.getElem?_eq_some_iff.mp hu).1
    unfold valuation
    dsimp only
    split
    · next j v _ hv =>
      obtain ⟨_, hv, hd, _⟩ := lastBefore?_eq_some hv
      have hpc : v.pc = u.pc := by simpa using (Option.ite_none_right_eq_some.mp hd).1
      obtain rfl := pc_inj h.increasing hv hu hpc
      rw [Option.some.inj (hv.symm.trans hu)]
    · next hnone => simpa using lastBefore?_eq_none hnone hi hu
  refine ⟨h.toBody, hrun, h.site_inj, rfl, fun i u r idx hu hne => ?_, fun i u r idx hu he => ?_⟩
  · rw [place i u r idx hu, if_neg hne]
  · rw [place i u r idx hu, if_pos he]

end Loop

theorem Graph.OneBlockLoop.stage {g : Graph} {a b : Nat} {entry body : Block}
    (h : g.OneBlockLoop a b entry body) {dest : Nat → Register} {k : Nat} {load : MicroOp}
    {m : MemoryOperand} {reg : Register} (hbody : Loop.LoadBody body.ops dest k load m reg)
    (hsteady : Loop.Steady body.ops k reg.canonical) {st : Nat → Nat → Registers}
    (hrun : IsLoopRun body.ops st) {settings : Settings} (hlax : settings.strict = false)
    (bases : OperandTable) {p : CyclicPath} (hp : CyclicPath.build? g b 1 = some p) :
    ∃ low top, Stride.Stage ⟨settings, g, bases, 1⟩ p low top b body dest st
      (Loop.valuation body.ops st) k reg.canonical := by
  obtain ⟨low, top, setting, alone⟩ :=
    h.setting hbody.increasing (fun u hu => hbody.storeless hu) hlax bases hp
  exact ⟨low, top, setting, alone, hbody.scene hrun, hsteady⟩

namespace Graph

section Load

variable {g : Graph} {a b : Nat} {entry body : Block} {dest : Nat → Register} {k : Nat}
  {load : MicroOp} {m : MemoryOperand} {reg : Register}

theorem OneBlockLoop.isFirstStride {settings : Settings} {r : RoutineFormulas}
    (h : g.OneBlockLoop a b entry body) (hbody : Loop.LoadBody body.ops dest k load m reg)
    (hr : g.analyze settings = .ok r) {o : OperandId} {f : Formula} (hf : f ∈ r.strides o) :
    ∃ bases, Analysis.IsFirstStride settings g bases ⟨b, k, load.pc, m.opidx, 1⟩ 1 f :=
  h.strides_first hbody.soleOperand hr hf

/-- If the analysis gives the load of a loop of one block a constant stride without marks, then the
address of the load changes by it in every iteration after as many as there are micro-ops. The
address may depend on counters, but on no other value cycles. -/
theorem analyze_stride_sound {settings : Settings} {r : RoutineFormulas}
    (h : g.OneBlockLoop a b entry body) (hbody : Loop.LoadBody body.ops dest k load m reg)
    (hsteady : Loop.Steady body.ops k reg.canonical) (hr : g.analyze settings = .ok r)
    {f : Formula} (hf : f ∈ r.strides ⟨load.pc, m.opidx⟩) (hmarks : f.access = {}) {c : Int}
    (hc : f.constantValue? = some (.ofInt c)) {st : Nat → Nat → Registers}
    (hrun : IsLoopRun body.ops st) {i : Nat} (hi : body.ops.length ≤ i) :
    load.addressBits (st (i + 1) k) m - load.addressBits (st i k) m = BitVec.ofInt 64 c := by
  obtain ⟨bases, session, journal, w, run⟩ := h.isFirstStride hbody hr hf
  -- neither strictness nor a bound on the depth changes a stride that was computed
  let deep : Settings :=
    { settings with strict := false, depth := max settings.depth (Stride.sufficientDepth g) }
  have agree : settings.Agree (fun _ => True) deep := by
    refine ⟨?_, rfl, rfl, rfl⟩
    cases hs : settings.strict with
    | false => exact .inl rfl
    | true => exact .inr ⟨rfl, fun _ => trivial⟩
  let task : Stride.Task := ⟨deep, g, bases, 1⟩
  have agrees : WalkM.Agree (fun _ => True) (fun n => n = 0)
      (Stride.operandStride ⟨settings, g, bases, 1⟩ b k m.opidx)
      (Stride.operandStride task b k m.opidx) :=
    Stride.operandStride_agree (B := fun n => n = 0) agree trivial rfl (Nat.le_max_left _ _) b k
      m.opidx
  have stage : ∀ p, CyclicPath.build? task.graph b task.marker = some p →
      ∃ low top, Stride.Stage task p low top b body dest st (Loop.valuation body.ops st) k
        reg.canonical :=
    fun p hp => h.stage hbody hsteady hrun rfl bases hp
  have operand : load.memoryOperands = [m] := by rw [hbody.memoryOperands_eq hbody.op, if_pos rfl]
  have describes := wp_ok (Stride.operandStride_describes stage (isPlain_canonical hbody.whole)
    hbody.op (Nat.le_max_right _ _) rfl h.body_eq operand hbody.addressFormula_entries)
    (agrees.run_ok rfl run)
  have settled : f.overflow = false := by
    have flagged := (wp_ok (Stride.operandStride_flagged _ _ _ _) run).2
    rw [hmarks] at flagged
    simpa using flagged
  have step := describes.holds ⟨settled, hmarks⟩ i hi
  have word :=
    (Formula.word_of_constantValue? (Loop.valuation body.ops st) rfl describes.plain hc).2
  change (st (i + 1) k).read reg.canonical = (st i k).read reg.canonical + _ at step
  rw [hbody.addressBits_eq, hbody.addressBits_eq, step, word, add_sub_cancel_left]
  rfl

end Load

end Graph

namespace MicroOp

def written (u : MicroOp) : Register :=
  match u.destinations with
  | [.register d] => d
  | _ => .absent

def isLinear (u : MicroOp) : Bool :=
  u.kind = .alu && !u.conditional && u.operation ∈ [.mov, .add, .sub] &&
    u.operation.arity? = some u.sources.length && u.sources.all isWord &&
    u.destinations = [.register u.written] && u.written.isWhole
where
  isWord : Operand → Bool
    | .immediate _ => true
    | .register r => r.isWhole
    | _ => false

theorem isLinear_written {u : MicroOp} (h : u.isLinear = true) : u.IsLinear u.written := by
  simp only [isLinear, Bool.and_eq_true, decide_eq_true_eq, Bool.not_eq_true', List.all_eq_true,
    List.mem_cons, List.not_mem_nil, or_false] at h
  obtain ⟨⟨⟨⟨⟨⟨kind, unconditional⟩, linear⟩, arity⟩, sources⟩, destinations⟩, whole⟩ := h
  refine ⟨⟨unconditional, .inr (.inr kind), arity, fun o ho => ?_, whole, ?_, fun o ho => ?_⟩,
    linear⟩
  · have word := sources o ho
    cases o with
    | immediate v => exact .inl ⟨v, rfl⟩
    | register r => exact .inr ⟨r, rfl, word⟩
    | _ => cases word
  · rw [destinations]
    exact List.mem_singleton_self _
  · rw [destinations] at ho
    exact .inl (List.mem_singleton.mp ho)

end MicroOp

namespace Loop

open MicroOp

def writtenAt (ops : List MicroOp) (i : Nat) : Register := (ops[i]?.map written).getD .absent

theorem loadBody_of {reg : Register} {ops : List MicroOp} (hreg : reg.isWhole = true)
    (hops : ∀ u ∈ ops, u.isLinear = true)
    (hpcs : (loadFrom reg :: ops).Pairwise fun u v => u.pc < v.pc) :
    LoadBody (loadFrom reg :: ops) (writtenAt (loadFrom reg :: ops)) 0 (loadFrom reg)
      { base := some reg } reg := by
  have split : ∀ {i : Nat} {u : MicroOp}, (loadFrom reg :: ops)[i]? = some u →
      (i = 0 ∧ u = loadFrom reg) ∨ (i ≠ 0 ∧ u.isLoad = false ∧ u.IsLinear u.written) := by
    intro i u hu
    cases i with
    | zero => exact .inl ⟨rfl, (Option.some.inj hu).symm⟩
    | succ j =>
      have linear := isLinear_written (hops u (List.mem_of_getElem? hu))
      exact .inr ⟨Nat.succ_ne_zero j, linear.isLoad_eq, linear⟩
  have at_eq : ∀ {i : Nat} {u : MicroOp}, (loadFrom reg :: ops)[i]? = some u →
      writtenAt (loadFrom reg :: ops) i = u.written := by
    intro i u hu
    rw [writtenAt, hu]
    rfl
  refine ⟨⟨fun i u hu hload => ?_, fun i u hu => ?_, fun i u hu => ?_⟩, hpcs, rfl, rfl,
    fun i u hu hload => ?_, rfl, rfl, rfl, rfl, hreg⟩
  · rw [at_eq hu]
    obtain ⟨_, rfl⟩ | ⟨_, _, linear⟩ := split hu
    · cases hload
    · exact linear
  · obtain ⟨_, rfl⟩ | ⟨_, _, linear⟩ := split hu
    · rfl
    · exact linear.unconditional
  · rw [at_eq hu]
    obtain ⟨_, rfl⟩ | ⟨_, _, linear⟩ := split hu
    · exact ⟨rfl, List.mem_singleton_self _, fun o ho => .inl (List.mem_singleton.mp ho)⟩
    · exact linear.writes
  · obtain ⟨hi, _⟩ | ⟨_, none, _⟩ := split hu
    · exact hi
    · rw [none] at hload
      cases hload

def addressIn (reg : Register) (ops : List MicroOp) (start : Registers) (t : Nat) : BitVec 64 :=
  (loadFrom reg).addressBits (iterationStart ops (writtenAt ops) start t) { base := some reg }

end Loop

namespace Graph

open MicroOp Loop

def laggingOps : List MicroOp :=
  let rax : Register := ⟨.listed 0, 0, 63⟩
  let rbx : Register := ⟨.listed 4, 0, 63⟩
  let rdx : Register := ⟨.listed 12, 0, 63⟩
  [loadFrom rdx, compute 0x14 .sub rdx [.register rax, .register rbx],
    compute 0x18 .add rax [.register rax, .immediate 8]]

theorem feed?_laggingOps {i k j d : Nat} (h : feed? laggingOps i k = some (j, d)) :
    k = 0 ∧ j = 2 ∧ d = 1 := by
  have first : feed? laggingOps 1 0 = some (2, 1) ∧ feed? laggingOps 1 1 = none ∧
      feed? laggingOps 2 0 = some (2, 1) := by decide +kernel
  match i, k, h with
  | 0, _, h => cases h
  | 1, 0, h => simpa [first.1, eq_comm] using h
  | 1, 1, h => simp [first.2.1] at h
  | 1, _ + 2, h => cases h
  | 2, 0, h => simpa [first.2.2, eq_comm] using h
  | 2, 1, h => cases h
  | 2, _ + 2, h => cases h
  | _ + 3, _, h => cases h

theorem steady_laggingOps (i : Nat) (r : Register) : Steady laggingOps i r where
  single _ h h' _ _ := (feed?_laggingOps h).1.trans (feed?_laggingOps h').1.symm
  added _ _ _ h _ := absurd (feed?_laggingOps h).1 Nat.one_ne_zero
  turn := by
    intro j k a d e _ h reaches
    obtain ⟨_, rfl, rfl⟩ := feed?_laggingOps h
    obtain rfl : j = 2 := by
      obtain rfl | ⟨b, _, k, d, hf⟩ := Relation.ReflTransGen.cases_tail reaches.leads
      · rfl
      · exact (feed?_laggingOps hf).2.1
    cases reaches with
    | here => rfl
    | step hne => exact absurd rfl hne

theorem analyze_stride_sound_laggingOps :
    ∃ r f, (loopOf laggingOps).analyze {} = .ok r ∧ f ∈ r.strides ⟨0x10, 0⟩ ∧ f.access = {} ∧
      f.constantValue? = some (.ofInt 8) ∧ ∀ start : Registers,
        addressIn ⟨.listed 12, 0, 63⟩ laggingOps start 4 -
          addressIn ⟨.listed 12, 0, 63⟩ laggingOps start 3 = BitVec.ofInt 64 8 := by
  obtain ⟨r, hr, f, hf, marks, value⟩ : ∃ r ∈ ((loopOf laggingOps).analyze {}).toOption,
      ∃ f ∈ r.strides ⟨0x10, 0⟩, f.access = {} ∧ f.constantValue? = some (.ofInt 8) := by
    decide +kernel
  have ok := ok_of_mem_toOption hr
  refine ⟨r, f, ok, hf, marks, value, fun start => ?_⟩
  obtain ⟨entry, loop⟩ := oneBlockLoop_loopOf laggingOps
  have load : LoadBody laggingOps (writtenAt laggingOps) 0 (loadFrom ⟨.listed 12, 0, 63⟩)
      { base := some ⟨.listed 12, 0, 63⟩ } ⟨.listed 12, 0, 63⟩ :=
    loadBody_of rfl (by decide) (by decide)
  have run := isLoopRun_stateAt load.writes start
  have sound := analyze_stride_sound loop load (steady_laggingOps 0 _) ok hf marks value run
    (show laggingOps.length ≤ 3 from le_refl 3)
  unfold addressIn
  rw [stateAt, stateAt] at sound
  exact sound

def doublingOps : List MicroOp :=
  let rax : Register := ⟨.listed 0, 0, 63⟩
  [loadFrom rax, compute 0x14 .add rax [.register rax, .register rax]]

def negatingOps : List MicroOp :=
  let rax : Register := ⟨.listed 0, 0, 63⟩
  [loadFrom rax, compute 0x14 .sub rax [.immediate 0, .register rax]]

def alternatingOps : List MicroOp :=
  let rax : Register := ⟨.listed 0, 0, 63⟩
  let rbx : Register := ⟨.listed 4, 0, 63⟩
  let rcx : Register := ⟨.listed 8, 0, 63⟩
  [loadFrom rax, compute 0x14 .mov rcx [.register rax],
    compute 0x18 .add rax [.register rbx, .immediate 8], compute 0x1c .mov rbx [.register rcx]]

/-- The load from `reg` is given the constant stride `c`, without marks, but there is a run with a
late iteration in which its address changes by something else. -/
def IsUnsound (reg : Register) (ops : List MicroOp) (c : Int) : Prop :=
  (∃ entry, (loopOf ops).OneBlockLoop 0 1 entry (loopBody ops)) ∧
  LoadBody ops (writtenAt ops) 0 (loadFrom reg) { base := some reg } reg ∧
  (∃ r f, (loopOf ops).analyze {} = .ok r ∧ f ∈ r.strides ⟨0x10, 0⟩ ∧ f.access = {} ∧
    f.constantValue? = some (.ofInt c)) ∧
  ∃ st, IsLoopRun ops st ∧ ∃ i, ops.length ≤ i ∧
    (loadFrom reg).addressBits (st (i + 1) 0) { base := some reg } -
      (loadFrom reg).addressBits (st i 0) { base := some reg } ≠ BitVec.ofInt 64 c

theorem isUnsound_of {reg : Register} {ops : List MicroOp} {c : Int} {start : Registers} {i : Nat}
    (hreg : reg.isWhole = true) (hops : ∀ u ∈ ops, u.isLinear = true)
    (hpcs : (loadFrom reg :: ops).Pairwise fun u v => u.pc < v.pc)
    (hstride : ∃ r ∈ ((loopOf (loadFrom reg :: ops)).analyze {}).toOption,
      ∃ f ∈ r.strides ⟨0x10, 0⟩, f.access = {} ∧ f.constantValue? = some (.ofInt c))
    (hi : ops.length < i)
    (hne : addressIn reg (loadFrom reg :: ops) start (i + 1) -
      addressIn reg (loadFrom reg :: ops) start i ≠ BitVec.ofInt 64 c) :
    IsUnsound reg (loadFrom reg :: ops) c := by
  have load := loadBody_of hreg hops hpcs
  obtain ⟨r, hr, f, hf, marks, value⟩ := hstride
  exact ⟨oneBlockLoop_loopOf _, load, ⟨r, f, ok_of_mem_toOption hr, hf, marks, value⟩, _,
    isLoopRun_stateAt load.writes start, i, hi, hne⟩

def onlyRax : Registers := fun n => if n = .listed 0 then 1 else 0

/-- Strides are wrong on value cycles that are not those of counters: a value that is added to
itself, one that is subtracted from zero, and one that takes two iterations to come around. -/
theorem analyze_stride_unsound :
    IsUnsound ⟨.listed 0, 0, 63⟩ doublingOps 0 ∧ IsUnsound ⟨.listed 0, 0, 63⟩ negatingOps 0 ∧
      IsUnsound ⟨.listed 0, 0, 63⟩ alternatingOps 8 := by
  have doubling : addressIn ⟨.listed 0, 0, 63⟩ doublingOps onlyRax 3 -
      addressIn ⟨.listed 0, 0, 63⟩ doublingOps onlyRax 2 ≠ BitVec.ofInt 64 0 := by decide +kernel
  have negating : addressIn ⟨.listed 0, 0, 63⟩ negatingOps onlyRax 3 -
      addressIn ⟨.listed 0, 0, 63⟩ negatingOps onlyRax 2 ≠ BitVec.ofInt 64 0 := by decide +kernel
  have alternating : addressIn ⟨.listed 0, 0, 63⟩ alternatingOps onlyRax 5 -
      addressIn ⟨.listed 0, 0, 63⟩ alternatingOps onlyRax 4 ≠ BitVec.ofInt 64 8 := by decide +kernel
  exact ⟨isUnsound_of rfl (by decide) (by decide) (by decide +kernel) (by decide) doubling,
    isUnsound_of rfl (by decide) (by decide) (by decide +kernel) (by decide) negating,
    isUnsound_of rfl (by decide) (by decide) (by decide +kernel) (by decide) alternating⟩

end Graph

end AddressFormulas
