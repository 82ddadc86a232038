import AddressFormulas.Proofs.Analysis.OneBlockLoop
import AddressFormulas.Proofs.Analysis.Overflow
import AddressFormulas.Proofs.Stride.Agreement
import AddressFormulas.Proofs.Stride.Ring

namespace AddressFormulas

namespace Loop.ValueChain

variable {links : List MicroOp} {regs : Nat → Register} {load : MicroOp} {m : MemoryOperand}
  {d : Register} {j : Nat} (h : ValueChain links regs load m d j)

include h

theorem passesOn {u : MicroOp} (hu : u ∈ links) : ∃ s d, u.PassesOn s d := by
  obtain ⟨i, hi⟩ := List.getElem?_of_mem hu
  exact ⟨_, _, h.link i u hi⟩

theorem soleOperand : SoleOperand (links ++ [load]) links.length load m where
  op := op_load
  operands i u hu := by
    obtain hlt | hge := Nat.lt_or_ge i links.length
    · rw [List.getElem?_append_left hlt] at hu
      rw [if_neg (Nat.ne_of_lt hlt), (h.link i u hu).memoryOperands_eq]
    · have inside := (List.getElem?_eq_some_iff.mp hu).1
      rw [List.length_append, List.length_singleton] at inside
      obtain rfl : i = links.length := by omega
      obtain rfl : load = u := Option.some.inj (op_load.symm.trans hu)
      rw [if_pos rfl, MicroOp.memoryOperands, h.sources, h.destinations]
      rfl
  kind := by simp [h.kind]

theorem storeless : ∀ u ∈ links ++ [load], u.isStore = false := by
  intro u hu
  obtain hu | hu := List.mem_append.mp hu
  · obtain ⟨_, _, passes⟩ := h.passesOn hu
    obtain hk | hk | hk := passes.kind <;> simp [MicroOp.isStore, hk]
  · rw [List.mem_singleton.mp hu]
    simp [MicroOp.isStore, h.kind]

theorem addressFormula_entries : (load.addressFormula m).terms.entries =
    [(.register load.site (regs j).canonical, ⟨.one, some load.site⟩)] := by
  rw [MicroOp.addressFormula, h.base, h.index, h.disp]
  rfl

end Loop.ValueChain

namespace MicroOp

def general (n : Fin 89) : Register := ⟨.listed n, 0, 63⟩

variable {operation : Operation} {s d : Register} (pc : Nat)

theorem writesOnly_compute (operation : Operation) (sources : List Operand) (hd : d.isWhole = true) :
    (compute pc operation d sources).WritesOnly d :=
  ⟨hd, List.mem_singleton_self _, fun _ ho => .inl (List.mem_singleton.mp ho)⟩

theorem passesOn_move (hop : operation = .mov ∨ operation = .not) (hs : s.isWhole = true)
    (hd : d.isWhole = true) : (compute pc operation d [.register s]).PassesOn s d where
  unconditional := rfl
  kind := .inr (.inr rfl)
  modelled := by obtain rfl | rfl := hop <;> nofun
  sources := by simp [compute, hop]
  whole := hs
  writes := writesOnly_compute pc operation _ hd

theorem passesOn_step (c : Int) (hop : operation ∉ [.mov, .not, .invalid]) (hs : s.isWhole = true)
    (hd : d.isWhole = true) :
    (compute pc operation d [.register s, .immediate c]).PassesOn s d where
  unconditional := rfl
  kind := .inr (.inr rfl)
  modelled := by rintro rfl; simp at hop
  sources := by
    have other : ¬(operation = .mov ∨ operation = .not) := by rintro (rfl | rfl) <;> simp at hop
    simp [compute, other]
  whole := hs
  writes := writesOnly_compute pc operation _ hd

end MicroOp

namespace Graph

open Analysis Loop MicroOp

section Chain

variable {g : Graph} {a b : Nat} {entry body : Block} {links : List MicroOp} {regs : Nat → Register}
  {load : MicroOp} {m : MemoryOperand} {d : Register} {j : Nat} {bases : OperandTable}
  {settings : Settings} (h : g.OneBlockLoop a b entry body) (hbody : body.ops = links ++ [load])
  (hchain : Loop.ValueChain links regs load m d j)

include h hbody hchain

theorem OneBlockLoop.operandStride_chain (hlax : settings.strict = false)
    (hdepth : Stride.sufficientDepth g ≤ settings.depth) (session : StrideSession)
    (journal : Journal) :
    Stride.ends (Stride.operandStride ⟨settings, g, bases, 1⟩ b links.length m.opidx)
      (fun f _ => ∃ us sum, us.Perm links ∧ Stride.PartialSum us sum ∧
        f = Stride.addressStride load (regs j).canonical sum)
      { client := { session }, journal } := by
  obtain ⟨k, hk, hload⟩ := hchain.origin_load
  have ring := hchain.ring hk hload
  have op := hchain.soleOperand.op
  have increasing := hchain.increasing
  have storeless := hchain.storeless
  rw [← hbody] at ring op increasing storeless
  let task : Stride.Task := ⟨settings, g, bases, 1⟩
  have setting : ∀ p, CyclicPath.build? task.graph b task.marker = some p →
      ∃ low top, Stride.Setting task p low top ∧ Stride.Alone task p b body := fun p hp =>
    h.setting increasing storeless hlax bases hp
  let fresh : Walk StrideState := { client := { session }, journal }
  have blank : fresh.client = { session } := rfl
  refine wp_imp (Stride.operandStride_ring ring setting h.build?_eq_some h.body_eq op hdepth blank
    hchain.soleOperand.memoryOperands_eq hchain.addressFormula_entries) ?_
  rintro _ _ ⟨sum, added, rfl⟩
  exact ⟨_, sum, Loop.linksBack_perm links k, added, rfl⟩

theorem OneBlockLoop.partialSum_of_chain {f : Formula}
    (hf : IsFirstStride settings g bases ⟨b, links.length, load.pc, m.opidx, 1⟩ 1 f) :
    ∃ us sum, us.Perm links ∧ Stride.PartialSum us sum ∧
      f = Stride.addressStride load (regs j).canonical sum := by
  obtain ⟨session, journal, w, run⟩ := hf
  -- neither strictness nor a bound on the depth changes a stride that was computed
  let deep : Settings :=
    { settings with strict := false, depth := max settings.depth (Stride.sufficientDepth g) }
  have agree : settings.Agree (fun _ => True) deep := by
    refine ⟨?_, rfl, rfl, rfl⟩
    cases hs : settings.strict with
    | false => exact .inl rfl
    | true => exact .inr ⟨rfl, fun _ => trivial⟩
  let task : Stride.Task := ⟨settings, g, bases, 1⟩
  have agrees : WalkM.Agree (fun _ => True) (fun n => n = 0)
      (Stride.operandStride task b links.length m.opidx)
      (Stride.operandStride { task with settings := deep } b links.length m.opidx) :=
    Stride.operandStride_agree (B := fun n => n = 0) agree trivial rfl (Nat.le_max_left _ _) b
      links.length m.opidx
  exact wp_ok (h.operandStride_chain hbody hchain rfl (Nat.le_max_right _ _) session journal)
    (agrees.run_ok rfl run)

theorem OneBlockLoop.not_noCyclicPath_of_chain (c marker : Nat) :
    ¬IsFirstStop settings g bases ⟨b, links.length, load.pc, m.opidx, 1⟩ 1
      (.failed (.noCyclicPath c marker)) := by
  rintro ⟨session, journal, w, run⟩
  obtain ⟨p, hp⟩ := h.build?_eq_some
  have op : body.ops[links.length]? = some load := hbody ▸ hchain.soleOperand.op
  let task : Stride.Task := ⟨settings, g, bases, 1⟩
  have way : CyclicPath.build? task.graph b task.marker = some p := hp
  have interrupted := wp_error (Stride.operandStride_interrupted h.body_eq way rfl
    (isPlain_canonical (hchain.whole hchain.place)) op hchain.soleOperand.memoryOperands_eq
    hchain.addressFormula_entries) run
  obtain ⟨_, gap⟩ := interrupted _ rfl
  cases gap

variable (hentry : ∀ u ∈ entry.ops, u.pc ≠ load.pc)

include hentry

theorem OneBlockLoop.strides_chain {r : RoutineFormulas} (hr : g.analyze settings = .ok r) :
    ∃ us sum, us.Perm links ∧ Stride.PartialSum us sum ∧
      r.strides ⟨load.pc, m.opidx⟩ = [Stride.addressStride load (regs j).canonical sum] := by
  have sole := hchain.soleOperand
  rw [← hbody] at sole
  obtain ⟨bases, f, first, strides⟩ := h.strides_eq sole hentry
    (fun _ c marker => h.not_noCyclicPath_of_chain hbody hchain c marker) hr
  obtain ⟨us, sum, perm, added, rfl⟩ := h.partialSum_of_chain hbody hchain first
  exact ⟨us, sum, perm, added, strides⟩

theorem OneBlockLoop.analyze_chain_ok (hlax : settings.strict = false)
    (hdepth : max g.placeBound (Stride.sufficientDepth g) ≤ settings.depth) :
    ∃ r, g.analyze settings = .ok r := by
  have sole := hchain.soleOperand
  rw [← hbody] at sole
  apply h.analyze_eq_ok sole hentry hlax (Nat.le_trans (Nat.le_max_left _ _) hdepth)
  rintro bases ⟨session, journal, w, run⟩
  exact wp_error (h.operandStride_chain hbody hchain hlax
    (Nat.le_trans (Nat.le_max_right _ _) hdepth) session journal) run

/-- A load from a register of a chain of moves and steps by immediates has the sum of the steps as its
stride, whichever register it is. That the addresses of a routine rise strictly from one micro-op to
the next gives `hentry`: the address of the load is none of those before the loop. -/
theorem analyze_chain_sum
    (hops : ∀ u ∈ links, u.operation = .add ∨ u.operation = .sub ∨ u.operation = .mov)
    (hsum : (links.map fun u => u.step.natAbs).sum < 2 ^ 63) :
    (∀ settings r, g.analyze settings = .ok r →
      r.strides ⟨load.pc, m.opidx⟩ = [Formula.constant (links.map MicroOp.step).sum]) ∧
    ∃ enough, ∀ settings, settings.strict = false → enough ≤ settings.depth →
      ∃ r, g.analyze settings = .ok r := by
  refine ⟨fun settings r hr => ?_, _, fun settings hlax hdepth =>
    h.analyze_chain_ok hbody hchain hentry hlax hdepth⟩
  obtain ⟨us, sum, perm, added, strides⟩ := h.strides_chain hbody hchain hentry hr
  have steps : (us.map MicroOp.step).sum = (links.map MicroOp.step).sum := (perm.map _).sum_eq
  have distances : (us.map fun u => u.step.natAbs).sum = (links.map fun u => u.step.natAbs).sum :=
    (perm.map _).sum_eq
  have total : sum = Formula.constant (links.map MicroOp.step).sum := by
    rw [← steps]
    apply added.affine
    · intro u hu
      have hu := perm.mem_iff.mp hu
      exact ⟨hchain.passesOn hu, hops u hu⟩
    · rwa [distances]
  have bounded := Stride.natAbs_sum_step_le links
  rw [strides, total, Stride.addressStride_constant]
  exact Word.fits_of_natAbs_lt (by omega)

end Chain

def steppingLinks : List MicroOp :=
  [compute 0x10 .add (general 4) [.register (general 0), .immediate 16],
    compute 0x14 .mov (general 8) [.register (general 4)],
    compute 0x18 .sub (general 0) [.register (general 8), .immediate 4]]

theorem valueChain_steppingLinks : ValueChain steppingLinks
    (fun | 1 => general 4 | 2 => general 8 | _ => general 0) { loadFrom (general 8) with pc := 0x1c }
    { base := some (general 8) } (general 20) 2 where
  nonempty := by simp [steppingLinks]
  link i u hu := by
    match i, hu with
    | 0, rfl => exact passesOn_step 0x10 16 (by decide) rfl rfl
    | 1, rfl => exact passesOn_move 0x14 (.inl rfl) rfl rfl
    | 2, rfl => exact passesOn_step 0x18 4 (by decide) rfl rfl
  back := rfl
  increasing := by decide
  kind := rfl
  sources := rfl
  base := rfl
  index := rfl
  disp := rfl
  place := by decide
  destinations := rfl
  apart := by decide

theorem analyze_chain_sum_steppingLinks :
    ∃ r, (loopOf (steppingLinks ++ [{ loadFrom (general 8) with pc := 0x1c }])).analyze {} = .ok r ∧
      r.strides ⟨0x1c, 0⟩ = [.constant 12] := by
  have ends : ((loopOf (steppingLinks ++
      [{ loadFrom (general 8) with pc := 0x1c }])).analyze {}).toOption.isSome = true := by
    decide +kernel
  obtain ⟨r, hr⟩ := Option.isSome_iff_exists.mp ends
  have ok := ok_of_mem_toOption hr
  obtain ⟨entry, loop⟩ := oneBlockLoop_loopOf (steppingLinks ++
    [{ loadFrom (general 8) with pc := 0x1c }])
  have nothing : ∀ u ∈ entry.ops, u.pc ≠ 0x1c := by simp [loop.entry_loopOf]
  exact ⟨r, ok, (analyze_chain_sum loop rfl valueChain_steppingLinks nothing (by decide)
    (by decide)).1 {} r ok⟩

section Irregular

variable {g : Graph} {a b : Nat} {entry body : Block} {links : List MicroOp} {regs : Nat → Register}
  {load : MicroOp} {m : MemoryOperand} {d : Register} {j : Nat}

/-- A load from a register of a chain with a micro-op that is no translation has an irregular
stride. As above, `hentry` is what strictly rising addresses give. -/
theorem analyze_chain_irregular (h : g.OneBlockLoop a b entry body)
    (hbody : body.ops = links ++ [load]) (hchain : ValueChain links regs load m d j)
    (hentry : ∀ u ∈ entry.ops, u.pc ≠ load.pc) (hreshapes : ∃ u ∈ links, u.Reshapes) :
    (∀ settings r, g.analyze settings = .ok r →
      ∃ f, r.strides ⟨load.pc, m.opidx⟩ = [f] ∧ f.access.irregular = true) ∧
    ∃ enough, ∀ settings, settings.strict = false → enough ≤ settings.depth →
      ∃ r, g.analyze settings = .ok r := by
  refine ⟨fun settings r hr => ?_, _, fun settings hlax hdepth =>
    h.analyze_chain_ok hbody hchain hentry hlax hdepth⟩
  obtain ⟨us, sum, perm, added, strides⟩ := h.strides_chain hbody hchain hentry hr
  refine ⟨_, strides, Stride.addressStride_irregular load _ ?_⟩
  obtain ⟨u, hu, reshapes⟩ := hreshapes
  exact added.irregular (fun v hv => hchain.passesOn (perm.mem_iff.mp hv))
    ⟨u, perm.mem_iff.mpr hu, reshapes⟩

end Irregular

def shiftingLinks : List MicroOp :=
  [compute 0x10 .add (general 4) [.register (general 0), .immediate 8],
    compute 0x14 .sll (general 0) [.register (general 4), .immediate 1]]

theorem valueChain_shiftingLinks : ValueChain shiftingLinks
    (fun | 1 => general 4 | _ => general 0) { loadFrom (general 4) with pc := 0x18 }
    { base := some (general 4) } (general 20) 1 where
  nonempty := by simp [shiftingLinks]
  link i u hu := by
    match i, hu with
    | 0, rfl => exact passesOn_step 0x10 8 (by decide) rfl rfl
    | 1, rfl => exact passesOn_step 0x14 1 (by decide) rfl rfl
  back := rfl
  increasing := by decide
  kind := rfl
  sources := rfl
  base := rfl
  index := rfl
  disp := rfl
  place := by decide
  destinations := rfl
  apart := by decide

theorem analyze_chain_irregular_shiftingLinks :
    ∃ r f, (loopOf (shiftingLinks ++ [{ loadFrom (general 4) with pc := 0x18 }])).analyze {} = .ok r ∧
      r.strides ⟨0x18, 0⟩ = [f] ∧ f.access.irregular = true := by
  have ends : ((loopOf (shiftingLinks ++
      [{ loadFrom (general 4) with pc := 0x18 }])).analyze {}).toOption.isSome = true := by
    decide +kernel
  obtain ⟨r, hr⟩ := Option.isSome_iff_exists.mp ends
  have ok := ok_of_mem_toOption hr
  obtain ⟨entry, loop⟩ := oneBlockLoop_loopOf (shiftingLinks ++
    [{ loadFrom (general 4) with pc := 0x18 }])
  have nothing : ∀ u ∈ entry.ops, u.pc ≠ 0x18 := by simp [loop.entry_loopOf]
  have shifts : ∃ u ∈ shiftingLinks, u.Reshapes :=
    ⟨_, List.mem_cons_of_mem _ List.mem_cons_self, .inr ⟨by decide, 1, by decide, by decide⟩⟩
  obtain ⟨f, strides, irregular⟩ :=
    (analyze_chain_irregular loop rfl valueChain_shiftingLinks nothing shifts).1 {} r ok
  exact ⟨r, f, ok, strides, irregular⟩

end Graph

end AddressFormulas
