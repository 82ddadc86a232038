import AddressFormulas.Proofs.Base.Steps

namespace AddressFormulas

open WalkM

def MicroOp.stored? (u : MicroOp) : Option Register :=
  match u.sources with
  | [.register r] => if (u.hardwired? r.canonical).isNone then some r.canonical else none
  | [.temporary i] => some (.temporary i u.width)
  | _ => none

/-- Micro-op `j` of block `b` loads from the address `base`, and micro-op `i` is the last store to it
before. -/
structure Graph.Reloads (g : Graph) (bases : OperandTable) (b i j : Nat) (store load : MicroOp)
    (base : Formula) : Prop where
  before : i < j
  store_at : g.op? b i = some store
  load_at : g.op? b j = some load
  isLoad : load.isLoad = true
  base_eq : Slicer.loadBase? bases load = some base
  stores : Slicer.storesTo bases base store = true
  last : ∀ k u, i < k → k < j → g.op? b k = some u → Slicer.storesTo bases base u = false

namespace Base

variable {settings : Settings} {g : Graph} {α : Type} {c : BaseState} {reg : Register} {f : Formula}
  {rest : List (Slot × Formula)}

theorem claim_acts {d : Register} (hc : c.values.newestFirst = (.register d, f) :: rest)
    (hover : d.overlaps reg = true) : Acts (claim reg) c (some f) { c with values := ⟨rest⟩ } := by
  have claimed : c.values.claim? reg = some ⟨.register d, f, ⟨rest⟩⟩ := by
    unfold Pending.claim? Pending.takeFirst?
    simp [hc, Slot.overlaps, hover]
  refine .bind .client ?_
  rw [claimed]
  exact .bind (.modifyClient _) (.bind (.tellAll _) (.ok _))

theorem claimSite_acts {site : Site} (hc : c.values.newestFirst = (.site site, f) :: rest) :
    Acts (claimSite site) c (some f) { c with values := ⟨rest⟩ } := by
  have claimed : c.values.claimSite? site = some ⟨.site site, f, ⟨rest⟩⟩ := by
    unfold Pending.claimSite? Pending.takeFirst?
    simp [hc]
  refine .bind .client ?_
  rw [claimed]
  exact .bind (.modifyClient _) (.ok _)

theorem sliceStored_acts (hs : settings.strict = false) {u : Placed} {stored : Register}
    (hstored : u.op.stored? = some stored) {walk : Slicer.WalkFor BaseState} {c' : BaseState}
    (hw : Acts (walk ⟨u.block, u.index⟩ stored ⟨u.op.pc, 0⟩) c () c') :
    Acts ((slicer settings g).sliceStored walk u) c (some stored) c' := by
  have slice : Acts (do
      (slicer settings g).sliceWith walk ⟨u.block, u.index⟩ stored ⟨u.op.pc, 0⟩
      return some stored) c (some stored) c' := .bind (.bind (.ok ()) hw) (.ok _)
  unfold MicroOp.stored? at hstored
  unfold Slicer.sliceStored
  dsimp only
  split at hstored
  · next r hsources =>
    split at hstored
    · next free =>
      cases hstored
      rw [hsources]
      dsimp only
      rw [Option.isNone_iff_eq_none.mp free]
      dsimp only
      split
      · exact .bind (.report hs rfl) slice
      · exact slice
    · cases hstored
  · next hsources =>
    cases hstored
    rw [hsources]
    exact slice
  · cases hstored

section Reload

variable {bases : OperandTable} {b i j : Nat} {store load : MicroOp} {base : Formula}
  {stored target written : Register} {c' : BaseState}

theorem follow_acts_of_reloads (hs : settings.strict = false)
    (h : g.Reloads bases b i j store load base) (hstored : store.stored? = some stored)
    (hc : c.bases = bases) {k : Nat}
    (hw : Acts ((slicer settings g).walk g k ⟨b, i⟩ stored ⟨store.pc, 0⟩) c () c') :
    Acts ((slicer settings g).follow g (k + 1) ⟨b, j⟩ base) c (some stored) c' := by
  obtain ⟨block, hb, hi⟩ := Graph.op?_eq_some.mp h.store_at
  obtain ⟨block', hb', hj⟩ := Graph.op?_eq_some.mp h.load_at
  cases hb.symm.trans hb'
  have inside := (List.getElem?_eq_some_iff.mp hj).1
  refine .bind (.require hb) (.bind .client ?_)
  extract_lets bases' store?
  have found : store? = some (i, store, ()) := by
    have before := h.before
    have earlier : i < min j block.ops.length := by omega
    apply lastBefore?_eq earlier hi
    · change (if Slicer.storesTo c.bases base store then some () else none) = some ()
      simp [hc, h.stores]
    · intro k u hik hkj hu
      have other := h.last k u hik (lt_of_lt_of_le hkj (min_le_left _ _))
        (Graph.op?_eq_some.mpr ⟨block, hb, hu⟩)
      change (if Slicer.storesTo c.bases base u then some () else none) = none
      simp [hc, other]
  rw [found]
  exact .bind (.tell _) (sliceStored_acts hs hstored hw)

theorem resolveLoad_acts (hs : settings.strict = false) (follows : settings.followSpills = true)
    (h : g.Reloads bases b i j store load base) (hstored : store.stored? = some stored)
    (hc : c.bases = bases) {k : Nat} {d : Register}
    (hw : Acts ((slicer settings g).walk g k ⟨b, i⟩ stored ⟨store.pc, 0⟩) c () c')
    (hc' : c'.values.newestFirst = (.register d, f) :: rest) (hover : d.overlaps stored = true)
    (reg : Register) :
    Acts (resolveLoad settings ((slicer settings g).follow g (k + 1)) ⟨b, j, load⟩ reg) c ()
      { c' with values := ⟨(.site load.site, f) :: rest⟩ } := by
  have early : f.definedBefore 0 = false := by
    simp [Formula.definedBefore]
  rw [resolveLoad_eq]
  refine .bind .client ?_
  rw [hc, h.base_eq]
  dsimp only
  rw [if_pos follows]
  refine .bind (setStart_acts _ c) (.bind (follow_acts_of_reloads hs h hstored hc hw) ?_)
  refine .bind (claim_acts hc' hover) (.read fun w _ hstop => ?_)
  rw [hstop, early]
  exact .bind (.tell _) (.modifyClient _)

theorem define_acts (hs : settings.strict = false) (follows : settings.followSpills = true)
    (h : g.Reloads bases b i j store load base) (hstored : store.stored? = some stored)
    (hc : c.bases = bases) (unknown : c.definitions.get? load.site = none) {k : Nat} {d : Register}
    (hw : Acts ((slicer settings g).walk g k ⟨b, i⟩ stored ⟨store.pc, 0⟩) c () c')
    (unmet : c'.definitions.get? load.site = none)
    (hc' : c'.values.newestFirst = (.register d, f) :: rest) (hover : d.overlaps stored = true)
    (plain : f.overflow = false) (reg : Register) :
    Acts (define settings g (k + 1) ⟨b, j, load⟩ reg) c ()
      (recorded { c' with values := ⟨rest⟩ } load.site reg f) := by
  have hard : load.effect = .hard := by
    have notBranch : load.isBranch = false := by
      have kind := h.isLoad
      simp_all [MicroOp.isLoad, MicroOp.isBranch]
    simp [MicroOp.effect, notBranch, h.isLoad]
  have value : Acts (definitionValue settings g ⟨b, j, load⟩ reg)
      { c' with values := ⟨(.site load.site, f) :: rest⟩ } f { c' with values := ⟨rest⟩ } := by
    refine .bind (.classify load) ?_
    rw [hard]
    exact .bind (claimSite_acts rfl) (.ok f)
  have enter : Acts (enterOp settings ((slicer settings g).follow g (k + 1)) ⟨b, j, load⟩ reg) c false
      { c' with values := ⟨(.site load.site, f) :: rest⟩ } := by
    refine .read fun w hclient hstop => ?_
    rw [hclient, hstop, if_neg (by simp [Table.contains, unknown])]
    refine .bind (.classify load) ?_
    rw [hard]
    exact .bind (resolveLoad_acts hs follows h hstored hc hw hc' hover reg) (.ok false)
  refine .bind enter (leaveOp_acts_plain (u := ⟨b, j, load⟩) ?_ value plain)
  exact unmet

theorem walk_acts_of_reloads (hs : settings.strict = false) (follows : settings.followSpills = true)
    (h : g.Reloads bases b i j store load base) (hstored : store.stored? = some stored)
    (hc : c.bases = bases) (unknown : c.definitions.get? load.site = none)
    (hwritten : load.defines? target = some written) {k : Nat} {d : Register}
    (hw : Acts ((slicer settings g).walk g k ⟨b, i⟩ stored ⟨store.pc, 0⟩) c () c')
    (unmet : c'.definitions.get? load.site = none)
    (hc' : c'.values.newestFirst = (.register d, f) :: rest) (hover : d.overlaps stored = true)
    (plain : f.overflow = false) {bounds : Bounds} (hbounds : bounds.stop = 0) :
    Acts ((slicer settings g).walk g (k + 2) ⟨b, j + 1⟩ target bounds) c ()
      (recorded { c' with values := ⟨rest⟩ } load.site written f) := by
  obtain ⟨block, hb, hj⟩ := Graph.op?_eq_some.mp h.load_at
  have inside := (List.getElem?_eq_some_iff.mp hj).1
  have found : block.definition? (j + 1) target = some (j, load, written) := by
    apply lastBefore?_eq (by omega) hj hwritten
    intro k u hjk hk
    omega
  refine .bind (setBounds_acts hbounds c) (.bind (.require hb) ?_)
  rw [found]
  refine .bind (.tell _) ?_
  exact define_acts hs follows h hstored hc unknown hw unmet hc' hover plain written

end Reload

theorem Acts.of_slice {p : Position} {bounds : Bounds} {c' : BaseState} (hdepth : 0 < settings.depth)
    (h : Acts (do slice settings g p reg bounds; claim reg) c (some f) c') {w : Walk BaseState}
    (hw : w.client = c) :
    ∃ t, (do slice settings g p reg bounds; claim reg).run w = .ok (some f) t := by
  have unbound : (do slice settings g p reg bounds; claim reg).run w =
      (do slice settings g p reg bounds; claim reg).run { w with bounds := {} } := by
    obtain ⟨k, hk⟩ : ∃ k, settings.depth = k + 1 := ⟨settings.depth - 1, by omega⟩
    unfold slice
    rw [hk]
    rfl
  rw [unbound]
  have result := h { w with bounds := {} } hw rfl
  unfold wp at result
  split at result
  · next t run =>
    rw [← result.1]
    exact ⟨t, run⟩
  · exact result.elim

/-- What is loaded from the address of the last store is what the stored register is at the store,
unless some micro-op before the store has the address and the place of the load. -/
theorem slice_reload (hs : settings.strict = false) (follows : settings.followSpills = true)
    (hg : g.Built) (ha : g.ForwardAcyclic) (hdepth : g.placeBound ≤ settings.depth)
    {bases : OperandTable} {b i j : Nat} {store load : MicroOp} {base : Formula}
    (h : g.Reloads bases b i j store load base) {stored : Register}
    (hstored : store.stored? = some stored) (bit : stored.overlaps stored = true) {target : Register}
    (hload : (load.defines? target).isSome = true) (spared : g.Spares load.site ⟨b, i⟩)
    {w w' : Walk BaseState} (hw : w.client = { bases }) (hw' : w'.client = { bases })
    (start start' : Nat) :
    ∃ f t t',
      (do slice settings g ⟨b, j + 1⟩ target ⟨start, 0⟩; claim target).run w = .ok (some f) t ∧
      (do slice settings g ⟨b, i⟩ stored ⟨start', 0⟩; claim stored).run w' = .ok (some f) t' := by
  obtain ⟨written, hwritten⟩ := Option.isSome_iff_exists.mp hload
  obtain ⟨block, hb, hj⟩ := Graph.op?_eq_some.mp h.load_at
  have inside := (List.getElem?_eq_some_iff.mp hj).1
  have length := Graph.length_le_opCount hb
  have light : g.weight b (j + 1) < g.placeBound := Graph.weight_lt_placeBound b (by omega)
  have ahead : g.weight b i < g.weight b j := Graph.weight_lt_of_lt h.before
  have behind : g.weight b j < g.weight b (j + 1) := Graph.weight_lt_of_lt (Nat.lt_succ_self j)
  obtain ⟨k, hk⟩ : ∃ k, settings.depth = k + 2 := ⟨settings.depth - 2, by omega⟩
  have fresh : Settled { bases } := fun _ _ known => nomatch known
  obtain ⟨c', walk, keeps, topped⟩ := (walks_and_follows_act hs hg.wellFormed ha settings.depth ⟨b, i⟩
    (List.getElem?_eq_some_iff.mp hb).1 (by dsimp only; omega)).1 stored { bases } fresh
  obtain ⟨d, f, rest, values, hover, plain⟩ := topped bit
  have unmet : c'.definitions.get? load.site = none := keeps.spared load.site spared
  have atStore : Acts (do slice settings g ⟨b, i⟩ stored ⟨start', 0⟩; claim stored) { bases }
      (some f) { c' with values := ⟨rest⟩ } := by
    refine .bind (.bind (.ok ()) (walk _ _ ?_ rfl)) (claim_acts values hover)
    dsimp only
    omega
  have atLoad : Acts (do slice settings g ⟨b, j + 1⟩ target ⟨start, 0⟩; claim target) { bases }
      (some f) { (recorded { c' with values := ⟨rest⟩ } load.site written f) with values := ⟨rest⟩ } := by
    have reload := walk_acts_of_reloads hs follows h hstored rfl rfl hwritten
      (walk k ⟨store.pc, 0⟩ (by dsimp only; omega) rfl) unmet values hover plain
      (show (⟨start, 0⟩ : Bounds).stop = 0 from rfl)
    have overlaps := (MicroOp.defines?_eq_some hwritten).2
    rw [← hk] at reload
    refine .bind (.bind (.ok ()) reload) (claim_acts ?_ overlaps)
    simp [recorded, Pending.push, Register.isAbsent_of_overlaps overlaps]
  obtain ⟨t, ht⟩ := atLoad.of_slice (by omega) hw
  obtain ⟨t', ht'⟩ := atStore.of_slice (by omega) hw'
  exact ⟨f, t, t', ht, ht'⟩

section Routines

def stackTop : Operand := .memory { base := some ⟨.listed 28, 0, 63⟩ }

def spill (pc : Nat) (r : Register) : MicroOp :=
  { pc, kind := .store, operation := .mov, sources := [.register r], destinations := [stackTop] }

def refill (pc : Nat) (r : Register) : MicroOp :=
  { pc, kind := .load, operation := .mov, sources := [stackTop], destinations := [.register r] }

def bothAt64 (pc pc' : Nat) : OperandTable :=
  (OperandTable.setBase {} ⟨pc, 0⟩ (.constant 64)).setBase ⟨pc', 0⟩ (.constant 64)

def spillRefill : Graph :=
  let rax : Register := ⟨.listed 0, 0, 63⟩
  let rbx : Register := ⟨.listed 4, 0, 63⟩
  let first : MicroOp :=
    { pc := 0x10, kind := .move, operation := .mov, sources := [.immediate 1],
      destinations := [.register rax] }
  let next : MicroOp :=
    { pc := 0x14, kind := .alu, operation := .add, sources := [.register rax, .immediate 4],
      destinations := [.register rbx] }
  ((({} : Graph).addBlock 0 0 [first]).addBlock 1 0
    [next, spill 0x18 rbx, spill 0x1c rax, refill 0x20 rbx]).addEdge 0 1 false

theorem slice_reload_spillRefill :
    let rbx : Register := ⟨.listed 4, 0, 63⟩
    let w : Walk BaseState := { client := { bases := bothAt64 0x18 0x20 } }
    ∃ f t t',
      (do slice {} spillRefill ⟨1, 3 + 1⟩ rbx ⟨0, 0⟩; claim rbx).run w = .ok (some f) t ∧
      (do slice {} spillRefill ⟨1, 1⟩ rbx ⟨0, 0⟩; claim rbx).run w = .ok (some f) t' := by
  have built : spillRefill.Built := .addEdge _ (by decide) (by decide) <|
    .addBlock _ _ _ (.addBlock _ _ _ (.empty ""))
  have acyclic : spillRefill.ForwardAcyclic := Graph.forwardAcyclic_of_ranks id (by decide)
  have distinct : spillRefill.DistinctSites := Graph.distinctSites_of_nodup (by decide)
  have reloads : spillRefill.Reloads (bothAt64 0x18 0x20) 1 1 3 (spill 0x18 ⟨.listed 4, 0, 63⟩)
      (refill 0x20 ⟨.listed 4, 0, 63⟩) (.constant 64) := by
    refine ⟨by decide, rfl, rfl, rfl, by decide +kernel, by decide +kernel, ?_⟩
    intro k u hik hkj hu
    obtain rfl : k = 2 := by omega
    cases hu
    decide +kernel
  exact slice_reload rfl rfl built acyclic (by decide) reloads rfl (by decide) (by decide)
    (Graph.spares_of_distinctSites distinct acyclic reloads.load_at (by decide)) rfl rfl 0 0

def reusedAddress : Graph :=
  let rax : Register := ⟨.listed 0, 0, 63⟩
  let rbx : Register := ⟨.listed 4, 0, 63⟩
  let rcx : Register := ⟨.listed 8, 0, 63⟩
  let first : MicroOp :=
    { pc := 0x18, kind := .move, operation := .mov, sources := [.immediate 5],
      destinations := [.register rcx] }
  let next : MicroOp :=
    { pc := 0x10, kind := .alu, operation := .add, sources := [.register rcx, .immediate 1],
      destinations := [.register rbx] }
  (({} : Graph).addBlock 0 0 [first, next, spill 0x14 rbx, refill 0x18 rax]).setEntry 0

def narrowSpill : Graph :=
  (({} : Graph).addBlock 0 0
    [spill 0x14 ⟨.listed 1, 0, 31⟩, refill 0x18 ⟨.listed 4, 0, 63⟩]).setEntry 0

/-- Where a micro-op before the store has the address of the load, its value is taken for that of the
load. And a part of a register is not what is found under the name of the part. -/
theorem slice_not_reload :
    let rax : Register := ⟨.listed 0, 0, 63⟩
    let rbx : Register := ⟨.listed 4, 0, 63⟩
    let eax : Register := ⟨.listed 1, 0, 31⟩
    let w : Walk BaseState := { client := { bases := bothAt64 0x14 0x18 } }
    (reusedAddress.Built ∧ reusedAddress.ForwardAcyclic ∧
      reusedAddress.Reloads (bothAt64 0x14 0x18) 0 2 3 (spill 0x14 rbx) (refill 0x18 rax)
        (.constant 64) ∧
      answer? (do slice {} reusedAddress ⟨0, 4⟩ rax ⟨0, 0⟩; claim rax) w =
        some (some (.constant 5)) ∧
      answer? (do slice {} reusedAddress ⟨0, 2⟩ rbx ⟨0, 0⟩; claim rbx) w =
        some (some (.constant 6))) ∧
    narrowSpill.Built ∧ narrowSpill.ForwardAcyclic ∧
      narrowSpill.Reloads (bothAt64 0x14 0x18) 0 0 1 (spill 0x14 eax) (refill 0x18 rbx)
        (.constant 64) ∧
      answer? (do slice {} narrowSpill ⟨0, 2⟩ rbx ⟨0, 0⟩; claim rbx) w =
        some (some (.register ⟨0x14, 0⟩ eax.canonical)) ∧
      answer? (do slice {} narrowSpill ⟨0, 0⟩ eax ⟨0, 0⟩; claim eax) w =
        some (some (.register ⟨0x14, 0⟩ eax)) := by
  have built (ops : List MicroOp) : ((({} : Graph).addBlock 0 0 ops).setEntry 0).Built :=
    .setEntry 0 (.addBlock _ _ _ (.empty ""))
  refine ⟨⟨built _, Graph.forwardAcyclic_of_ranks id (by decide), ?_, by decide +kernel,
      by decide +kernel⟩,
    built _, Graph.forwardAcyclic_of_ranks id (by decide), ?_, by decide +kernel, by decide +kernel⟩
  · exact ⟨by decide, rfl, rfl, rfl, by decide +kernel, by decide +kernel, by omega⟩
  · exact ⟨by decide, rfl, rfl, rfl, by decide +kernel, by decide +kernel, by omega⟩

end Routines

end Base

end AddressFormulas
