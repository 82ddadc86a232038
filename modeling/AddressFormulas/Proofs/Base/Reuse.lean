import AddressFormulas.Proofs.Base.Edges
import AddressFormulas.Proofs.Base.Recall

namespace AddressFormulas

open WalkM

namespace Base

variable {settings : Settings} {g : Graph} {bases : OperandTable} {α β : Type} {n : Nat}
  {top : List (Slot × Formula)}

section Steps

variable (hs : settings.strict = false) {u : Placed}

def pushed (reg : Register) (f : Formula) : List (Slot × Formula) :=
  if reg.isAbsent then [] else [(.register reg, f)]

theorem push_brings (reg : Register) (f : Formula) :
    Brings settings g bases n (push reg f) [] (pushed reg f) () := by
  unfold pushed
  split
  · next hr =>
    intro vs w hw
    refine ⟨rfl, ⟨?_, hw.table, hw.stop, hw.known⟩, fun _ _ _ => rfl⟩
    change (w.client.values.push reg f).newestFirst = _
    rw [Pending.push, if_pos hr]
    exact hw.values
  · next hr => exact .push (by simpa using hr) f

theorem enterBlock_brings {b : Nat} {block : Block} (hb : g.block? b = some block) (reg : Register) :
    ∃ f enter, Brings settings g bases n (enterBlock g b reg) []
      (if enter then [] else pushed reg f) enter := by
  have entered : ∀ {f enter}, Brings settings g bases n (do
      let stop := (← get).bounds.stop
      if block.start ≤ stop then
        push reg (.register ⟨stop, 0⟩ reg)
        return false
      if block.isEntry then
        push reg (.register ⟨block.start, 0⟩ reg)
        return false
      return true) [] (if enter then [] else pushed reg f) enter →
    Brings settings g bases n (enterBlock g b reg) [] (if enter then [] else pushed reg f) enter := by
    intro f enter h
    unfold enterBlock
    rw [hb]
    exact h
  by_cases hstart : block.start ≤ 0
  · refine ⟨.register ⟨0, 0⟩ reg, false, entered (.read fun w hw => ?_)⟩
    rw [hw]
    dsimp only
    rw [if_pos hstart]
    exact .bind (push_brings _ _) (.ok _)
  · by_cases hentry : block.isEntry = true
    · refine ⟨.register ⟨block.start, 0⟩ reg, false, entered (.read fun w hw => ?_)⟩
      rw [hw]
      dsimp only
      rw [if_neg hstart, if_pos hentry]
      exact .bind (push_brings _ _) (.ok _)
    · refine ⟨.zero, true, entered (.read fun w hw => ?_)⟩
      rw [hw]
      dsimp only
      rw [if_neg hstart, if_neg hentry]
      exact .ok _

theorem leaveBlock_brings {b : Nat} {block : Block} (hb : g.block? b = some block) (reg : Register) :
    Brings settings g bases n (leaveBlock g b reg) [] (pushed reg (.register ⟨block.start, 0⟩ reg)) () := by
  unfold leaveBlock
  rw [hb]
  exact push_brings _ _

theorem overlaps_temporary (i width : Nat) :
    (Register.temporary i width).overlaps (.temporary i width) = true := by
  simp [Register.overlaps, Register.temporary, Register.isAbsent, Register.cls, RegisterName.cls]

include hs in
theorem sliceStored_brings (hu : g.op? u.block u.index = some u.op) (hstore : u.op.isStore = true)
    (hw : WalksBring settings g bases ⟨u.block, u.index⟩) :
    ∃ found?, ∀ k, g.weight u.block u.index < k → Brings settings g bases (g.weight u.block u.index)
        ((slicer settings g).sliceStored ((slicer settings g).walk g k) u) []
        (Spill.pending found?) (found?.map Spill.asked) := by
  have stored : ∀ {o r}, u.op.sources = [o] → u.op.operandRegister? o = some r →
      r.canonical ∈ g.asked := by
    intro o r hsources hr
    refine Graph.mem_asked hu (List.mem_append_left _ ?_)
    rw [if_pos hstore, MicroOp.sourceRegisters, hsources]
    cases o with
    | memory m => cases hr
    | _ => simp [hr]
  have carrier : ∀ v : Int, ∃ found?, Brings settings g bases (g.weight u.block u.index) (do
        push (.temporary Slicer.storedConstant u.op.width) (.constant v)
        return some (.temporary Slicer.storedConstant u.op.width)) []
        (Spill.pending found?) (found?.map Spill.asked) := by
    intro v
    have itself := overlaps_temporary Slicer.storedConstant u.op.width
    refine ⟨some ⟨_, _, .constant v, itself⟩, .bind (.push ?_ _) (.ok _)⟩
    exact Register.isAbsent_of_overlaps itself
  have slice : ∀ r ∈ g.asked, ∃ found?, ∀ k, g.weight u.block u.index < k →
      Brings settings g bases (g.weight u.block u.index) (do
        (slicer settings g).sliceWith ((slicer settings g).walk g k) ⟨u.block, u.index⟩ r ⟨u.op.pc, 0⟩
        return some r) []
        (Spill.pending found?) (found?.map Spill.asked) := by
    intro r hr
    obtain ⟨d, f, hover, walk⟩ := hw r hr
    refine ⟨some ⟨r, d, f, hover⟩, fun k hk => ?_⟩
    exact .bind (.bind (.ok ()) (walk k _ hk rfl)) (.ok _)
  unfold Slicer.sliceStored
  dsimp only
  -- only a store of one operand is followed, and the operand decides what is put
  cases hsources : u.op.sources with
  | nil => exact ⟨none, fun k _ => .bind (.report hs rfl) (.ok _)⟩
  | cons o rest =>
    cases rest with
    | cons o' rest =>
      refine ⟨none, fun k _ => ?_⟩
      cases o <;> exact .bind (.report hs rfl) (.ok _)
    | nil =>
      cases o with
      | temporary i => exact slice _ (stored hsources rfl)
      | immediate v =>
        obtain ⟨found?, put⟩ := carrier v
        exact ⟨found?, fun _ _ => put⟩
      | memory m => exact ⟨none, fun k _ => .bind (.report hs rfl) (.ok _)⟩
      | register r =>
        dsimp only
        cases hv : u.op.hardwired? r.canonical with
        | some v =>
          obtain ⟨found?, put⟩ := carrier v
          exact ⟨found?, fun _ _ => put⟩
        | none =>
          obtain ⟨found?, put⟩ := slice r.canonical (stored hsources rfl)
          refine ⟨found?, fun k hk => ?_⟩
          dsimp only
          split
          · exact .bind (.report hs rfl) (put k hk)
          · exact put k hk

section Edges

variable {p : Position} (hp : p.block < g.blocks.length)
  (earlier : ∀ q : Position, q.block < g.blocks.length →
    g.weight q.block q.before < g.weight p.block p.before →
      WalksBring settings g bases q ∧ FollowsBring settings g bases q)

include earlier in
theorem walkEdges_brings (hg : g.Orderly) (hwf : g.WellFormed) (ha : g.ForwardAcyclic) {block : Block}
    (hb : g.block? p.block = some block) {reg : Register} (hreg : reg ∈ g.asked) {edges : List Nat}
    (hedges : ∀ e ∈ edges, ∃ edge, g.edge? e = some edge ∧ edge.sink = p.block) :
    ∃ d f, d.overlaps reg = true ∧ ∀ k, g.weight p.block p.before ≤ k →
      Brings settings g bases (g.weight p.block p.before)
        ((slicer settings g).walkEdges g ((slicer settings g).walk g k) p.block reg edges) []
        [(.register d, f)] () := by
  obtain taken | ⟨e, edge, source, he, hsource, forward, taken⟩ := edgeTaken_cases settings hwf hedges
  · have itself := hg.bits reg hreg
    refine ⟨reg, .register ⟨block.start, 0⟩ reg, itself, fun k _ => ?_⟩
    have leave : Brings settings g bases (g.weight p.block p.before) (leaveBlock g p.block reg) []
        (pushed reg (.register ⟨block.start, 0⟩ reg)) () := leaveBlock_brings hb reg
    rw [pushed, if_neg (by simp [Register.isAbsent_of_overlaps itself])] at leave
    exact leave.congr fun w hw => taken.walkEdges hw _ _ reg
  · have lighter := Graph.weight_lt_of_forward ha hsource forward p.before
    obtain ⟨d, f, hover, walk⟩ :=
      (earlier ⟨edge.source, source.ops.length⟩ (hwf.source_lt e edge he) lighter).1 reg hreg
    refine ⟨d, f, hover, fun k hk => ?_⟩
    have across : Brings settings g bases (g.weight p.block p.before)
        (Slicer.walkAcross g ((slicer settings g).walk g k) e reg) [] [(.register d, f)] () := by
      unfold Slicer.walkAcross
      rw [he]
      change Brings settings g bases _ (WalkM.require (g.block? edge.source) >>= _) _ _ _
      rw [hsource]
      refine .bind (.ok _) (.read fun w hstop => ?_)
      exact (walk k w.bounds (lighter.trans_le hk) hstop).weaken lighter.le
    exact across.congr fun w hw => taken.walkEdges hw _ _ reg

include earlier in
theorem followEdges_brings (hwf : g.WellFormed) (ha : g.ForwardAcyclic) {block : Block}
    (hb : g.block? p.block = some block) (address : Formula) {edges : List Nat}
    (hedges : ∀ e ∈ edges, ∃ edge, g.edge? e = some edge ∧ edge.sink = p.block) :
    ∃ found?, ∀ k, g.weight p.block p.before ≤ k → Brings settings g bases (g.weight p.block p.before)
        ((slicer settings g).followEdges g ((slicer settings g).follow g k) p.block address edges) []
        (Spill.pending found?) (found?.map Spill.asked) := by
  obtain taken | ⟨e, edge, source, he, hsource, forward, taken⟩ := edgeTaken_cases settings hwf hedges
  · refine ⟨none, fun k _ => ?_⟩
    have leave : Brings settings g bases (g.weight p.block p.before) (leaveBlock g p.block .absent) []
        [] () := leaveBlock_brings hb .absent
    have nothing : Brings settings g bases (g.weight p.block p.before)
        (leaveBlock g p.block .absent >>= fun _ => pure none) [] (Spill.pending none)
        ((none : Option Spill).map Spill.asked) := .bind leave (.ok none)
    exact nothing.congr fun w hw => taken.followEdges hw _ _ address
  · have lighter := Graph.weight_lt_of_forward ha hsource forward p.before
    obtain ⟨found?, follow⟩ :=
      (earlier ⟨edge.source, source.ops.length⟩ (hwf.source_lt e edge he) lighter).2 address
    refine ⟨found?, fun k hk => ?_⟩
    have across : Brings settings g bases (g.weight p.block p.before)
        (Slicer.followAcross g ((slicer settings g).follow g k) e address) []
        (Spill.pending found?) (found?.map Spill.asked) := by
      unfold Slicer.followAcross
      rw [he]
      change Brings settings g bases _ (WalkM.require (g.block? edge.source) >>= _) _ _ _
      rw [hsource]
      exact .bind (.ok _) ((follow k (lighter.trans_le hk)).weaken lighter.le)
    exact across.congr fun w hw => taken.followEdges hw _ _ address

include earlier in
theorem walkNext_brings (hg : g.Orderly) (hwf : g.WellFormed) (ha : g.ForwardAcyclic) {block : Block}
    (hb : g.block? p.block = some block) {reg : Register} (hreg : reg ∈ g.asked) :
    ∃ d f, d.overlaps reg = true ∧ ∀ k, g.weight p.block p.before ≤ k →
      Brings settings g bases (g.weight p.block p.before)
        ((slicer settings g).walkNext g ((slicer settings g).walk g k) p.block reg) []
        [(.register d, f)] () := by
  obtain ⟨f, enter, entered⟩ : ∃ f enter, Brings settings g bases (g.weight p.block p.before)
    (enterBlock g p.block reg) [] (if enter then [] else pushed reg f) enter :=
    enterBlock_brings hb reg
  unfold Slicer.walkNext
  rw [hb]
  cases enter with
  | false =>
    have itself := hg.bits reg hreg
    have put : pushed reg f = [(.register reg, f)] :=
      if_neg (by simp [Register.isAbsent_of_overlaps itself])
    refine ⟨reg, f, itself, fun k _ => ?_⟩
    rw [← put]
    exact .bind entered (.ok ())
  | true =>
    obtain ⟨d, f, hover, edges⟩ := walkEdges_brings earlier hg hwf ha hb hreg
      fun e he => hwf.mem_incoming hb ((mem_sortBy _ e _).mp he)
    exact ⟨d, f, hover, fun k hk => .bind entered (edges k hk)⟩

include hp earlier in
theorem walk_brings (hs : settings.strict = false) (hwf : g.WellFormed) (ha : g.ForwardAcyclic)
    (hd : g.DistinctSites) (hg : g.Orderly) : WalksBring settings g bases p := by
  intro reg hreg
  have hb : g.block? p.block = some g.blocks[p.block] := List.getElem?_eq_getElem hp
  cases hdef : g.blocks[p.block].definition? p.before reg with
  | some found =>
    obtain ⟨i, op, written⟩ := found
    obtain ⟨hi, hop, hdefines, _⟩ := Block.definition?_eq_some hb hdef
    have lighter : g.weight p.block i < g.weight p.block p.before := Graph.weight_lt_of_lt hi
    obtain ⟨hw, hf⟩ := earlier ⟨p.block, i⟩ hp lighter
    obtain ⟨f, define⟩ := define_brings hs hg hd (u := ⟨p.block, i, op⟩) hop ⟨reg, hreg, hdefines⟩ hw hf
    refine ⟨written, f, (MicroOp.defines?_eq_some hdefines).2, fun k bounds hk hbounds => ?_⟩
    obtain ⟨k, rfl⟩ : ∃ j, k = j + 1 := ⟨k - 1, by omega⟩
    refine .bind (.setBounds hbounds) ?_
    rw [hb]
    refine .bind (.ok _) ?_
    rw [hdef]
    refine .bind (.of_turns (.tell _)) ?_
    exact (define k (by dsimp only; omega)).weaken (by dsimp only; omega)
  | none =>
    obtain ⟨d, f, hover, next⟩ := walkNext_brings earlier hg hwf ha hb hreg
    refine ⟨d, f, hover, fun k bounds hk hbounds => ?_⟩
    obtain ⟨k, rfl⟩ : ∃ j, k = j + 1 := ⟨k - 1, by omega⟩
    refine .bind (.setBounds hbounds) ?_
    rw [hb]
    refine .bind (.ok _) ?_
    rw [hdef]
    exact next k (by omega)

include hp earlier in
theorem follow_brings (hs : settings.strict = false) (hwf : g.WellFormed) (ha : g.ForwardAcyclic) :
    FollowsBring settings g bases p := by
  intro address
  have hb : g.block? p.block = some g.blocks[p.block] := List.getElem?_eq_getElem hp
  cases hstore : lastBefore? g.blocks[p.block].ops
      (fun u => if Slicer.storesTo bases address u then some () else none)
      (min p.before g.blocks[p.block].ops.length) with
  | some found =>
    obtain ⟨i, op, _⟩ := found
    obtain ⟨hi, hop, hmatch, _⟩ := lastBefore?_eq_some hstore
    have store : op.isStore = true := by
      by_contra hno
      simp [Slicer.storesTo, hno] at hmatch
    have lighter : g.weight p.block i < g.weight p.block p.before := Graph.weight_lt_of_lt (by omega)
    obtain ⟨found?, put⟩ := sliceStored_brings hs (u := ⟨p.block, i, op⟩)
      (Graph.op?_eq_some.mpr ⟨_, hb, hop⟩) store (earlier ⟨p.block, i⟩ hp lighter).1
    refine ⟨found?, fun k hk => ?_⟩
    obtain ⟨k, rfl⟩ : ∃ j, k = j + 1 := ⟨k - 1, by omega⟩
    change Brings settings g bases _ (WalkM.require (g.block? p.block) >>= _) _ _ _
    rw [hb]
    refine .bind (.ok _) (.client fun st hst => ?_)
    have same : (slicer settings g).bases st = bases := hst
    dsimp only
    rw [same, hstore]
    refine .bind (.of_turns (.tell _)) ?_
    exact (put k (by dsimp only; omega)).weaken (by dsimp only; omega)
  -- no store in the block: the search leaves it or goes on along the incoming edges
  | none =>
    obtain ⟨f, enter, entered⟩ : ∃ f enter, Brings settings g bases (g.weight p.block p.before)
      (enterBlock g p.block .absent) [] (if enter then [] else pushed .absent f) enter :=
      enterBlock_brings hb .absent
    have next : ∃ found?, ∀ k, g.weight p.block p.before ≤ k →
        Brings settings g bases (g.weight p.block p.before) (do
          if ← enterBlock g p.block .absent then
            (slicer settings g).followEdges g ((slicer settings g).follow g k) p.block address
              g.blocks[p.block].incoming
          else return none) []
          (Spill.pending found?) (found?.map Spill.asked) := by
      cases enter with
      | false => exact ⟨none, fun k _ => .bind entered (.ok none)⟩
      | true =>
        obtain ⟨found?, edges⟩ := followEdges_brings earlier hwf ha hb address
          fun e he => hwf.mem_incoming hb he
        exact ⟨found?, fun k hk => .bind entered (edges k hk)⟩
    obtain ⟨found?, next⟩ := next
    refine ⟨found?, fun k hk => ?_⟩
    obtain ⟨k, rfl⟩ : ∃ j, k = j + 1 := ⟨k - 1, by omega⟩
    change Brings settings g bases _ (WalkM.require (g.block? p.block) >>= _) _ _ _
    rw [hb]
    refine .bind (.ok _) (.client fun st hst => ?_)
    have same : (slicer settings g).bases st = bases := hst
    dsimp only
    rw [same, hstore]
    exact next k (by omega)

end Edges

include hs in
/-- Walks and searches for stores bring the same, whatever is known and pending. -/
theorem walks_and_follows_bring (hwf : g.WellFormed) (ha : g.ForwardAcyclic) (hd : g.DistinctSites)
    (hg : g.Orderly) (n : Nat) (p : Position) (hp : p.block < g.blocks.length)
    (hn : g.weight p.block p.before < n) :
    WalksBring settings g bases p ∧ FollowsBring settings g bases p := by
  induction n generalizing p with
  | zero => omega
  | succ n ih =>
    have earlier : ∀ q : Position, q.block < g.blocks.length →
        g.weight q.block q.before < g.weight p.block p.before →
        WalksBring settings g bases q ∧ FollowsBring settings g bases q :=
      fun q hq hlt => ih q hq (by omega)
    exact ⟨walk_brings hp earlier hs hwf ha hd hg, follow_brings hp earlier hs hwf ha⟩

end Steps

def Reusable (settings : Settings) (g : Graph) (bases : OperandTable) (w : Walk BaseState) : Prop :=
  ∃ vs, Holding settings g bases vs w

def Repeats (settings : Settings) (g : Graph) (bases : OperandTable) (m : M α) (a : α) : Prop :=
  ∀ w, Reusable settings g bases w →
    wp m (fun a' w' => a' = a ∧ Reusable settings g bases w') (fun _ _ => False) w

namespace Repeats

theorem bind {m : M α} {f : α → M β} {a : α} {b : β} (hm : Repeats settings g bases m a)
    (hf : Repeats settings g bases (f a) b) : Repeats settings g bases (m >>= f) b := by
  intro w hw
  refine wp_bind.mpr (wp_imp (hm w hw) ?_)
  rintro _ w' ⟨rfl, hw'⟩
  exact hf w' hw'

theorem of_brings {m : M α} {a : α} (h : Brings settings g bases n m [] top a) :
    Repeats settings g bases m a := by
  rintro w ⟨vs, hw⟩
  refine wp_imp (h vs w hw) ?_
  rintro _ w' ⟨rfl, hw', _⟩
  exact ⟨rfl, _, hw'⟩

end Repeats

def stateAfter (m : M α) (w : Walk BaseState) : Walk BaseState :=
  match m.run w with
  | .ok _ t => t
  | .error _ t => t

theorem stateAfter_of_wp {m : M α} {w : Walk BaseState} {P : Walk BaseState → Prop}
    (h : wp m (fun _ => P) (fun _ => P) w) : P (stateAfter m w) := by
  unfold wp at h
  unfold stateAfter EStateM.run
  cases run : m w with
  | ok a t => rwa [run] at h
  | error stop t => rwa [run] at h

section Addresses

variable (hs : settings.strict = false) (hwf : g.WellFormed) (ha : g.ForwardAcyclic)
  (hd : g.DistinctSites) (hg : g.Orderly) (hdepth : g.placeBound ≤ settings.depth) {u : Placed}
  (hu : g.op? u.block u.index = some u.op)

include hs hwf ha hd hg hdepth hu

theorem addressRegister_repeats {reg : Register} (hreg : reg ∈ g.asked) :
    ∃ f?, Repeats settings g bases (addressRegister settings g u reg) f? := by
  unfold addressRegister
  cases u.op.hardwired? reg with
  | some v => exact ⟨_, .of_brings (n := 0) (.ok _)⟩
  | none =>
    obtain ⟨block, hb, _⟩ := Graph.op?_eq_some.mp hu
    have inside : u.block < g.blocks.length := (List.getElem?_eq_some_iff.mp hb).1
    have light : g.weight u.block u.index < settings.depth := (weight_lt_of_op? hu).trans_le hdepth
    obtain ⟨d, f, hover, walk⟩ :=
      (walks_and_follows_bring hs hwf ha hd hg settings.depth ⟨u.block, u.index⟩ inside light).1 reg hreg
    refine ⟨some f, ?_⟩
    rintro w ⟨vs, hw⟩
    have cleared : Holding settings g bases [] { w with client := { w.client with values := {} } } :=
      ⟨rfl, hw.table, hw.stop, hw.known⟩
    have claimed : Brings settings g bases (g.weight u.block u.index) (do
        slice settings g ⟨u.block, u.index⟩ reg ⟨u.op.pc, 0⟩
        claim reg) [] [] (some f) :=
      .bind (.bind (.ok ()) (walk settings.depth _ light rfl)) (.of_turns (.claim_one hover f))
    refine wp_imp (claimed [] _ cleared) ?_
    rintro _ w' ⟨rfl, hw', _⟩
    exact ⟨rfl, _, hw'⟩

theorem addressTerms_repeats {terms : List (TermKey × Term)}
    (hterms : ∀ e ∈ terms, ∀ site reg, e.1 = .register site reg → reg ∈ g.asked) (sum : Formula) :
    ∃ f, Repeats settings g bases (addressTerms settings g u terms sum) f := by
  induction terms generalizing sum with
  | nil => exact ⟨sum, .of_brings (n := 0) (.ok _)⟩
  | cons e rest ih =>
    have rest' := ih fun e he => hterms e (List.mem_cons_of_mem _ he)
    obtain ⟨key, t⟩ := e
    unfold addressTerms
    dsimp only
    cases key with
    | register site reg =>
      obtain ⟨f?, value⟩ : ∃ f?, Repeats settings g bases (addressRegister settings g u reg) f? :=
        addressRegister_repeats hs hwf ha hd hg hdepth hu (hterms _ List.mem_cons_self site reg rfl)
      cases f? with
      | none =>
        obtain ⟨f, hf⟩ := rest' (sum.addTerm (.register site reg) t.coeff t.origin)
        exact ⟨f, .bind value hf⟩
      | some s =>
        have continued : ∃ f, Repeats settings g bases (
            let sum' := sum + s.scale t.coeff
            if sum'.overflow then do
              WalkM.tell (.addressOverflow u.op.pc reg)
              addressTerms settings g u rest (sum.addTerm (.register site reg) t.coeff t.origin)
            else addressTerms settings g u rest sum') f := by
          dsimp only
          split
          · obtain ⟨f', hf'⟩ := rest' (sum.addTerm (.register site reg) t.coeff t.origin)
            exact ⟨f', .bind (.of_brings (n := 0) (.of_turns (.tell _))) hf'⟩
          · exact rest' _
        obtain ⟨f, hf⟩ := continued
        exact ⟨f, .bind value hf⟩
    | _ => exact rest' _

omit hu

theorem address_repeats {b index : Nat} {op : MicroOp} (hop : g.op? b index = some op) {opidx : Int}
    {m : MemoryOperand} (hm : op.memoryOperands.find? (·.opidx = opidx) = some m) :
    ∃ f, Repeats settings g bases (address settings g b index opidx) f := by
  obtain ⟨block, hb, hi⟩ := Graph.op?_eq_some.mp hop
  have registers : ∀ e ∈ (op.addressFormula m).terms.entries, ∀ site reg,
      e.1 = .register site reg → reg ∈ g.asked := by
    intro e he site reg hkey
    obtain ⟨_, r, hr, rfl⟩ := key_of_mem_addressFormula he hkey
    refine Graph.mem_asked hop (List.mem_append_right _ ?_)
    refine List.mem_flatMap.mpr ⟨m, List.mem_of_find?_eq_some hm, List.mem_map_of_mem ?_⟩
    simpa using hr
  obtain ⟨f, hf⟩ : ∃ f, Repeats settings g bases (addressTerms settings g ⟨b, index, op⟩
      (op.addressFormula m).terms.entries .zero) f :=
    addressTerms_repeats hs hwf ha hd hg hdepth hop registers .zero
  refine ⟨f, ?_⟩
  unfold address
  rw [hb]
  refine .bind (.of_brings (n := 0) (.ok _)) ?_
  rw [hi]
  refine .bind (.of_brings (n := 0) (.ok _)) ?_
  rw [hm]
  refine .bind hf (.bind (.of_brings (n := 0) (.of_turns (.tell _))) ?_)
  exact .of_brings (n := 0) (.ok _)

theorem reusable_stateAfter (b index : Nat) (opidx : Int) {w : Walk BaseState}
    (hw : Reusable settings g bases w) :
    Reusable settings g bases (stateAfter (address settings g b index opidx) w) := by
  apply stateAfter_of_wp
  cases hop : g.op? b index with
  | none =>
    unfold address
    cases hb : g.block? b with
    | none => exact hw
    | some block =>
      have hi : block.ops[index]? = none := by simpa [Graph.op?, hb] using hop
      refine wp_bind.mpr ?_
      simp only [wp_require_some, wp_bind, hi]
      exact hw
  | some op =>
    cases hm : op.memoryOperands.find? (·.opidx = opidx) with
    | none =>
      obtain ⟨block, hb, hi⟩ := Graph.op?_eq_some.mp hop
      unfold address
      simp only [wp_bind, hb, wp_require_some, hi, hm, wp_fail]
      exact hw
    | some m =>
      obtain ⟨f, hf⟩ : ∃ f, Repeats settings g bases (address settings g b index opidx) f :=
        address_repeats hs hwf ha hd hg hdepth hop hm
      exact wp_mono (hf w hw) (fun _ _ h => h.2) fun _ _ h => h.elim

end Addresses

def afterAddresses (settings : Settings) (g : Graph) (operands : List (Nat × Nat × Int))
    (w : Walk BaseState) : Walk BaseState :=
  operands.foldl (fun w o => stateAfter (address settings g o.1 o.2.1 o.2.2) w) w

/-- The base address of an operand is the same whether or not base addresses of others have been
computed before. -/
theorem address_afterAddresses {settings : Settings} (hs : settings.strict = false) {g : Graph}
    (hg : g.Built) (ha : g.ForwardAcyclic) (hd : g.DistinctSites) (ho : g.Orderly)
    (hdepth : g.placeBound ≤ settings.depth) (bases : OperandTable)
    (earlier : List (Nat × Nat × Int)) {b index : Nat} {op : MicroOp}
    (hop : g.op? b index = some op) {opidx : Int} (hm : ∃ m ∈ op.memoryOperands, m.opidx = opidx) :
    ∃ f w w',
      (address settings g b index opidx).run (afterAddresses settings g earlier { client := { bases } }) =
        .ok f w ∧
      (address settings g b index opidx).run { client := { bases } } = .ok f w' := by
  have wf := hg.wellFormed
  have fresh : Reusable settings g bases { client := { bases } } := ⟨[], holding_fresh settings g bases⟩
  have used : Reusable settings g bases (afterAddresses settings g earlier { client := { bases } }) := by
    unfold afterAddresses
    generalize ({ client := { bases } } : Walk BaseState) = w at fresh
    induction earlier generalizing w with
    | nil => exact fresh
    | cons o rest ih => exact ih _ (reusable_stateAfter hs wf ha hd ho hdepth o.1 o.2.1 o.2.2 fresh)
  obtain ⟨m, hm, hi⟩ := hm
  have found : ∃ m, op.memoryOperands.find? (·.opidx = opidx) = some m :=
    Option.isSome_iff_exists.mp (List.find?_isSome.mpr ⟨m, hm, by simpa using hi⟩)
  obtain ⟨m, hm⟩ := found
  obtain ⟨f, hf⟩ : ∃ f, Repeats settings g bases (address settings g b index opidx) f :=
    address_repeats hs wf ha hd ho hdepth hop hm
  have ends : ∀ w, Reusable settings g bases w → ∃ w', (address settings g b index opidx).run w = .ok f w' := by
    intro w hw
    have result := hf w hw
    unfold wp at result
    split at result
    · next run =>
      rw [← result.1]
      exact ⟨_, run⟩
    · exact result.elim
  obtain ⟨w, hw⟩ := ends _ used
  obtain ⟨w', hw'⟩ := ends _ fresh
  exact ⟨f, w, w', hw, hw'⟩

theorem address_afterAddresses_spillBranch :
    let bases := (OperandTable.setBase {} ⟨0x14, 0⟩ (.constant 64)).setBase ⟨0x20, 0⟩ (.constant 64)
    ∃ f w w',
      (address {} spillBranch 2 0 0).run
          (afterAddresses {} spillBranch [(1, 0, 0), (0, 1, 0), (2, 0, 0)] { client := { bases } }) =
        .ok f w ∧
      (address {} spillBranch 2 0 0).run { client := { bases } } = .ok f w' :=
  address_afterAddresses rfl built_spillBranch (Graph.forwardAcyclic_of_ranks id (by decide))
    (Graph.distinctSites_of_nodup (by decide)) ⟨by decide, by decide, by decide, by decide⟩
    (by decide) _ _ rfl ⟨_, List.mem_singleton_self _, rfl⟩

def pairLoad : Graph :=
  let rax : Register := ⟨.listed 0, 0, 63⟩
  let rcx : Register := ⟨.listed 8, 0, 63⟩
  let rdx : Register := ⟨.listed 12, 0, 63⟩
  let rsi : Register := ⟨.listed 16, 0, 63⟩
  let load (pc : Nat) (base : Register) (into : List Operand) : MicroOp :=
    { pc, kind := .load, operation := .mov, sources := [.memory { base := some base }],
      destinations := into }
  (({} : Graph).addBlock 0 0
    [load 0x10 rsi [.register rax, .register rdx], load 0x14 rax [.register rcx],
      load 0x18 rdx [.register rcx]]).setEntry 0

def wideSum : Graph :=
  let rax : Register := ⟨.listed 0, 0, 63⟩
  let rbx : Register := ⟨.listed 4, 0, 63⟩
  let rcx : Register := ⟨.listed 8, 0, 63⟩
  let rdx : Register := ⟨.listed 12, 0, 63⟩
  let sum (pc : Nat) (sources : List Register) (into : Register) : MicroOp :=
    { pc, kind := .alu, operation := .add, sources := sources.map .register,
      destinations := [.register into] }
  let load (pc : Nat) (base : Register) : MicroOp :=
    { pc, kind := .load, operation := .mov, sources := [.memory { base := some base }],
      destinations := [.register rdx] }
  (({} : Graph).addBlock 0 0
    [sum 0x10 [rbx, rcx, rdx] rax,
      { pc := 0x14, kind := .move, operation := .mov, sources := [.immediate 5],
        destinations := [.register rbx] },
      load 0x18 rax, sum 0x1c [rbx, rax] rcx, load 0x20 rcx]).setEntry 0

/-- Elsewhere an earlier base address may change a later one: because the register that a definition
was first asked for stays, and because values that a definition has sliced but not claimed are
pending after it was computed and not after it was found. -/
theorem address_changed_by_earlier :
    (pairLoad.Built ∧ pairLoad.ForwardAcyclic ∧ pairLoad.DistinctSites ∧
      answer? (address {} pairLoad 0 2 0) { client := {} } =
        some (.load ⟨0x10, 0⟩ ⟨.listed 12, 0, 63⟩) ∧
      answer? (address {} pairLoad 0 2 0) (afterAddresses {} pairLoad [(0, 1, 0)] { client := {} }) =
        some (.load ⟨0x10, 0⟩ ⟨.listed 0, 0, 63⟩)) ∧
    (wideSum.Built ∧ wideSum.ForwardAcyclic ∧ wideSum.DistinctSites ∧
      answer? (address {} wideSum 0 4 0) { client := {} } =
        some (.register ⟨0x10, 0⟩ ⟨.listed 0, 0, 63⟩ + .register ⟨0x10, 0⟩ ⟨.listed 4, 0, 63⟩) ∧
      answer? (address {} wideSum 0 4 0) (afterAddresses {} wideSum [(0, 2, 0)] { client := {} }) =
        some (.register ⟨0x10, 0⟩ ⟨.listed 0, 0, 63⟩ + .constant 5)) := by
  have built (ops : List MicroOp) : ((({} : Graph).addBlock 0 0 ops).setEntry 0).Built :=
    .setEntry 0 (.addBlock _ _ _ (.empty ""))
  refine ⟨⟨built _, Graph.forwardAcyclic_of_ranks id (by decide),
      Graph.distinctSites_of_nodup (by decide), by decide +kernel, by decide +kernel⟩,
    built _, Graph.forwardAcyclic_of_ranks id (by decide), Graph.distinctSites_of_nodup (by decide),
    by decide +kernel, by decide +kernel⟩

end Base

end AddressFormulas
