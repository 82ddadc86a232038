import AddressFormulas.Proofs.Base.Edges
import AddressFormulas.Proofs.Base.Termination
import AddressFormulas.Proofs.Routine.Splitting

/-!
What a block without micro-ops does to base slicing when it is put into a forward edge. At addresses
above zero it makes no difference at all. A block that gets its addresses from its micro-ops is at
address zero, though, and the lower bound of a walk, which is zero when there is none, ends every
walk there: the edge is lost as if it led back.
-/

namespace AddressFormulas.Base

open WalkM Slicer

variable {E : Stop → Prop} {B : Nat → Prop} {settings settings' : Settings} {g g' : Graph} {e : Nat}

theorem calleeBehind?_renumber (hg : g.WellFormed) (h : g.SeenAsSplit g' e) (block : Block) :
    calleeBehind? g' (block.renumber e) = calleeBehind? g block := by
  unfold calleeBehind? Block.renumber
  simp only [List.head?_map]
  cases block.outgoing.head? with
  | none => rfl
  | some i =>
    by_cases hi : i = e
    · subst hi
      obtain ⟨edge, sink, he, hs, hc⟩ := h.code
      obtain ⟨edge', sink', he', hs', hc'⟩ := h.code'
      simp [makeRoom, he, hs, hc, he', hs', hc']
    · have same : makeRoom (e + 1) i = makeRoom e i := by
        unfold makeRoom
        split <;> split <;> omega
      simp only [Option.map_some, Option.bind_some, same]
      obtain ⟨he, he'⟩ | ⟨edge, id, he, he'⟩ := h.edge hi
      · rw [he, he']
        rfl
      · have inside := hg.sink_lt i edge he
        have sink : g.block? edge.sink = some g.blocks[edge.sink] := List.getElem?_eq_getElem _
        simp only [he, he', Option.bind_some, sink, h.block _ _ sink]
        rfl

theorem blockSeenAlike_of_split (hg : g.WellFormed) (h : g.SeenAsSplit g' e) {b : Nat}
    (hb : b < g.blocks.length) : BlockSeenAlike g g' b :=
  have block : g.block? b = some g.blocks[b] := List.getElem?_eq_getElem hb
  .inr ⟨_, _, block, h.block _ _ block, rfl, rfl, calleeBehind?_renumber hg h _⟩

theorem blocksAgree_of_split (h : g.SeenAsSplit g' e) {b : Nat} (hb : b < g.blocks.length) :
    BlocksAgree (fun i i' => makeRoom e i = i') g g' b := by
  have block : g.block? b = some g.blocks[b] := List.getElem?_eq_getElem hb
  refine .inr ⟨_, _, block, h.block _ _ block, rfl, ?_, ?_⟩
  · rw [h.incomingByRank, List.forall₂_map_right_iff]
    exact List.forall₂_same.mpr fun _ _ => rfl
  · unfold Block.renumber
    rw [List.forall₂_map_right_iff]
    exact List.forall₂_same.mpr fun _ _ => rfl

section Walks

variable {walk walk' : WalkFor BaseState} {follow follow' : FollowFor BaseState}

theorem edgesAgree_other (hg : g.WellFormed) (h : g.SeenAsSplit g' e)
    (hw : WalksAgree E B (fun p => p.block < g.blocks.length) walk walk')
    (hf : FollowsAgree E B (fun p => p.block < g.blocks.length) follow follow') {i : Nat} (hi : i ≠ e) :
    EdgesAgree E B (slicer settings g) (slicer settings' g') g g' walk walk' follow follow' i
      (makeRoom e i) := by
  obtain ⟨he, he'⟩ | ⟨edge, id, he, he'⟩ := h.edge hi
  · exact ⟨fun _ => .require_none he he', fun _ => .ok _, fun _ => .ok _,
      fun _ _ => .require_none he he', fun _ _ => .require_none he he'⟩
  · have inside := hg.source_lt i edge he
    have source : g.block? edge.source = some g.blocks[edge.source] := List.getElem?_eq_getElem _
    have source' := h.block _ _ source
    refine ⟨fun _ => ?_, fun _ => .ok _, fun _ => .ok _, fun reg _ => ?_, fun address _ => ?_⟩
    · exact .require_some he he' (.require_some source source' (.bind .read fun _ => .ok _))
    · refine .require_some he he' (.require_some source source' ?_)
      exact .read_bind fun w hb => hw ⟨edge.source, _⟩ reg w.bounds inside hb
    · exact .require_some he he' (.require_some source source' (hf ⟨edge.source, _⟩ address inside))

end Walks

def AgreeAcross (B : Nat → Prop) (settings settings' : Settings) (g g' : Graph) (e : Nat) : Prop :=
  ∀ n k,
    WalksAgree (· = .exhausted) B (fun p => p.block < g.blocks.length)
      ((slicer settings g).walk g n) ((slicer settings' g').walk g' k) →
    FollowsAgree (· = .exhausted) B (fun p => p.block < g.blocks.length)
      ((slicer settings g).follow g n) ((slicer settings' g').follow g' k) →
    EdgesAgree (· = .exhausted) B (slicer settings g) (slicer settings' g') g g'
      ((slicer settings g).walk g n) ((slicer settings' g').walk g' (k + 1))
      ((slicer settings g).follow g n) ((slicer settings' g').follow g' (k + 1)) e (e + 1)

theorem walk_and_follow_split (hg : g.WellFormed) (h : g.SeenAsSplit g' e) (hb : B 0)
    (hs : settings.Agree (· = .exhausted) settings') (across : AgreeAcross B settings settings' g g' e)
    (n k : Nat) (hk : 2 * n ≤ k) :
    WalksAgree (· = .exhausted) B (fun p => p.block < g.blocks.length)
        ((slicer settings g).walk g n) ((slicer settings' g').walk g' k) ∧
      FollowsAgree (· = .exhausted) B (fun p => p.block < g.blocks.length)
        ((slicer settings g).follow g n) ((slicer settings' g').follow g' k) := by
  -- one step on the left is at most two on the right, where `e` is crossed in two
  induction n generalizing k with
  | zero => exact ⟨fun _ _ _ _ _ _ _ => .inl rfl, fun _ _ _ _ _ => .inl rfl⟩
  | succ n ih =>
    obtain ⟨k, rfl⟩ : ∃ j, k = j + 2 := ⟨k - 2, by omega⟩
    have hooks := slicer_hooksAgree hs hb fun b => blockSeenAlike_of_split hg h (b := b)
    obtain ⟨hw, hf⟩ := ih (k + 1) (by omega)
    have edges : ∀ i i', makeRoom e i = i' →
        EdgesAgree (· = .exhausted) B (slicer settings g) (slicer settings' g') g g'
          ((slicer settings g).walk g n) ((slicer settings' g').walk g' (k + 1))
          ((slicer settings g).follow g n) ((slicer settings' g').follow g' (k + 1)) i i' := by
      rintro i _ rfl
      by_cases hi : i = e
      · obtain ⟨hw, hf⟩ := ih k (by omega)
        rw [hi, Graph.makeRoom_self]
        exact across n k hw hf
      · exact edgesAgree_other hg h hw hf hi
    constructor
    · intro p reg bounds hp hbound
      exact hooks.walkStep hp (blocksAgree_of_split h hp) reg hbound hw hf (fun _ _ => hp) edges
    · intro p address hp
      exact hooks.followStep hp (blocksAgree_of_split h hp) address hw (fun _ _ => hp) edges

theorem address_run_split (hg : g.WellFormed) (ha : g.ForwardAcyclic) (h : g.SeenAsSplit g' e)
    (across : ∀ depth, AgreeAcross (· = 0) { settings with depth } settings g g' e)
    (hd : 2 * g.placeBound ≤ settings.depth) {b : Nat} (hb : b < g.blocks.length) (index : Nat)
    (opidx : Int) {w : Walk BaseState} (hw : w.bounds.stop = 0) :
    (address settings g' b index opidx).run w = (address settings g b index opidx).run w := by
  let shallow := { settings with depth := g.placeBound }
  have same : Settings.Agree (· = .exhausted) shallow settings := ⟨.inl rfl, rfl, rfl, rfl⟩
  have walks := (walk_and_follow_split (B := (· = 0)) hg h rfl same (across g.placeBound)
    g.placeBound settings.depth hd).1
  have block : g.block? b = some g.blocks[b] := List.getElem?_eq_getElem hb
  have agree : Agree (· = .exhausted) (· = 0) (address shallow g b index opidx)
      (address settings g' b index opidx) := by
    apply address_agree same opidx
    · rw [block, h.block b _ block]
      rfl
    · intro op _ reg
      exact walks ⟨b, index⟩ reg _ hb rfl
  have first : (address settings g' b index opidx).run w = (address shallow g b index opidx).run w := by
    apply agree.run_eq hw
    rintro _ t run rfl
    exact address_not_exhausted hg ha (Nat.le_refl _) b index opidx w t run
  have deeper : Settings.Agree (fun _ => False) shallow settings := ⟨.inl rfl, rfl, rfl, rfl⟩
  have second := address_run_deep hg ha deeper (Nat.le_refl _) (by omega) b index opidx w
  rw [first, second]

theorem enterEdge_forward {edge : Edge} {source : Block} (he : g.edge? e = some edge)
    (hu : g.block? edge.source = some source) (hf : edge.isBack = false) {w : Walk BaseState}
    (hw : w.bounds.stop < source.stop) : enterEdge g e w = .ok true w := by
  rw [enterEdge_run he hu, hf, decide_eq_true hw]
  rfl

section Through

variable {edge : Edge} {source : Block} {marker start stop : Nat} (he : g.edge? e = some edge)
  (hu : g.block? edge.source = some source) (hf : edge.isBack = false)

include he

theorem enterBlock_new {w : Walk BaseState} (hw : w.bounds.stop < start) (reg : Register) :
    enterBlock (g.splitEdge e marker start stop) g.blocks.length reg w = .ok true w := by
  unfold enterBlock
  rw [Graph.newBlock_splitEdge he marker start stop]
  change (if start ≤ w.bounds.stop then _ else _ : M Bool) w = _
  rw [if_neg (by omega)]
  rfl

include hu hf

theorem walkAcross_through (hstart : 0 < start) (hsource : 0 < source.stop) {w : Walk BaseState}
    (hw : w.bounds.stop = 0) (k : Nat) (reg : Register) :
    let g' := g.splitEdge e marker start stop
    walkAcross g' ((slicer settings g').walk g' (k + 1)) (e + 1) reg w =
      walkAcross g' ((slicer settings g').walk g' k) e reg w := by
  intro g'
  have new := Graph.newBlock_splitEdge he marker start stop
  have into : enterEdge g' e w = .ok true w :=
    enterEdge_forward (Graph.edge?_into_splitEdge he marker start stop)
      (Graph.block?_splitEdge he marker start stop hu) hf (hw ▸ hsource)
  have begin : enterBlock g' g.blocks.length reg w = .ok true w := enterBlock_new he (hw ▸ hstart) reg
  calc
    walkAcross g' ((slicer settings g').walk g' (k + 1)) (e + 1) reg w
    _ = (slicer settings g').walk g' (k + 1) ⟨g.blocks.length, 0⟩ reg w.bounds w := by
      unfold walkAcross
      rw [Graph.edge?_outOf_splitEdge he marker start stop]
      change (WalkM.require (g'.block? g.blocks.length) >>= _) w = _
      rw [new]
      rfl
    _ = (slicer settings g').walkNext g' ((slicer settings g').walk g' k) g.blocks.length reg w := by
      change (WalkM.require (g'.block? g.blocks.length) >>= _) w = _
      rw [new]
      rfl
    _ = (slicer settings g').walkEdges g' ((slicer settings g').walk g' k) g.blocks.length reg [e] w := by
      refine (run_bind begin).trans ?_
      change (WalkM.require (g'.block? g.blocks.length) >>= _) w = _
      rw [new]
      rfl
    _ = walkAcross g' ((slicer settings g').walk g' k) e reg w := by
      rw [walkEdges_eq]
      exact alongEdges_entered into

theorem followAcross_through (hstart : 0 < start) (hsource : 0 < source.stop) {w : Walk BaseState}
    (hw : w.bounds.stop = 0) (k : Nat) (address : Formula) :
    let g' := g.splitEdge e marker start stop
    followAcross g' ((slicer settings g').follow g' (k + 1)) (e + 1) address w =
      followAcross g' ((slicer settings g').follow g' k) e address w := by
  intro g'
  have new := Graph.newBlock_splitEdge he marker start stop
  have into : enterEdge g' e w = .ok true w :=
    enterEdge_forward (Graph.edge?_into_splitEdge he marker start stop)
      (Graph.block?_splitEdge he marker start stop hu) hf (hw ▸ hsource)
  have begin : enterBlock g' g.blocks.length .absent w = .ok true w :=
    enterBlock_new he (hw ▸ hstart) .absent
  calc
    followAcross g' ((slicer settings g').follow g' (k + 1)) (e + 1) address w
    _ = (slicer settings g').follow g' (k + 1) ⟨g.blocks.length, 0⟩ address w := by
      unfold followAcross
      rw [Graph.edge?_outOf_splitEdge he marker start stop]
      change (WalkM.require (g'.block? g.blocks.length) >>= _) w = _
      rw [new]
      rfl
    _ = (slicer settings g').followEdges g' ((slicer settings g').follow g' k) g.blocks.length
          address [e] w := by
      change (WalkM.require (g'.block? g.blocks.length) >>= _) w = _
      rw [new]
      exact run_bind begin
    _ = followAcross g' ((slicer settings g').follow g' k) e address w := by
      rw [followEdges_eq]
      exact alongEdges_entered into

theorem agreeAcross_through (hstart : 0 < start) (hstop : 0 < stop) (hsource : 0 < source.stop)
    (depth : Nat) :
    AgreeAcross (· = 0) { settings with depth } settings g (g.splitEdge e marker start stop) e := by
  intro n k hwalk hfollow
  let g' := g.splitEdge e marker start stop
  have inside : edge.source < g.blocks.length := (List.getElem?_eq_some_iff.mp hu).1
  have into := Graph.edge?_into_splitEdge he marker start stop
  have source' := Graph.block?_splitEdge he marker start stop hu
  refine ⟨fun reg w hw => ?_, fun _ => .ok _, fun _ => .ok _, fun reg _ w hw => ?_,
    fun address _ w hw => ?_⟩
  · have old : enterEdge g e w = .ok true w := enterEdge_forward he hu hf (hw ▸ hsource)
    have new : enterEdge g' (e + 1) w = .ok true w :=
      enterEdge_forward (Graph.edge?_outOf_splitEdge he marker start stop)
        (Graph.newBlock_splitEdge he marker start stop) rfl (hw ▸ hstop)
    change wp (enterEdge g e) (fun a t => enterEdge g' (e + 1) w = .ok a t ∧ _) _ w
    rw [wp, old]
    exact ⟨new, hw⟩
  · have behind : Agree (· = .exhausted) (· = 0)
        (walkAcross g ((slicer { settings with depth } g).walk g n) e reg)
        (walkAcross g' ((slicer settings g').walk g' k) e reg) := by
      refine .require_some he into (.require_some hu source' ?_)
      exact .read_bind fun w hb => hwalk ⟨edge.source, _⟩ reg w.bounds inside hb
    rw [walkAcross_through he hu hf hstart hsource hw]
    exact behind w hw
  · have behind : Agree (· = .exhausted) (· = 0)
        (followAcross g ((slicer { settings with depth } g).follow g n) e address)
        (followAcross g' ((slicer settings g').follow g' k) e address) := by
      refine .require_some he into (.require_some hu source' ?_)
      exact hfollow ⟨edge.source, _⟩ address inside
    rw [followAcross_through he hu hf hstart hsource hw]
    exact behind w hw

end Through

theorem agreeAcross_turnBack {edge : Edge} {source : Block} (he : g.edge? e = some edge)
    (hu : g.block? edge.source = some source) (marker start depth : Nat) :
    AgreeAcross (· = 0) { settings with depth } settings (g.turnBack e)
      (g.splitEdge e marker start 0) e := by
  intro n k _ _
  have back : (g.turnBack e).edge? e = some { edge with isBack := true } := by
    simp [Graph.edge?_turnBack, he]
  have old : ∀ w, enterEdge (g.turnBack e) e w = .ok false w := by
    intro w
    rw [enterEdge_run back (by exact hu)]
    rfl
  have new : ∀ w, enterEdge (g.splitEdge e marker start 0) (e + 1) w = .ok false w := by
    intro w
    rw [enterEdge_run (Graph.edge?_outOf_splitEdge he marker start 0)
      (Graph.newBlock_splitEdge he marker start 0)]
    rfl
  refine ⟨fun reg w hw => ?_, fun _ => .ok _, fun _ => .ok _, ?_, ?_⟩
  · change wp (enterEdge (g.turnBack e) e)
      (fun a t => enterEdge (g.splitEdge e marker start 0) (e + 1) w = .ok a t ∧ _) _ w
    rw [wp, old]
    exact ⟨new w, hw⟩
  · rintro reg ⟨w, t, _, enter⟩
    cases (old w).symm.trans enter
  · rintro address ⟨w, t, _, enter⟩
    cases (old w).symm.trans enter

/-- What splitting a forward edge does to base addresses. By a block at addresses above zero they
do not change. By a block that has the addresses of its micro-ops, of which there are none, they
become those of the routine in which the edge leads back. -/
theorem address_splitEdge {g : Graph} (hg : g.Built) (ha : g.ForwardAcyclic) {e : Nat} {edge : Edge}
    {source sink : Block} (he : g.edge? e = some edge) (hf : edge.isBack = false)
    (hu : g.block? edge.source = some source) (hv : g.block? edge.sink = some sink)
    (hc : sink.kind = .code) (settings : Settings) (hd : 2 * g.placeBound ≤ settings.depth) {b : Nat}
    (hb : b < g.blocks.length) (index : Nat) (opidx : Int) (marker : Nat) (bases : OperandTable) :
    (∀ start stop, 0 < start → 0 < stop → 0 < source.stop →
      (address settings (g.splitEdge e marker start stop) b index opidx).run { client := { bases } } =
        (address settings g b index opidx).run { client := { bases } }) ∧
    (address settings
        (g.splitEdge e marker (Graph.addressRange []).1 (Graph.addressRange []).2) b index opidx).run
        { client := { bases } } =
      (address settings (g.turnBack e) b index opidx).run { client := { bases } } := by
  have wf := hg.wellFormed
  constructor
  · intro start stop hstart hstop hsource
    apply address_run_split wf ha (Graph.seenAsSplit_splitEdge wf he hv hc marker start stop) ?_ hd hb
      index opidx rfl
    exact agreeAcross_through he hu hf hstart hstop hsource
  · apply address_run_split (wf.turnBack e) (ha.turnBack e)
      (Graph.seenAsSplit_splitEdge wf he hv hc marker 0 0).turnBack ?_ hd hb index opidx rfl
    exact agreeAcross_turnBack he hu marker 0

theorem address_splitEdge_spillBranch :
    let bases := (OperandTable.setBase {} ⟨0x14, 0⟩ (.constant 64)).setBase ⟨0x20, 0⟩ (.constant 64)
    (address {} (spillBranch.splitEdge 2 0 0x22 0x24) 2 0 0).run { client := { bases } } =
        (address {} spillBranch 2 0 0).run { client := { bases } } ∧
      (address {} (spillBranch.splitEdge 2 0 0 0) 2 0 0).run { client := { bases } } =
        (address {} (spillBranch.turnBack 2) 2 0 0).run { client := { bases } } := by
  intro bases
  have split := address_splitEdge built_spillBranch (Graph.forwardAcyclic_of_ranks id (by decide))
    (e := 2) rfl rfl rfl rfl rfl {} (by decide) (b := 2) (by decide) 0 0 0 bases
  exact ⟨split.1 0x22 0x24 (by decide) (by decide) (by decide), split.2⟩

def constantAddress : Graph :=
  let rax : Register := ⟨.listed 0, 0, 63⟩
  let move : MicroOp :=
    { pc := 0x10, kind := .move, operation := .mov, sources := [.immediate 5],
      destinations := [.register rax] }
  let use : MicroOp :=
    { pc := 0x20, kind := .load, operation := .mov, sources := [.memory { base := some rax }],
      destinations := [.register ⟨.listed 8, 0, 63⟩] }
  ((({} : Graph).addBlock 0 0 [move]).addBlock 1 0 [use]).setEntry 0

/-- With an empty block on the way, the constant is not found any more. -/
theorem address_hidden_by_emptyBlock :
    let direct := constantAddress.addEdge 0 1 false
    let split := ((constantAddress.addBlock 0 0 []).addEdge 0 2 false).addEdge 2 1 false
    direct.Built ∧ split.Built ∧ direct.ForwardAcyclic ∧ split = direct.splitEdge 0 0 0 0 ∧
      answer? (address {} direct 1 0 0) { client := {} } = some (.constant 5) ∧
      answer? (address {} split 1 0 0) { client := {} } =
        some (.register ⟨0x20, 0⟩ ⟨.listed 0, 0, 63⟩) := by
  have built : constantAddress.Built :=
    .setEntry 0 (.addBlock _ _ _ (.addBlock _ _ _ (.empty "")))
  refine ⟨.addEdge _ (by decide) (by decide) built, ?_, ?_, by decide, by decide +kernel,
    by decide +kernel⟩
  · exact .addEdge _ (by decide) (by decide) (.addEdge _ (by decide) (by decide) (.addBlock _ _ _ built))
  · exact Graph.forwardAcyclic_of_ranks id (by decide)

end AddressFormulas.Base
