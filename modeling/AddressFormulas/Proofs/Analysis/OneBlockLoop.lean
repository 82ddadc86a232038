import AddressFormulas.Proofs.Analysis.Contents
import AddressFormulas.Proofs.Base.Termination
import AddressFormulas.Proofs.Stride.Bookkeeping

namespace AddressFormulas

namespace Loop

theorem pc_inj {ops : List MicroOp} (h : ops.Pairwise fun u v => u.pc < v.pc) {i j : Nat}
    {u v : MicroOp} (hu : ops[i]? = some u) (hv : ops[j]? = some v) (hpc : u.pc = v.pc) : i = j := by
  obtain ⟨hi, rfl⟩ := List.getElem?_eq_some_iff.mp hu
  obtain ⟨hj, rfl⟩ := List.getElem?_eq_some_iff.mp hv
  have less := List.pairwise_iff_getElem.mp h
  obtain hlt | rfl | hgt := Nat.lt_trichotomy i j
  · have := less i j hi hj hlt
    omega
  · rfl
  · have := less j i hj hi hgt
    omega

structure SoleOperand (ops : List MicroOp) (k : Nat) (load : MicroOp) (m : MemoryOperand) : Prop where
  op : ops[k]? = some load
  operands : ∀ (i : Nat) (u : MicroOp), ops[i]? = some u →
    u.memoryOperands = if i = k then [m] else []
  kind : load.kind ≠ .lea

theorem SoleOperand.memoryOperands_eq {ops : List MicroOp} {k : Nat} {load : MicroOp}
    {m : MemoryOperand} (h : SoleOperand ops k load m) : load.memoryOperands = [m] := by
  rw [h.operands k load h.op, if_pos rfl]

end Loop

namespace Graph

structure OneBlockLoop (g : Graph) (a b : Nat) (entry body : Block) : Prop where
  built : g.Built
  loops : g.loopTree = [0, 0]
  size : g.blocks.length = 2
  entry_eq : g.block? a = some entry
  outside : entry.marker = 0
  body_eq : g.block? b = some body
  inside : body.marker = 1
  edges : (g.edges.map fun e => (e.source, e.sink, e.isBack)).Perm [(a, b, false), (b, b, true)]

namespace OneBlockLoop

variable {g : Graph} {a b : Nat} {entry body : Block} (h : g.OneBlockLoop a b entry body)

include h

theorem ne : a ≠ b := by
  rintro rfl
  have same := Option.some.inj (h.entry_eq.symm.trans h.body_eq)
  have := h.outside
  rw [same, h.inside] at this
  cases this

theorem eq_of_marker {c : Nat} {block : Block} (hc : g.block? c = some block)
    (hm : 0 < block.marker) : c = b ∧ block = body := by
  have lt : ∀ {c block}, g.block? c = some block → c < 2 := fun hc =>
    h.size ▸ (List.getElem?_eq_some_iff.mp hc).1
  have hne : c ≠ a := by
    rintro rfl
    obtain rfl := Option.some.inj (hc.symm.trans h.entry_eq)
    exact Nat.ne_of_gt hm h.outside
  obtain rfl : c = b := by
    have := lt hc
    have := lt h.entry_eq
    have := lt h.body_eq
    have := h.ne
    omega
  exact ⟨rfl, Option.some.inj (hc.symm.trans h.body_eq)⟩

theorem edge_spec {e : Nat} {edge : Edge} (he : g.edge? e = some edge) :
    edge.sink = b ∧ (edge.source = b → edge.isBack = true) := by
  have mem : (edge.source, edge.sink, edge.isBack) ∈ [(a, b, false), (b, b, true)] :=
    h.edges.subset (List.mem_map_of_mem (List.mem_of_getElem? he))
  simp only [List.mem_cons, Prod.mk.injEq, List.not_mem_nil, or_false] at mem
  obtain ⟨source, sink, _⟩ | ⟨_, sink, back⟩ := mem
  · exact ⟨sink, fun source' => absurd (source.symm.trans source') h.ne⟩
  · exact ⟨sink, fun _ => back⟩

theorem steps_eq {p : CyclicPath} (hp : CyclicPath.build? g b 1 = some p) :
    ∃ e, p.steps = [(b, e)] ∧ g.isLoopBackEdge 1 e = true := by
  obtain ⟨blocks, edges, last, back, found, _, rfl⟩ :=
    CyclicPath.found_of_build? h.built.wellFormed hp
  have only : ∀ c ∈ blocks, c = b := by
    intro c hc
    obtain ⟨i, hi⟩ := List.getElem?_of_mem hc
    obtain ⟨e, edge, _, he, hs, _⟩ := found.edge_at i (List.getElem?_eq_some_iff.mp hi).1
    rw [Option.some.inj (hi.symm.trans hs)]
    exact (h.edge_spec he).1
  -- no block comes twice on the way
  have single : blocks = [b] := by
    have all := List.eq_replicate_of_mem only
    have nodup := found.nodup
    have pos := (List.getElem?_eq_some_iff.mp found.start_at).1
    rw [all, List.nodup_replicate] at nodup
    rw [all, show blocks.length = 1 by omega]
    rfl
  subst single
  obtain ⟨e, edge, he, hedge, hsink, hsource⟩ := found.edge_at 0 (Nat.zero_lt_one)
  obtain ⟨f, rfl⟩ := List.length_eq_one_iff.mp found.length.symm
  obtain rfl : f = e := by simpa using he
  have last : last = 0 := by simpa using found.last_lt
  have around : edge.source = b := by simpa [last] using hsource.symm
  have sink : edge.sink = b := by simpa using hsink.symm
  refine ⟨f, rfl, ?_⟩
  simp [isLoopBackEdge, hedge, (h.edge_spec hedge).2 around, sink, h.body_eq, h.inside]

theorem mem_edge {e : Nat} (he : e ∈ body.incoming) : ∃ edge source, g.edge? e = some edge ∧
    g.block? edge.source = some source ∧
      (edge.source = a ∧ source = entry ∨ edge.source = b ∧ source = body ∧ edge.isBack = true) := by
  obtain ⟨edge, hedge, _⟩ := h.built.wellFormed.mem_incoming h.body_eq he
  have mem : (edge.source, edge.sink, edge.isBack) ∈ [(a, b, false), (b, b, true)] :=
    h.edges.subset (List.mem_map_of_mem (List.mem_of_getElem? hedge))
  simp only [List.mem_cons, Prod.mk.injEq, List.not_mem_nil, or_false] at mem
  obtain ⟨source, _, _⟩ | ⟨source, _, back⟩ := mem
  · exact ⟨edge, entry, hedge, source ▸ h.entry_eq, .inl ⟨source, rfl⟩⟩
  · exact ⟨edge, body, hedge, source ▸ h.body_eq, .inr ⟨source, rfl, back⟩⟩

theorem exists_back : ∃ e ∈ body.incoming, ∃ edge, g.edge? e = some edge ∧ edge.source = b := by
  have mem : (b, b, true) ∈ g.edges.map fun e => (e.source, e.sink, e.isBack) :=
    h.edges.symm.subset (by simp)
  obtain ⟨edge, hedge, he⟩ := List.mem_map.mp mem
  obtain ⟨source, sink, _⟩ : edge.source = b ∧ edge.sink = b ∧ edge.isBack = true := by simpa using he
  obtain ⟨e, he⟩ := List.getElem?_of_mem hedge
  refine ⟨e, ?_, edge, he, source⟩
  rw [h.built.wellFormed.incoming_eq b body h.body_eq]
  exact mem_edgesInto.mpr ⟨edge, he, sink⟩

theorem tryEdges_back {next : Nat → Nat → StateM CyclicPath.Search Bool} {s : CyclicPath.Search}
    (hnext : ∀ edges, post (next b 1) (fun found t => found = true ∧ t.edges = edges)
      { s with edges })
    {edges : List Nat} (hedges : ∀ e ∈ edges, e ∈ body.incoming)
    (hback : ∃ e ∈ edges, ∃ edge, g.edge? e = some edge ∧ edge.source = b) :
    post (CyclicPath.tryEdges g b 1 0 body next edges)
      (fun found t => found = true ∧ ∃ e, g.isLoopBackEdge 1 e = true ∧ t.edges = e :: s.edges) s := by
  induction edges with
  | nil => simp at hback
  | cons e rest ih =>
    obtain ⟨edge, source, hedge, hsource, hcases⟩ := h.mem_edge (hedges e List.mem_cons_self)
    unfold CyclicPath.tryEdges
    rw [hedge]
    dsimp only
    rw [hsource]
    dsimp only
    obtain ⟨outside, rfl⟩ | ⟨around, rfl, back⟩ := hcases
    · have refused : CyclicPath.mayFollow g b 1 body edge source = false := by
        simp [CyclicPath.mayFollow, h.outside]
      rw [refused, if_neg (by simp)]
      refine ih (fun e' he' => hedges e' (List.mem_cons_of_mem e he')) ?_
      obtain ⟨e', he', edge', hedge', hb⟩ := hback
      refine ⟨e', (List.mem_cons.mp he').resolve_left ?_, edge', hedge', hb⟩
      rintro rfl
      rw [hedge] at hedge'
      rw [← Option.some.inj hedge'] at hb
      exact h.ne (outside.symm.trans hb)
    · have follows : CyclicPath.mayFollow g b 1 source edge source = true := by
        have inner : LoopTree.lowestCommon [0, 0] 1 1 1 = 1 := by decide
        simp [CyclicPath.mayFollow, h.inside, h.body_eq, h.loops, inner]
      have turn : g.isLoopBackEdge 1 e = true := by
        simp [isLoopBackEdge, hedge, back, around, h.body_eq, h.inside]
      rw [follows, if_pos rfl]
      refine post_bind.mpr ((post_modify _).mpr (post_bind.mpr ?_))
      rw [turn, if_pos rfl, around]
      refine post_imp (hnext _) ?_
      rintro _ t ⟨rfl, hedges'⟩
      exact ⟨rfl, e, turn, hedges'⟩

theorem forwardAcyclic : g.ForwardAcyclic := by
  apply forwardAcyclic_of_ranks fun c => if c = b then 1 else 0
  intro edge hedge forward
  have mem : (edge.source, edge.sink, edge.isBack) ∈ [(a, b, false), (b, b, true)] :=
    h.edges.subset (List.mem_map_of_mem hedge)
  simp only [forward, List.mem_cons, Prod.mk.injEq, List.not_mem_nil, or_false] at mem
  obtain ⟨source, sink, _⟩ | ⟨_, _, back⟩ := mem
  · simp [source, sink, h.ne]
  · cases back

theorem build?_eq_some : ∃ p, CyclicPath.build? g b 1 = some p := by
  -- after one turn the search is back at its start, which is on the path
  have around : ∀ n edges (s : CyclicPath.Search), s.visits.get? b = some .onPath →
      post (CyclicPath.search g b 1 (n + 1) b 1) (fun found t => found = true ∧ t.edges = edges)
        { s with edges } := by
    intro n edges s hvisit
    have decided : CyclicPath.decided? g b 1 { s with edges } b 1 = some true := by
      simp [CyclicPath.decided?, hvisit, CyclicPath.closesCycle]
    unfold CyclicPath.search
    refine post_bind.mpr (post_get.mpr ?_)
    rw [decided]
    exact ⟨rfl, rfl⟩
  have found : post (CyclicPath.search g b 1 (g.blocks.length + 1) b 0)
      (fun found t => found = true ∧ ∃ e, g.isLoopBackEdge 1 e = true ∧ t.edges = [e])
      { startRank := body.rank } := by
    rw [h.size]
    unfold CyclicPath.search
    refine post_bind.mpr (post_get.mpr ?_)
    have undecided : CyclicPath.decided? g b 1 { startRank := body.rank } b 0 = none := rfl
    rw [undecided, h.body_eq]
    dsimp only
    rw [if_neg (by simp)]
    refine post_bind.mpr ((post_set _).mpr (post_bind.mpr ?_))
    refine post_imp (h.tryEdges_back (fun edges => ?_) ?_ ?_) ?_
    · exact around 1 edges _ (Table.get?_insert_self _ _ _)
    · exact fun e he => (mem_sortBy _ e _).mp he
    · obtain ⟨e, he, turn⟩ := h.exists_back
      exact ⟨e, (mem_sortBy _ e _).mpr he, turn⟩
    · rintro _ t ⟨rfl, turn⟩
      exact ⟨rfl, turn⟩
  unfold post at found
  unfold CyclicPath.build?
  rw [h.body_eq]
  dsimp only [Option.bind_eq_bind, Option.bind_some]
  generalize (CyclicPath.search g b 1 (g.blocks.length + 1) b 0).run { startRank := body.rank } = r
    at found ⊢
  obtain ⟨_, s⟩ := r
  obtain ⟨rfl, e, turn, edges⟩ := found
  have edges : s.edges = [e] := edges
  simp [edges, turn]

theorem setting (hpcs : body.ops.Pairwise fun u v => u.pc < v.pc)
    (hstoreless : ∀ u ∈ body.ops, u.isStore = false) {settings : Settings}
    (hlax : settings.strict = false) (bases : OperandTable) {p : CyclicPath}
    (hp : CyclicPath.build? g b 1 = some p) : ∃ low top,
      Stride.Setting ⟨settings, g, bases, 1⟩ p low top ∧ Stride.Alone ⟨settings, g, bases, 1⟩ p b body := by
  obtain ⟨e, steps, hback⟩ := h.steps_eq hp
  have one : p.steps.countP (fun s => g.isLoopBackEdge 1 s.2) = 1 := by
    rw [steps]
    simp [hback]
  have only : ∀ c ∈ p.blocks, c = b := by simp [CyclicPath.blocks, steps]
  obtain ⟨mem, low, top, circuit⟩ := CyclicPath.isCircuit_of_build? h.built.wellFormed hp one
  have inBody : ∀ {c i u}, c ∈ p.blocks → g.op? c i = some u → body.ops[i]? = some u := by
    intro c i u hc hu
    obtain ⟨block, hb, hu⟩ := Graph.op?_eq_some.mp hu
    rw [only c hc] at hb
    rwa [Option.some.inj (h.body_eq.symm.trans hb)]
  refine ⟨low, top, ⟨hlax, h.built.wellFormed, ?_, ?_, circuit⟩, h.body_eq, mem, only, hstoreless⟩
  · intro c i d j u v hc hd hu hv hs
    exact ⟨(only c hc).trans (only d hd).symm,
      Loop.pc_inj hpcs (inBody hc hu) (inBody hd hv) (congrArg Site.pc hs)⟩
  · intro c hc block hb
    rw [only c hc] at hb
    rw [← Option.some.inj (h.body_eq.symm.trans hb)]
    exact hpcs.imp Nat.le_of_lt

section Operand

variable {k : Nat} {load : MicroOp} {m : MemoryOperand} (hsole : Loop.SoleOperand body.ops k load m)

include hsole

theorem site_eq {s : OperandSite} (hs : s ∈ g.operandSites) (hm : 0 < s.marker) :
    s = ⟨b, k, load.pc, m.opidx, 1⟩ := by
  obtain ⟨n, block, u, m', hb, hu, _, hm', hpc, hidx, hmarker⟩ :=
    (listsOperands_operandSites h.built.wellFormed).operandAt hs
  obtain ⟨hblock, rfl⟩ := h.eq_of_marker hb (hmarker ▸ hm)
  have index : s.index = k := by
    by_contra hne
    rw [hsole.operands _ u hu, if_neg hne] at hm'
    cases hm'
  rw [hsole.operands _ u hu, if_pos index] at hm'
  obtain rfl : m = m' := by
    have := List.mem_of_getElem? hm'
    exact (List.mem_singleton.mp this).symm
  rw [index] at hu
  obtain rfl := Option.some.inj (hu.symm.trans hsole.op)
  rw [← hblock, ← index, ← hpc, ← hidx, ← h.inside, ← hmarker]

theorem site_mem (hentry : ∀ u ∈ entry.ops, u.pc ≠ load.pc) :
    (⟨b, k, load.pc, m.opidx, 1⟩ : OperandSite) ∈ g.operandSites := by
  have lists := listsOperands_operandSites h.built.wellFormed
  have here : g.OperandAt ⟨b, k, load.pc, m.opidx, 1⟩ 0 := by
    refine ⟨body, load, m, h.body_eq, hsole.op, hsole.kind, ?_, rfl, rfl, h.inside.symm⟩
    rw [hsole.memoryOperands_eq]
    rfl
  obtain ⟨s, hs, hid⟩ := lists.complete _ _ here
  have inside : 0 < s.marker := by
    obtain ⟨n, block, u, _, hb, hu, _, _, hpc, _, hmarker⟩ := lists.operandAt hs
    have hid : s.pc = load.pc := congrArg OperandId.pc hid
    rw [hmarker]
    by_contra hout
    have hne : s.block ≠ b := by
      intro he
      rw [he, h.body_eq] at hb
      rw [← Option.some.inj hb, h.inside] at hout
      exact hout Nat.one_pos
    have hsame : s.block = a := by
      have := h.size ▸ (List.getElem?_eq_some_iff.mp hb).1
      have := h.size ▸ (List.getElem?_eq_some_iff.mp h.entry_eq).1
      have := h.size ▸ (List.getElem?_eq_some_iff.mp h.body_eq).1
      have := h.ne
      omega
    rw [hsame, h.entry_eq] at hb
    obtain rfl := Option.some.inj hb
    exact hentry u (List.mem_of_getElem? hu) (hpc.symm.trans hid)
  rw [← h.site_eq hsole hs inside]
  exact hs

end Operand

end OneBlockLoop

end Graph

namespace Analysis

variable {settings : Settings} {g : Graph} {bases : OperandTable}

def IsFirstStride (settings : Settings) (g : Graph) (bases : OperandTable) (s : OperandSite)
    (marker : Nat) (f : Formula) : Prop :=
  ∃ session journal w', (Stride.operandStride { settings, graph := g, bases, marker }
    s.block s.index s.opidx).run { client := { session }, journal } = .ok f w'

def IsFirstStop (settings : Settings) (g : Graph) (bases : OperandTable) (s : OperandSite)
    (marker : Nat) (stop : Stop) : Prop :=
  ∃ session journal w', (Stride.operandStride { settings, graph := g, bases, marker }
    s.block s.index s.opidx).run { client := { session }, journal } = .error stop w'

theorem inLoop_first {α : Type} (m : Stride.M α) (marker : Nat) {work : StrideWork}
    (hw : work.loops = {}) :
    wp (inLoop marker m) (fun answer work' => work'.strides = work.strides ∧
        ∃ session journal, match answer with
          | .ok a => ∃ w', m.run { client := { session }, journal } = .ok a w'
          | .error stop => ∃ w', m.run { client := { session }, journal } = .error stop w')
      (fun _ _ => False) work := by
  have start : work.loops.getD marker { client := {} } = { client := {} } := by
    rw [hw]
    rfl
  unfold inLoop
  simp only [wp_bind, wp_get, wp_set, wp_pure, start]
  cases hr : m.run { client := { session := work.session }, journal := work.journal } with
  | ok a w => exact ⟨trivial, _, _, w, hr⟩
  | error stop w => exact ⟨trivial, _, _, w, hr⟩

theorem computeAllStrides_outside {sites : List OperandSite} (h : ∀ s ∈ sites, s.marker = 0)
    (work : StrideWork) :
    wp (computeAllStrides settings g bases sites) (fun _ work' => work' = work) (fun _ _ => False)
      work := by
  induction sites with
  | nil => rfl
  | cons s rest ih =>
    unfold computeAllStrides
    rw [if_neg (by simp [h s List.mem_cons_self])]
    exact ih fun t ht => h t (List.mem_cons_of_mem s ht)

theorem computeAllStrides_sole {sites : List OperandSite} {s : OperandSite} (hs : s ∈ sites)
    (hm : 0 < s.marker) (hsole : ∀ t ∈ sites, 0 < t.marker → t = s) (hnodup : sites.Nodup)
    (hone : g.enclosingLoops s.marker = [s.marker]) {work : StrideWork} (hw : work.loops = {}) :
    wp (computeAllStrides settings g bases sites)
      (fun _ work' => (∃ f, IsFirstStride settings g bases s s.marker f ∧
          work'.strides = ⟨s.id, 0, f⟩ :: work.strides) ∨
        (∃ c marker, IsFirstStop settings g bases s s.marker (.failed (.noCyclicPath c marker))) ∧
          work'.strides = work.strides)
      (fun stop _ => stop = .exhausted → IsFirstStop settings g bases s s.marker stop) work := by
  -- operands other than `s` are in no loop, so the work changes at `s` only
  induction sites with
  | nil => cases hs
  | cons t rest ih =>
    obtain ⟨new, hnodup⟩ := List.nodup_cons.mp hnodup
    unfold computeAllStrides
    by_cases ht : t = s
    · subst ht
      rw [if_pos hm]
      have outside : ∀ u ∈ rest, u.marker = 0 := by
        intro u hu
        by_contra hne
        exact new (hsole u (List.mem_cons_of_mem t hu) (Nat.pos_of_ne_zero hne) ▸ hu)
      split
      · intro stopped
        cases stopped
      · rw [hone]
        unfold computeStrides
        refine wp_bind.mpr (wp_bind.mpr (wp_mono (inLoop_first _ t.marker hw) ?_ fun _ _ h => h.elim))
        rintro answer work₁ ⟨keep, session, journal, run⟩
        have nothing : ∀ work, wp (computeAllStrides settings g bases rest)
            (fun _ work' => work' = work) (fun _ _ => False) work := computeAllStrides_outside outside
        split
        · next f =>
          change wp (computeAllStrides settings g bases rest) _ _
            { work₁ with strides := ⟨t.id, 0, f⟩ :: work₁.strides }
          refine wp_mono (nothing _) ?_ fun _ _ h => h.elim
          rintro _ _ rfl
          exact .inl ⟨f, ⟨session, journal, run⟩, by rw [← keep]⟩
        · next c marker =>
          change wp (computeAllStrides settings g bases rest) _ _ { work₁ with
            journal := .skippedLevels t.id (.noCyclicPath c marker) :: work₁.journal }
          refine wp_mono (nothing _) ?_ fun _ _ h => h.elim
          rintro _ _ rfl
          exact .inr ⟨⟨c, marker, session, journal, run⟩, keep⟩
        · next stop _ =>
          exact fun _ => ⟨session, journal, run⟩
    · have outside : ¬0 < t.marker := fun inside => ht (hsole t List.mem_cons_self inside)
      rw [if_neg outside]
      exact ih ((List.mem_cons.mp hs).resolve_left fun he => ht he.symm)
        (fun u hu => hsole u (List.mem_cons_of_mem t hu)) hnodup

theorem computeBases_not_exhausted (hg : g.WellFormed) (ha : g.ForwardAcyclic)
    (hd : g.placeBound ≤ settings.depth) (sites : List OperandSite) (w : Walk BaseState) :
    wp (computeBases settings g sites) (fun _ _ => True) (fun stop _ => stop ≠ .exhausted) w := by
  induction sites generalizing w with
  | nil => trivial
  | cons s rest ih =>
    have ends := Base.address_not_exhausted hg ha hd s.block s.index s.opidx w
    refine wp_bind.mpr ?_
    unfold wp
    split
    · exact ih _
    · next stop w' run =>
      rintro rfl
      exact ends w' run

end Analysis

namespace Graph

section Analyze

open Analysis

variable {g : Graph} {a b : Nat} {entry body : Block} {k : Nat} {load : MicroOp} {m : MemoryOperand}
  {settings : Settings} {r : RoutineFormulas} (h : g.OneBlockLoop a b entry body)
  (hsole : Loop.SoleOperand body.ops k load m)

include h hsole

theorem OneBlockLoop.strides_sole {bases : OperandTable}
    (hs : (⟨b, k, load.pc, m.opidx, 1⟩ : OperandSite) ∈ g.operandSites) {work : StrideWork}
    (hw : work.loops = {}) :
    wp (computeAllStrides settings g bases g.operandSites)
      (fun _ work' =>
        (∃ f, IsFirstStride settings g bases ⟨b, k, load.pc, m.opidx, 1⟩ 1 f ∧
          work'.strides = ⟨⟨load.pc, m.opidx⟩, 0, f⟩ :: work.strides) ∨
        (∃ c marker, IsFirstStop settings g bases ⟨b, k, load.pc, m.opidx, 1⟩ 1
            (.failed (.noCyclicPath c marker))) ∧ work'.strides = work.strides)
      (fun stop _ => stop = .exhausted →
        IsFirstStop settings g bases ⟨b, k, load.pc, m.opidx, 1⟩ 1 stop) work := by
  have lists := listsOperands_operandSites h.built.wellFormed
  apply computeAllStrides_sole hs Nat.one_pos (fun t ht => h.site_eq hsole ht) lists.nodup.of_map _ hw
  simp [enclosingLoops, h.loops, enclosing, loopParent?]

theorem OneBlockLoop.strides_first (hr : g.analyze settings = .ok r) {o : OperandId} {f : Formula}
    (hf : f ∈ r.strides o) :
    ∃ bases, IsFirstStride settings g bases ⟨b, k, load.pc, m.opidx, 1⟩ 1 f := by
  obtain ⟨w, work, hw, hwork, _, hrecord⟩ := analyze_parts hr
  have bases := wp_ok (computeBases_contents _ _) hw
  obtain hf | ⟨l, hl, _, rfl⟩ := (recordStrides_contents hrecord).2 o f hf
  · rw [bases.strides] at hf
    cases hf
  by_cases hs : (⟨b, k, load.pc, m.opidx, 1⟩ : OperandSite) ∈ g.operandSites
  · obtain ⟨f, first, strides⟩ | ⟨_, strides⟩ := wp_ok (h.strides_sole hsole hs rfl) hwork
    · rw [strides] at hl
      obtain rfl := List.mem_singleton.mp (List.mem_reverse.mp hl)
      exact ⟨_, first⟩
    · simp [strides] at hl
  · have outside : ∀ s ∈ g.operandSites, s.marker = 0 := by
      intro s hm
      by_contra hne
      exact hs (h.site_eq hsole hm (Nat.pos_of_ne_zero hne) ▸ hm)
    have strides := wp_ok (computeAllStrides_outside outside _) hwork
    simp [strides] at hl

theorem OneBlockLoop.strides_eq (hentry : ∀ u ∈ entry.ops, u.pc ≠ load.pc)
    (hway : ∀ bases c marker, ¬IsFirstStop settings g bases ⟨b, k, load.pc, m.opidx, 1⟩ 1
      (.failed (.noCyclicPath c marker))) (hr : g.analyze settings = .ok r) :
    ∃ bases f, IsFirstStride settings g bases ⟨b, k, load.pc, m.opidx, 1⟩ 1 f ∧
      r.strides ⟨load.pc, m.opidx⟩ = [f] := by
  obtain ⟨w, work, hw, hwork, _, hrecord⟩ := analyze_parts hr
  have bases := wp_ok (computeBases_contents _ _) hw
  have none : (w.client.bases.strides ⟨load.pc, m.opidx⟩).length = 0 :=
    congrArg List.length (bases.strides _)
  obtain ⟨f, first, strides⟩ | ⟨⟨c, marker, stop⟩, _⟩ :=
    wp_ok (h.strides_sole hsole (h.site_mem hsole hentry) rfl) hwork
  · refine ⟨_, f, first, ?_⟩
    obtain ⟨t, ht, recorded, _⟩ := recordStrides_levels none [f]
    rw [strides] at hrecord
    obtain rfl := Except.ok.inj (hrecord.symm.trans ht)
    rw [List.length_eq_zero_iff.mp none] at recorded
    exact recorded
  · exact absurd stop (hway _ c marker)

theorem OneBlockLoop.analyze_eq_ok (hentry : ∀ u ∈ entry.ops, u.pc ≠ load.pc)
    (hlax : settings.strict = false) (hdepth : g.placeBound ≤ settings.depth)
    (hends : ∀ bases, ¬IsFirstStop settings g bases ⟨b, k, load.pc, m.opidx, 1⟩ 1 .exhausted) :
    ∃ r, g.analyze settings = .ok r := by
  have hg := h.built.wellFormed
  obtain exhausted | ⟨r, hr, _⟩ := analyze_spec hg hlax
  · exfalso
    unfold analyze analyzeWithJournal at exhausted
    dsimp only at exhausted
    split at exhausted
    · next stop w hw =>
      exact wp_error (computeBases_not_exhausted hg h.forwardAcyclic hdepth _ _) hw
        (Except.error.inj exhausted)
    · split at exhausted
      · next w _ stop work hwork =>
        obtain rfl := Except.error.inj exhausted
        exact hends _ (wp_error (h.strides_sole hsole (h.site_mem hsole hentry) rfl) hwork rfl)
      · split at exhausted <;> cases exhausted
  · exact ⟨r, hr⟩

end Analyze

def loopOf (ops : List MicroOp) : Graph :=
  ((((({ loopTree := [0, 0] } : Graph).addBlock 0 0 []).addBlock 1 1 ops).addEdge 0 1 false).addEdge
    1 1 true).setEntry 0

def loopBody (ops : List MicroOp) : Block :=
  { id := 1, start := (addressRange ops).1, stop := (addressRange ops).2, rank := 1, marker := 1,
    ops, incoming := [0, 1], outgoing := [1] }

theorem oneBlockLoop_loopOf (ops : List MicroOp) :
    ∃ entry, (loopOf ops).OneBlockLoop 0 1 entry (loopBody ops) := by
  have start : Built ({ loopTree := [0, 0] } : Graph) := .setLoopParents [0] rfl (.empty "")
  have built : (loopOf ops).Built := .setEntry _ <|
    .addEdge _ Nat.one_lt_two Nat.one_lt_two <| .addEdge _ Nat.zero_lt_two Nat.one_lt_two <|
      .addBlock _ _ _ (.addBlock _ _ _ start)
  exact ⟨_, built, rfl, rfl, rfl, rfl, rfl, rfl, .refl _⟩

theorem OneBlockLoop.entry_loopOf {ops : List MicroOp} {b : Nat} {entry body : Block}
    (h : (loopOf ops).OneBlockLoop 0 b entry body) : entry.ops = [] := by
  obtain rfl := Option.some.inj h.entry_eq
  rfl

end Graph

namespace MicroOp

def loadFrom (reg : Register) : MicroOp :=
  { pc := 0x10, kind := .load, operation := .mov, sources := [.memory { base := some reg }],
    destinations := [.register ⟨.listed 20, 0, 63⟩] }

def compute (pc : Nat) (operation : Operation) (d : Register) (sources : List Operand) : MicroOp :=
  { pc, kind := .alu, operation, sources, destinations := [.register d] }

end MicroOp

end AddressFormulas
