import AddressFormulas.Proofs.Analysis.Contents
import AddressFormulas.Proofs.Analysis.Overflow
import AddressFormulas.Proofs.Base.Agreement
import AddressFormulas.Proofs.Base.Edges
import AddressFormulas.Proofs.Walk.Refusal

/-!
Base addresses do not depend on back edges. Base slicing refuses to enter them, and it looks at the
edges out of a block only for the callee behind a call; so a back edge can be added between any two
blocks of which the second stands for no callee.
-/

namespace AddressFormulas

def Block.join (block : Block) (e source sink : Nat) : Block :=
  { block with
    outgoing := if block.id = source then block.outgoing ++ [e] else block.outgoing
    incoming := if block.id = sink then block.incoming ++ [e] else block.incoming }

namespace Graph

def addBackEdges (g : Graph) (ends : List (Nat × Nat)) : Graph :=
  ends.foldl (fun h p => h.addEdge p.1 p.2 true) g

variable {g : Graph} {source sink : Nat} {isBack : Bool}

theorem edge?_addEdge {e : Nat} {edge : Edge} (he : g.edge? e = some edge) :
    (g.addEdge source sink isBack).edge? e = some edge :=
  (List.getElem?_append_left (List.getElem?_eq_some_iff.mp he).1).trans he

theorem newEdge_addEdge : (g.addEdge source sink isBack).edge? g.edges.length =
    some ⟨g.edges.length, source, sink, isBack⟩ :=
  List.getElem?_concat_length

namespace WellFormed

variable (hg : g.WellFormed)

include hg

theorem block?_addEdge (source sink : Nat) (isBack : Bool) (b : Nat) :
    (g.addEdge source sink isBack).block? b = (g.block? b).map (·.join g.edges.length source sink) := by
  simp only [block?, Graph.addEdge, Graph.modifyBlock, List.getElem?_modify]
  cases hb : g.blocks[b]? with
  | none => rfl
  | some block =>
    obtain rfl : block.id = b := hg.block_id b block hb
    simp only [Option.map_some, Block.join, eq_comm (a := block.id)]
    by_cases hs : source = block.id <;> by_cases ht : sink = block.id <;> simp [hs, ht]

theorem blocks_addEdge : (g.addEdge source sink isBack).blocks =
    g.blocks.map (·.join g.edges.length source sink) := by
  apply List.ext_getElem?
  intro b
  rw [List.getElem?_map]
  exact hg.block?_addEdge source sink isBack b

theorem operandSites_addEdge :
    (g.addEdge source sink isBack).operandSites = g.operandSites := by
  have sorted : sortBy (fun a b : Block => decide (a.rank ≤ b.rank))
      (g.blocks.map (·.join g.edges.length source sink)) =
        (sortBy (fun a b : Block => decide (a.rank ≤ b.rank)) g.blocks).map
          (·.join g.edges.length source sink) :=
    sortBy_map fun _ _ _ _ => rfl
  simp only [operandSites, hg.blocks_addEdge, sorted, List.flatMap_map]
  rfl

theorem not_mem_incoming {b : Nat} {block : Block} (hb : g.block? b = some block) :
    g.edges.length ∉ block.incoming := by
  intro he
  obtain ⟨edge, hedge, _⟩ := hg.mem_incoming hb he
  exact Nat.lt_irrefl _ (List.getElem?_eq_some_iff.mp hedge).1

end WellFormed

end Graph

namespace Base

open WalkM Slicer

variable {settings : Settings} {g : Graph} {source sink : Nat} {block origin : Block}

theorem enterEdge_back {e : Nat} {edge : Edge} (he : g.edge? e = some edge)
    (hu : g.block? edge.source = some origin) (hb : edge.isBack = true) :
    enterEdge g e = pure false := by
  funext w
  rw [enterEdge_run he hu, hb]
  rfl

section Added

variable (hg : g.WellFormed) (hsource : source < g.blocks.length)
  (hsink : ∃ block, g.block? sink = some block ∧ block.kind = .code)

include hg

theorem incoming_join {b : Nat} (hb : g.block? b = some block) :
    ((block.join g.edges.length source sink).unlist (· = g.edges.length)).incoming =
      block.incoming := by
  have old : block.incoming.filter (fun e => !decide (e = g.edges.length)) = block.incoming := by
    apply List.filter_eq_self.mpr
    intro e he
    have : e ≠ g.edges.length := fun h => hg.not_mem_incoming hb (h ▸ he)
    simpa using this
  simp only [Block.unlist, Block.join]
  split
  · rw [List.filter_append, old]
    simp
  · exact old

theorem blocksAgree_addBackEdge (b : Nat) :
    BlocksAgree (fun e e' => e = e' ∧ ∃ edge, g.edge? e = some edge) g
      ((g.addEdge source sink true).unlist (· = g.edges.length)) b := by
  let g' := (g.addEdge source sink true).unlist (· = g.edges.length)
  have blocks : ∀ b, g'.block? b = (g.block? b).map fun block =>
      (block.join g.edges.length source sink).unlist (· = g.edges.length) := by
    intro b
    rw [Graph.block?_unlist, hg.block?_addEdge, Option.map_map]
    rfl
  -- the new edge is not listed, so the blocks keep their edges and the edges their ranks
  have rank : ∀ e edge, g.edge? e = some edge → g'.sourceRank e = g.sourceRank e := by
    intro e edge he
    have he' : g'.edge? e = some edge := Graph.edge?_addEdge he
    simp only [Graph.sourceRank, he, he', Option.bind_some, blocks, Option.map_map]
    rfl
  cases hb : g.block? b with
  | none => exact .inl ⟨hb, by rw [blocks, hb]; rfl⟩
  | some block =>
    have known : ∀ e ∈ block.incoming, ∃ edge, g.edge? e = some edge := by
      intro e he
      obtain ⟨edge, hedge, _⟩ := hg.mem_incoming hb he
      exact ⟨edge, hedge⟩
    have byRank : g'.incomingByRank
        ((block.join g.edges.length source sink).unlist (· = g.edges.length)) =
          g.incomingByRank block := by
      have sorted : sortBy (fun e e' => decide (g'.sourceRank e' ≤ g'.sourceRank e))
          (block.incoming.map id) = (g.incomingByRank block).map id := by
        apply sortBy_map
        intro e he e' he'
        obtain ⟨edge, hedge⟩ := known e he
        obtain ⟨edge', hedge'⟩ := known e' he'
        simp only [id, rank e edge hedge, rank e' edge' hedge']
      rw [List.map_id, List.map_id] at sorted
      unfold Graph.incomingByRank at sorted ⊢
      rw [incoming_join hg hb, sorted]
    refine .inr ⟨block, _, hb, (blocks b).trans (congrArg _ hb), rfl, ?_, ?_⟩
    · change List.Forall₂ _ _ (g'.incomingByRank
        ((block.join g.edges.length source sink).unlist (· = g.edges.length)))
      rw [byRank]
      exact List.forall₂_same.mpr fun e he => ⟨rfl, known e ((mem_sortBy _ e _).mp he)⟩
    · dsimp only
      rw [incoming_join hg hb]
      exact List.forall₂_same.mpr fun e he => ⟨rfl, known e he⟩

theorem edgesAgree_addBackEdge {E : Stop → Prop} {walk walk' : WalkFor BaseState}
    {follow follow' : FollowFor BaseState}
    (hw : WalksAgree E (fun _ => True) (fun _ => True) walk walk')
    (hf : FollowsAgree E (fun _ => True) (fun _ => True) follow follow') {e : Nat} {edge : Edge}
    (he : g.edge? e = some edge) :
    EdgesAgree E (fun _ => True) (slicer settings g) (slicer settings (g.addEdge source sink true))
      g ((g.addEdge source sink true).unlist (· = g.edges.length)) walk walk' follow follow'
      e e := by
  have he' : (g.addEdge source sink true).edge? e = some edge := Graph.edge?_addEdge he
  have inside := hg.source_lt e edge he
  have hu : g.block? edge.source = some g.blocks[edge.source] := List.getElem?_eq_getElem inside
  have hu' := hg.block?_addEdge source sink true edge.source
  rw [hu] at hu'
  refine ⟨fun _ => ?_, fun _ => .ok _, fun _ => .ok _, fun reg _ => ?_, fun address _ => ?_⟩
  · exact .require_some he he' (.require_some hu hu' (.bind .read fun _ => .ok _))
  · rw [walkAcross_unlist]
    refine .require_some he he' (.require_some hu hu' ?_)
    exact .read_bind fun w hb => hw ⟨edge.source, _⟩ reg w.bounds trivial hb
  · rw [followAcross_unlist]
    exact .require_some he he' (.require_some hu hu' (hf ⟨edge.source, _⟩ address trivial))

include hsink

theorem calleeBehind?_join {b : Nat} (hb : g.block? b = some block) :
    calleeBehind? (g.addEdge source sink true) (block.join g.edges.length source sink) =
      calleeBehind? g block := by
  obtain ⟨target, htarget, code⟩ := hsink
  cases hout : block.outgoing with
  | nil =>
    have target' := hg.block?_addEdge source sink true sink
    rw [htarget] at target'
    by_cases hs : block.id = source
    · simp [calleeBehind?, Block.join, hout, hs, Graph.newEdge_addEdge, target', code]
    · simp [calleeBehind?, Block.join, hout, hs]
  | cons e rest =>
    have listed : e ∈ g.edgesOutOf b := by
      rw [← hg.outgoing_eq b block hb, hout]
      exact List.mem_cons_self
    obtain ⟨edge, he, _⟩ := Graph.mem_edgesOutOf.mp listed
    have he' : (g.addEdge source sink true).edge? e = some edge := Graph.edge?_addEdge he
    have head : (block.join g.edges.length source sink).outgoing.head? = some e := by
      simp only [Block.join, hout]
      split <;> rfl
    simp only [calleeBehind?, head, hout, List.head?_cons, Option.bind_some, he, he',
      hg.block?_addEdge, Option.bind_map]
    rfl

theorem blockSeenAlike_addBackEdge (source b : Nat) :
    BlockSeenAlike g (g.addEdge source sink true) b := by
  have hb' := hg.block?_addEdge source sink true b
  cases hb : g.block? b with
  | none =>
    rw [hb] at hb'
    exact .inl ⟨hb, hb'⟩
  | some block =>
    rw [hb] at hb'
    exact .inr ⟨block, _, hb, hb', rfl, rfl, calleeBehind?_join hg hsink hb⟩

include hsource

theorem walk_and_follow_addBackEdge (settings : Settings) (n : Nat) :
    WalksAgree (· = .exhausted) (fun _ => True) (fun _ => True) ((slicer settings g).walk g n)
        ((slicer settings (g.addEdge source sink true)).walk (g.addEdge source sink true) n) ∧
      FollowsAgree (· = .exhausted) (fun _ => True) (fun _ => True)
        ((slicer settings g).follow g n)
        ((slicer settings (g.addEdge source sink true)).follow (g.addEdge source sink true) n) := by
  have refuses : ∀ e reg, decide (e = g.edges.length) = true →
      (slicer settings (g.addEdge source sink true)).enterEdge e reg = pure false := by
    intro e reg he
    obtain rfl : e = g.edges.length := of_decide_eq_true he
    have block : g.block? source = some g.blocks[source] := List.getElem?_eq_getElem hsource
    exact enterEdge_back Graph.newEdge_addEdge (by rw [hg.block?_addEdge, block]; rfl) rfl
  rw [← (walk_and_follow_unlist refuses n).1, ← (walk_and_follow_unlist refuses n).2]
  have same : Settings.Agree (· = .exhausted) settings settings := ⟨.inl rfl, rfl, rfl, rfl⟩
  have hooks := slicer_hooksAgree (B := fun _ => True) (D := fun _ => True) same trivial
    fun b _ => blockSeenAlike_addBackEdge hg hsink source b
  induction n with
  | zero => exact ⟨fun _ _ _ _ _ _ _ => .inl rfl, fun _ _ _ _ _ => .inl rfl⟩
  | succ n ih =>
    obtain ⟨hw, hf⟩ := ih
    constructor
    · intro p reg bounds _ hb
      refine hooks.walkStep trivial (blocksAgree_addBackEdge hg p.block) reg hb hw hf
        (fun _ _ => trivial) ?_
      rintro e _ ⟨rfl, edge, he⟩
      exact edgesAgree_addBackEdge hg hw hf he
    · intro p address _
      refine hooks.followStep trivial (blocksAgree_addBackEdge hg p.block) address hw
        (fun _ _ => trivial) ?_
      rintro e _ ⟨rfl, edge, he⟩
      exact edgesAgree_addBackEdge hg hw hf he

theorem address_addBackEdge (settings : Settings) (b index : Nat) (opidx : Int) :
    Agree (· = .exhausted) (fun _ => True) (address settings g b index opidx)
      (address settings (g.addEdge source sink true) b index opidx) := by
  apply address_agree ⟨.inl rfl, rfl, rfl, rfl⟩ opidx
  · rw [hg.block?_addEdge, Option.map_map]
    rfl
  · intro op _ reg
    have walks := (walk_and_follow_addBackEdge hg hsource hsink settings settings.depth).1
    exact walks ⟨b, index⟩ reg _ trivial trivial

end Added

end Base

namespace Analysis

open WalkM

/-- Two routines have the same memory operands, and bases that are found in the first are found in
the second. -/
structure SameBases (settings : Settings) (g g' : Graph) : Prop where
  name : g'.name = g.name
  length : g'.blocks.length = g.blocks.length
  sites : g'.operandSites = g.operandSites
  bases : ∀ sites w w', (computeBases settings g sites).run w = .ok () w' →
    (computeBases settings g' sites).run w = .ok () w'

variable {settings : Settings} {g g' : Graph}

theorem computeBases_agree {E : Stop → Prop} {B : Nat → Prop}
    (h : ∀ b index opidx,
      Agree E B (Base.address settings g b index opidx) (Base.address settings g' b index opidx))
    (sites : List OperandSite) :
    Agree E B (computeBases settings g sites) (computeBases settings g' sites) := by
  induction sites with
  | nil => exact .ok _
  | cons s rest ih =>
    exact .bind (h s.block s.index s.opidx) fun _ => .bind (.modifyClient _) fun _ => ih

theorem SameBases.refl : SameBases settings g g := ⟨rfl, rfl, rfl, fun _ _ _ h => h⟩

theorem SameBases.trans {g'' : Graph} (h : SameBases settings g g')
    (h' : SameBases settings g' g'') : SameBases settings g g'' :=
  ⟨h'.name.trans h.name, h'.length.trans h.length, h'.sites.trans h.sites,
    fun sites w w' run => h'.bases sites w w' (h.bases sites w w' run)⟩

theorem sameBases_addBackEdge (settings : Settings) (hg : g.WellFormed) {source sink : Nat}
    (hsource : source < g.blocks.length)
    (hsink : ∃ block, g.block? sink = some block ∧ block.kind = .code) :
    SameBases settings g (g.addEdge source sink true) where
  name := rfl
  length := by rw [hg.blocks_addEdge, List.length_map]
  sites := hg.operandSites_addEdge
  bases sites w w' run := by
    have agree := computeBases_agree (Base.address_addBackEdge hg hsource hsink settings) sites
    exact agree.run_ok trivial run

theorem sameBases_addBackEdges (settings : Settings) (hg : g.WellFormed)
    {ends : List (Nat × Nat)}
    (hends : ∀ p ∈ ends,
      p.1 < g.blocks.length ∧ ∃ sink, g.block? p.2 = some sink ∧ sink.kind = .code) :
    SameBases settings g (g.addBackEdges ends) := by
  induction ends generalizing g with
  | nil => exact .refl
  | cons p ends ih =>
    obtain ⟨hsource, hsink⟩ := hends p List.mem_cons_self
    have one := sameBases_addBackEdge settings hg hsource hsink
    have inside : p.2 < g.blocks.length := by
      obtain ⟨block, hb, _⟩ := hsink
      exact (List.getElem?_eq_some_iff.mp hb).1
    refine one.trans (ih (hg.addEdge true hsource inside) fun q hq => ?_)
    obtain ⟨hs, block, hb, code⟩ := hends q (List.mem_cons_of_mem p hq)
    refine ⟨one.length ▸ hs, block.join g.edges.length p.1 p.2, ?_, code⟩
    rw [hg.block?_addEdge, hb]
    rfl

end Analysis

namespace Graph

variable {g : Graph} {settings : Settings} {r r' : RoutineFormulas}

/-- Back edges change neither the memory operands of a routine nor their base addresses. -/
theorem analyze_addBackEdges (hg : g.Built) (hs : settings.strict = false)
    {ends : List (Nat × Nat)}
    (hends : ∀ p ∈ ends,
      p.1 < g.blocks.length ∧ ∃ sink, g.block? p.2 = some sink ∧ sink.kind = .code)
    (h : g.analyze settings = .ok r) (h' : (g.addBackEdges ends).analyze settings = .ok r') :
    r'.sites = r.sites ∧
      ∀ s ∈ r.sites, ∃ f, r.base? s.id = some f ∧ r'.base? s.id = some f := by
  have same := Analysis.sameBases_addBackEdges settings hg.wellFormed hends
  obtain ⟨w, work, bases, _, sites, record⟩ := analyze_parts h
  obtain ⟨w', work', bases', _, sites', record'⟩ := analyze_parts h'
  have first := same.bases _ _ _ bases
  rw [same.name, same.length, same.sites, first] at bases'
  obtain rfl : w = w' := by
    cases bases'
    rfl
  have kept := (Analysis.recordStrides_contents record).1
  have kept' := (Analysis.recordStrides_contents record').1
  refine ⟨by rw [sites, sites', same.sites], fun s hm => ?_⟩
  obtain exhausted | ⟨r₁, h₁, described⟩ := analyze_spec hg.wellFormed hs
  · cases exhausted.symm.trans h
  · obtain rfl : r₁ = r := Except.ok.inj (h₁.symm.trans h)
    obtain ⟨f, hf⟩ := Option.isSome_iff_exists.mp (described.base s hm)
    exact ⟨f, hf, (kept' s.id).trans ((kept s.id).symm.trans hf)⟩

def openNest : Graph := (loopNestBlocks.addEdge 0 1 false).addEdge 1 2 false

theorem analyze_addBackEdges_openNest :
    ∃ r r', openNest.analyze {} = .ok r ∧
      (openNest.addBackEdges [(1, 1), (1, 0), (2, 0)]).analyze {} = .ok r' ∧ r.sites.length = 3 ∧
      r'.sites = r.sites ∧
        ∀ s ∈ r.sites, ∃ f, r.base? s.id = some f ∧ r'.base? s.id = some f := by
  obtain ⟨r, hr, sites⟩ : ∃ r ∈ (openNest.analyze {}).toOption, r.sites.length = 3 := by
    decide +kernel
  obtain ⟨r', hr', -⟩ : ∃ r ∈
      ((openNest.addBackEdges [(1, 1), (1, 0), (2, 0)]).analyze {}).toOption, True := by
    decide +kernel
  have h := ok_of_mem_toOption hr
  have h' := ok_of_mem_toOption hr'
  have start : Built ({ loopTree := [0, 0, 1, 0] } : Graph) :=
    .setLoopParents [0, 1, 0] rfl (.empty "")
  have built : openNest.Built :=
    .addEdge _ (by decide) (by decide) <| .addEdge _ (by decide) (by decide) <|
      .addBlock _ _ _ (.addBlock _ _ _ (.addBlock _ _ _ start))
  exact ⟨r, r', h, h', sites, analyze_addBackEdges built rfl (by decide) h h'⟩

end Graph

end AddressFormulas
