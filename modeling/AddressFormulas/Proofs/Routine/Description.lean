import AddressFormulas.Proofs.Routine.Reading
import Mathlib.Data.List.Forall2

/-!
What the text of a routine says, line by line, and that a routine that is read from a text is what
its lines say: a block for each line that begins one, with the micro-ops up to the next such line, an
edge for each line that joins two blocks, and the loops of the last line that gives loops.
-/

namespace AddressFormulas.Notation

inductive Statement where
  | nothing
  | name (words : List String)
  | loops (words : List String)
  | block (words : List String)
  | edge (words : List String)
  | microOp (words : List String)

namespace Statement

def ofWords : List String → Statement
  | "CFG" :: rest => name rest
  | "LOOPS" :: rest => loops rest
  | "BLOCK" :: rest => block ("BLOCK" :: rest)
  | "EDGE" :: rest => edge rest
  | words => microOp words

def ofLine (raw : List Char) : Statement :=
  match Text.trim raw with
  | [] => nothing
  | '#' :: _ => nothing
  | trimmed => ofWords (Text.words trimmed)

def loops? : Statement → Option (List String)
  | loops words => some words
  | _ => none

def block? : Statement → Option (List String)
  | block words => some words
  | _ => none

def edge? : Statement → Option (List String)
  | edge words => some words
  | _ => none

def microOp? : Statement → Option (List String)
  | microOp words => some words
  | _ => none

end Statement

structure Line where
  number : Nat
  content : Statement

def linesFrom : Nat → List (List Char) → List Line
  | _, [] => []
  | n, raw :: rest => ⟨n, .ofLine raw⟩ :: linesFrom (n + 1) rest

def saying (kind? : Statement → Option (List String)) (lines : List Line) :
    List (Nat × List String) :=
  lines.filterMap fun l => (kind? l.content).map fun words => (l.number, words)

/-- A line that begins a block, and the lines after it up to the next such line. -/
structure Section where
  number : Nat
  words : List String
  lines : List Line

def Line.inBlock (l : Line) : Bool := l.content.block?.isNone

def sections : List Line → List Section
  | [] => []
  | l :: rest =>
    match l.content.block? with
    | some words => ⟨l.number, words, rest.takeWhile Line.inBlock⟩ :: sections rest
    | none => sections rest

/-- The first micro-op of a run with one address has number zero, and numbers grow by one. -/
structure Numbered (ops : List MicroOp) : Prop where
  first : ∀ u, ops.head? = some u → u.idx = 0
  next : ∀ k u v, ops[k]? = some u → ops[k + 1]? = some v →
    v.idx = if u.pc = v.pc then u.idx + 1 else 0

/-- The micro-ops of a block are those of its lines, numbered, and it has their addresses. -/
structure Section.Fills (s : Section) (block : Block) : Prop where
  kind : block.kind = .code
  ops : List.Forall₂ (fun line u => readMicroOp line.1 line.2 = .ok { u with idx := 0 })
    (saying Statement.microOp? s.lines) block.ops
  numbered : Numbered block.ops
  start : block.start = (block.ops.head?.map MicroOp.pc).getD 0
  stop : block.stop = (block.ops.map MicroOp.nextPc).max?.getD block.start

/-- A surrogate has an address of its own and no micro-ops, whatever lines follow. -/
structure Stands (place target : Nat) (block : Block) : Prop where
  kind : block.kind = .surrogate target
  ops : block.ops = []
  start : block.start = place
  stop : block.stop = place

structure Section.Describes (s : Section) (block : Block) : Prop where
  rank : readAttribute s.words "rank" 0 (readRank s.number) = .ok block.rank
  marker : readAttribute s.words "marker" 0 (readCount s.number) = .ok block.marker
  entry : block.isEntry = s.words.contains "entry"
  contents : (readSurrogate s.number s.words = .ok none ∧ s.Fills block) ∨
    ∃ place target, readSurrogate s.number s.words = .ok (some (place, target)) ∧
      Stands place target block

def Section.Declares (s : Section) (id : Nat) : Prop :=
  ∃ text, s.words[1]? = some text ∧ readNatural s.number text = .ok id

def LastDeclared (ss : List Section) (id b : Nat) : Prop :=
  (∃ s, ss[b]? = some s ∧ s.Declares id) ∧ ∀ c s, b < c → ss[c]? = some s → ¬s.Declares id

structure Joins (ss : List Section) (line : Nat × List String) (edge : Edge) : Prop where
  ends : ∃ sourceText sinkText rest source sink, line.2 = sourceText :: sinkText :: rest ∧
    readNatural line.1 sourceText = .ok source ∧ LastDeclared ss source edge.source ∧
    readNatural line.1 sinkText = .ok sink ∧ LastDeclared ss sink edge.sink ∧
    edge.isBack = rest.contains "back"

def Nests (lines : List Line) (before parents : List Nat) : Prop :=
  match (saying Statement.loops? lines).getLast? with
  | none => parents = before
  | some line => line.2.mapM (readCount line.1) = .ok parents

structure Describes (lines : List Line) (g : Graph) : Prop where
  blocks : List.Forall₂ Section.Describes (sections lines) g.blocks
  edges : List.Forall₂ (Joins (sections lines)) (saying Statement.edge? lines) g.edges
  block_id : ∀ b block, g.block? b = some block → block.id = b
  edge_id : ∀ e edge, g.edge? e = some edge → edge.id = e
  incoming : ∀ b block, g.block? b = some block → block.incoming = g.edgesInto b
  outgoing : ∀ b block, g.block? b = some block → block.outgoing = g.edgesOutOf b
  loops : ∃ parents, g.loopTree = 0 :: parents ∧ Nests lines [] parents ∧
    ∀ i parent, parents[i]? = some parent → parent < i + 1

/-! Reading one line. -/

inductive Step (n : Nat) (d : Draft) : Statement → Draft → Prop
  | nothing : Step n d .nothing d
  | name (words : List String) (name : String) :
      Step n d (.name words) { d with graph.name := name }
  | loops {words : List String} {parents : List Nat} :
      words.mapM (readCount n) = .ok parents →
      Step n d (.loops words) { d with graph.loopTree := 0 :: parents }
  | block {words : List String} {b : BlockDraft} : readBlock n words = .ok b →
      Step n d (.block words) { d.finishBlock with current := some b }
  | edge {trimmed : List Char} {words : List String} {e : EdgeLine} :
      readEdge n trimmed words = .ok e →
      Step n d (.edge words) { d with edges := d.edges ++ [e] }
  | microOp {words : List String} {b : BlockDraft} {u : MicroOp} : d.current = some b →
      readMicroOp n words = .ok u →
      Step n d (.microOp words) { d with current := some (b.add u) }

theorem loopTree_of_readLoops {n : Nat} {words : List String} {g h : Graph}
    (hr : readLoops n words g = .ok h) :
    ∃ parents, words.mapM (readCount n) = .ok parents ∧ h = { g with loopTree := 0 :: parents } := by
  unfold readLoops at hr
  cases hp : words.mapM (readCount n) with
  | error e => simp [hp, bind, Except.bind] at hr
  | ok parents =>
    simp only [hp, bind, Except.bind] at hr
    split at hr
    · next h' hs =>
      cases hr
      exact ⟨parents, rfl, (Graph.setLoopParents_eq_ok hs).1⟩
    · cases hr

theorem readWords_step (n : Nat) (trimmed : List Char) (words : List String) (d : Draft) :
    wp (readWords n trimmed words) (fun _ d' => Step n d (.ofWords words) d') (fun _ _ => True) d := by
  unfold readWords Statement.ofWords
  simp only [wp_bind, wp_get]
  split
  · exact .name _ _
  · simp only [wp_bind]
    apply ofExcept_wp
    intro g hg
    obtain ⟨parents, hp, rfl⟩ := loopTree_of_readLoops hg
    exact .loops hp
  · simp only [wp_bind, wp_set]
    apply ofExcept_wp
    intro b hb
    exact .block hb
  · simp only [wp_bind]
    apply ofExcept_wp
    intro e he
    exact .edge he
  · split
    · trivial
    · next b hb =>
      simp only [wp_bind]
      apply ofExcept_wp
      intro u hu
      exact .microOp hb hu

theorem Statement.ofLine_eq {raw : List Char} (hblank : Text.trim raw = [] → False)
    (hcomment : ∀ cs, Text.trim raw = '#' :: cs → False) :
    ofLine raw = ofWords (Text.words (Text.trim raw)) := by
  unfold ofLine
  split
  · next h => exact (hblank h).elim
  · next cs h => exact (hcomment cs h).elim
  · rfl

theorem readLine_step (n : Nat) (raw : List Char) (d : Draft) :
    wp (readLine n raw) (fun _ d' => Step n d (.ofLine raw) d') (fun _ _ => True) d := by
  unfold readLine
  split
  · next h =>
    rw [Statement.ofLine, h]
    exact .nothing
  · next h =>
    rw [Statement.ofLine, h]
    exact .nothing
  · next hblank hcomment =>
    rw [Statement.ofLine_eq hblank hcomment]
    exact readWords_step n _ _ d

/-! Reading all lines. -/

def BlockDraft.block (b : BlockDraft) (i : Nat) : Block :=
  match b.surrogate with
  | some (place, target) =>
    { id := i, start := place, stop := place, rank := b.rank, marker := b.marker,
      isEntry := b.isEntry, kind := .surrogate target }
  | none =>
    { id := i, start := (Graph.addressRange b.ops).1, stop := (Graph.addressRange b.ops).2,
      rank := b.rank, marker := b.marker, isEntry := b.isEntry, ops := b.ops }

def finished : Nat → List BlockDraft → List Block
  | _, [] => []
  | i, b :: rest => b.block i :: finished (i + 1) rest

/-- Later blocks take over the numbers with which earlier ones were declared. -/
def declare : Nat → List BlockDraft → Table Nat Nat → Table Nat Nat
  | _, [], ids => ids
  | i, b :: rest, ids => declare (i + 1) rest (ids.insert b.id i)

def ReadsOps (lines : List Line) (us : List MicroOp) : Prop :=
  List.Forall₂ (fun line u => readMicroOp line.1 line.2 = .ok u) (saying Statement.microOp? lines) us

def Completed (current : Option BlockDraft) (lines : List Line) (opened : List BlockDraft) : Prop :=
  match current with
  | none => opened = []
  | some b => ∃ us, ReadsOps (lines.takeWhile Line.inBlock) us ∧ opened = [us.foldl BlockDraft.add b]

def Section.Drafts (s : Section) (b : BlockDraft) : Prop :=
  ∃ header us, readBlock s.number s.words = .ok header ∧ ReadsOps s.lines us ∧
    b = us.foldl BlockDraft.add header

def ReadsEdges (lines : List Line) (es : List EdgeLine) : Prop :=
  List.Forall₂ (fun line e => ∃ trimmed, readEdge line.1 trimmed line.2 = .ok e)
    (saying Statement.edge? lines) es

structure Becomes (d : Draft) (lines : List Line) (d' : Draft) : Prop where
  blocks : ∃ opened drafts, Completed d.current lines opened ∧
    List.Forall₂ Section.Drafts (sections lines) drafts ∧
    d'.finishBlock.graph.blocks =
      d.graph.blocks ++ finished d.graph.blocks.length (opened ++ drafts) ∧
    d'.finishBlock.ids = declare d.graph.blocks.length (opened ++ drafts) d.ids
  edges : ∃ es, d'.edges = d.edges ++ es ∧ ReadsEdges lines es
  joined : d'.graph.edges = d.graph.edges
  loops : ∀ before, d.graph.loopTree = 0 :: before →
    ∃ parents, d'.graph.loopTree = 0 :: parents ∧ Nests lines before parents

theorem finishBlock_blocks {d : Draft} {b : BlockDraft} (hb : d.current = some b) :
    d.finishBlock.graph.blocks = d.graph.blocks ++ [b.block d.graph.blocks.length] := by
  simp only [Draft.finishBlock, hb, BlockDraft.block]
  cases hs : b.surrogate <;> cases he : b.isEntry <;>
    simp [Graph.addBlock, Graph.addSurrogate, Graph.addNode, Graph.setEntry, Graph.modifyBlock,
      List.modify_eq_take_drop]

theorem finishBlock_ids {d : Draft} {b : BlockDraft} (hb : d.current = some b) :
    d.finishBlock.ids = d.ids.insert b.id d.graph.blocks.length := by
  simp [Draft.finishBlock, hb]

theorem finishBlock_keeps (d : Draft) : d.finishBlock.edges = d.edges ∧
    d.finishBlock.graph.edges = d.graph.edges ∧ d.finishBlock.graph.loopTree = d.graph.loopTree := by
  unfold Draft.finishBlock
  split
  · exact ⟨rfl, rfl, rfl⟩
  · next b _ =>
    cases hs : b.surrogate <;> cases he : b.isEntry <;>
      simp [Graph.addBlock, Graph.addSurrogate, Graph.addNode, Graph.setEntry, Graph.modifyBlock]

theorem Becomes.refl (d : Draft) : Becomes d [] d where
  blocks := by
    cases hc : d.current with
    | none => exact ⟨[], [], rfl, .nil, by simp [Draft.finishBlock, hc, finished],
        by simp [Draft.finishBlock, hc, declare]⟩
    | some b => exact ⟨[b], [], ⟨[], .nil, rfl⟩, .nil, finishBlock_blocks hc, finishBlock_ids hc⟩
  edges := ⟨[], by simp, .nil⟩
  joined := rfl
  loops before h := ⟨before, h, rfl⟩

section Step

variable {d d₁ d' : Draft} {n : Nat} {l : Line} {lines : List Line}

theorem Becomes.blocks_aside (h : Becomes d₁ lines d') (hl : l.content.block? = none)
    (hu : l.content.microOp? = none)
    (hd : d₁.current = d.current ∧ d₁.graph.blocks = d.graph.blocks ∧ d₁.ids = d.ids) :
    ∃ opened drafts, Completed d.current (l :: lines) opened ∧
      List.Forall₂ Section.Drafts (sections (l :: lines)) drafts ∧
      d'.finishBlock.graph.blocks =
        d.graph.blocks ++ finished d.graph.blocks.length (opened ++ drafts) ∧
      d'.finishBlock.ids = declare d.graph.blocks.length (opened ++ drafts) d.ids := by
  obtain ⟨opened, drafts, completed, hdrafts, hblocks, hids⟩ := h.blocks
  obtain ⟨current, blocks, ids⟩ := hd
  rw [current] at completed
  rw [blocks] at hblocks hids
  rw [ids] at hids
  refine ⟨opened, drafts, ?_, ?_, hblocks, hids⟩
  · unfold Completed at completed ⊢
    split at completed
    · exact completed
    · obtain ⟨us, reads, rfl⟩ := completed
      refine ⟨us, ?_, rfl⟩
      simpa [ReadsOps, saying, List.takeWhile_cons, Line.inBlock, hl, hu] using reads
  · simpa [sections, hl] using hdrafts

theorem Becomes.edges_aside (h : Becomes d₁ lines d') (hl : l.content.edge? = none)
    (hd : d₁.edges = d.edges) : ∃ es, d'.edges = d.edges ++ es ∧ ReadsEdges (l :: lines) es := by
  obtain ⟨es, hes, reads⟩ := h.edges
  refine ⟨es, hd ▸ hes, ?_⟩
  simpa [ReadsEdges, saying, hl] using reads

theorem Becomes.loops_aside (h : Becomes d₁ lines d') (hl : l.content.loops? = none)
    (hd : d₁.graph.loopTree = d.graph.loopTree) (before : List Nat)
    (hbefore : d.graph.loopTree = 0 :: before) :
    ∃ parents, d'.graph.loopTree = 0 :: parents ∧ Nests (l :: lines) before parents := by
  obtain ⟨parents, hp, nests⟩ := h.loops before (hd.trans hbefore)
  refine ⟨parents, hp, ?_⟩
  simpa [Nests, saying, hl] using nests

theorem Nests.of_loops {words : List String} {given before parents : List Nat}
    (h : Nests lines given parents) (hgiven : words.mapM (readCount n) = .ok given) :
    Nests (⟨n, .loops words⟩ :: lines) before parents := by
  have said : saying Statement.loops? (⟨n, .loops words⟩ :: lines) =
      (n, words) :: saying Statement.loops? lines := rfl
  unfold Nests at h ⊢
  rw [said, List.getLast?_cons]
  cases hlast : (saying Statement.loops? lines).getLast? with
  | none =>
    rw [hlast] at h
    subst h
    exact hgiven
  | some last =>
    rw [hlast] at h
    exact h

theorem Becomes.blocks_opened {words : List String} {b : BlockDraft}
    (hb : readBlock n words = .ok b)
    (h : Becomes { d.finishBlock with current := some b } lines d') :
    ∃ opened drafts, Completed d.current (⟨n, .block words⟩ :: lines) opened ∧
      List.Forall₂ Section.Drafts (sections (⟨n, .block words⟩ :: lines)) drafts ∧
      d'.finishBlock.graph.blocks =
        d.graph.blocks ++ finished d.graph.blocks.length (opened ++ drafts) ∧
      d'.finishBlock.ids = declare d.graph.blocks.length (opened ++ drafts) d.ids := by
  obtain ⟨opened, drafts, ⟨us, reads, rfl⟩, hdrafts, hblocks, hids⟩ := h.blocks
  have headed : Section.Drafts ⟨n, words, lines.takeWhile Line.inBlock⟩ (us.foldl BlockDraft.add b) :=
    ⟨b, us, hb, reads, rfl⟩
  have parts : List.Forall₂ Section.Drafts (sections (⟨n, .block words⟩ :: lines))
      (us.foldl BlockDraft.add b :: drafts) := .cons headed hdrafts
  cases hc : d.current with
  | none =>
    have same : d.finishBlock = d := by simp [Draft.finishBlock, hc]
    rw [same] at hblocks hids
    exact ⟨[], _, rfl, parts, hblocks, hids⟩
  | some c =>
    refine ⟨[c], _, ⟨[], ?_, rfl⟩, parts, ?_, ?_⟩
    · simp [ReadsOps, saying, Line.inBlock, Statement.block?]
    · rw [hblocks]
      simp [finishBlock_blocks hc, finished]
    · rw [hids]
      simp [finishBlock_blocks hc, finishBlock_ids hc, declare]

theorem Becomes.step {content : Statement} (hstep : Step n d content d₁)
    (h : Becomes d₁ lines d') : Becomes d (⟨n, content⟩ :: lines) d' := by
  cases hstep with
  | nothing =>
    exact ⟨h.blocks_aside rfl rfl ⟨rfl, rfl, rfl⟩, h.edges_aside rfl rfl, h.joined,
      h.loops_aside rfl rfl⟩
  | name words name =>
    exact ⟨h.blocks_aside rfl rfl ⟨rfl, rfl, rfl⟩, h.edges_aside rfl rfl, h.joined,
      h.loops_aside rfl rfl⟩
  | @loops words given hgiven =>
    refine ⟨h.blocks_aside rfl rfl ⟨rfl, rfl, rfl⟩, h.edges_aside rfl rfl, h.joined, ?_⟩
    intro before _
    obtain ⟨parents, hp, nests⟩ := h.loops given rfl
    exact ⟨parents, hp, nests.of_loops hgiven⟩
  | @block words b hb =>
    obtain ⟨kedges, kjoined, kloops⟩ := finishBlock_keeps d
    exact ⟨h.blocks_opened hb, h.edges_aside rfl kedges, h.joined.trans kjoined,
      h.loops_aside rfl kloops⟩
  | @edge trimmed words e he =>
    obtain ⟨es, hes, reads⟩ := h.edges
    refine ⟨h.blocks_aside rfl rfl ⟨rfl, rfl, rfl⟩, ⟨e :: es, ?_, ?_⟩, h.joined,
      h.loops_aside rfl rfl⟩
    · simpa using hes
    · exact .cons ⟨trimmed, he⟩ reads
  | @microOp words b u hc hu =>
    obtain ⟨opened, drafts, ⟨us, reads, rfl⟩, hdrafts, hblocks, hids⟩ := h.blocks
    refine ⟨⟨[(u :: us).foldl BlockDraft.add b], drafts, ?_, hdrafts, hblocks, hids⟩,
      h.edges_aside rfl rfl, h.joined, h.loops_aside rfl rfl⟩
    rw [hc]
    exact ⟨u :: us, .cons hu reads, rfl⟩

end Step

theorem readLines_becomes (n : Nat) (raws : List (List Char)) (d : Draft) :
    wp (readLines n raws) (fun _ d' => Becomes d (linesFrom n raws) d') (fun _ _ => True) d := by
  induction raws generalizing n d with
  | nil => exact .refl d
  | cons raw rest ih =>
    simp only [readLines, wp_bind]
    apply wp_imp (readLine_step n raw d)
    intro _ d₁ hstep
    apply wp_imp (ih (n + 1) d₁)
    intro _ d' h
    exact .step hstep h

/-! What the drafts of blocks come to. -/

theorem addWord_idx {n : Nat} {d d' : OpDraft} {word : String} (h : addWord n d word = .ok d') :
    d'.op.idx = d.op.idx := by
  unfold addWord at h
  simp only [bind, Except.bind, pure, Except.pure] at h
  repeat' split at h
  all_goals first | cases h; rfl | cases h

theorem readMicroOp_idx {n : Nat} {words : List String} {u : MicroOp}
    (h : readMicroOp n words = .ok u) : u.idx = 0 := by
  have all : ∀ (rest : List String) (d d' : OpDraft), rest.foldlM (addWord n) d = .ok d' →
      d'.op.idx = d.op.idx := by
    intro rest
    induction rest with
    | nil =>
      intro d d' hd
      cases hd
      rfl
    | cons word rest ih =>
      intro d d' hd
      rw [List.foldlM_cons] at hd
      cases hw : addWord n d word with
      | error e => simp [hw, bind, Except.bind] at hd
      | ok d₁ =>
        rw [hw] at hd
        rw [ih d₁ d' hd, addWord_idx hw]
  unfold readMicroOp at h
  simp only [bind, Except.bind, pure, Except.pure] at h
  repeat' split at h
  all_goals try cases h
  next hd _ => rw [all _ _ _ hd]

theorem Numbered.concat {ops : List MicroOp} {v : MicroOp} (h : Numbered ops)
    (hv : v.idx = match ops.getLast? with
      | some last => if last.pc = v.pc then last.idx + 1 else 0
      | none => 0) : Numbered (ops ++ [v]) where
  first u hu := by
    cases ops with
    | nil =>
      simp only [List.nil_append, List.head?_cons, Option.some.injEq] at hu
      simpa [← hu] using hv
    | cons u' rest => exact h.first u (by simpa using hu)
  next k u w hu hw := by
    by_cases hk : k + 1 < ops.length
    · rw [List.getElem?_append_left (by omega)] at hu hw
      exact h.next k u w hu hw
    · have hlast : k + 1 = ops.length := by
        have := (List.getElem?_eq_some_iff.mp hw).1
        simp at this
        omega
      rw [List.getElem?_append_left (by omega)] at hu
      obtain rfl : v = w := by simpa [hlast] using hw
      have end_eq : ops.getLast? = some u := by
        rw [List.getLast?_eq_getElem?, ← hlast]
        exact hu
      rw [hv, end_eq]

theorem foldl_add {read : List (Nat × List String)} {us : List MicroOp}
    (h : List.Forall₂ (fun line u => readMicroOp line.1 line.2 = .ok u) read us) (b : BlockDraft) :
    ∃ vs, us.foldl BlockDraft.add b = { b with ops := b.ops ++ vs } ∧
      List.Forall₂ (fun line v => readMicroOp line.1 line.2 = .ok { v with idx := 0 }) read vs ∧
      (Numbered b.ops → Numbered (b.ops ++ vs)) := by
  induction h generalizing b with
  | nil => exact ⟨[], by simp, .nil, by simp⟩
  | @cons line u read us hu _ ih =>
    obtain ⟨vs, hfold, same, numbered⟩ := ih (b.add u)
    have zero := readMicroOp_idx hu
    obtain ⟨v, hops, hv, hidx⟩ : ∃ v, (b.add u).ops = b.ops ++ [v] ∧ u = { v with idx := 0 } ∧
        v.idx = match b.ops.getLast? with
          | some last => if last.pc = v.pc then last.idx + 1 else 0
          | none => 0 := by
      refine ⟨_, rfl, ?_, ?_⟩
      · rw [← zero]
      · cases b.ops.getLast? <;> simp [zero]
    refine ⟨v :: vs, ?_, .cons (hv ▸ hu) same, ?_⟩
    · rw [List.foldl_cons, hfold, hops]
      simp [BlockDraft.add]
    · intro h
      have := numbered (hops ▸ h.concat hidx)
      rw [hops] at this
      simpa using this

theorem addressRange_eq (ops : List MicroOp) :
    (Graph.addressRange ops).1 = (ops.head?.map MicroOp.pc).getD 0 ∧
      (Graph.addressRange ops).2 = (ops.map MicroOp.nextPc).max?.getD (Graph.addressRange ops).1 := by
  cases ops with
  | nil => simp [Graph.addressRange]
  | cons u us =>
    rw [List.map_cons, List.max?_cons', List.foldl_map]
    exact ⟨rfl, rfl⟩

structure Heads (n : Nat) (words : List String) (b : BlockDraft) : Prop where
  id : ∃ text, words[1]? = some text ∧ readNatural n text = .ok b.id
  rank : readAttribute words "rank" 0 (readRank n) = .ok b.rank
  marker : readAttribute words "marker" 0 (readCount n) = .ok b.marker
  entry : b.isEntry = words.contains "entry"
  surrogate : readSurrogate n words = .ok b.surrogate
  ops : b.ops = []

theorem heads_of_readBlock {n : Nat} {words : List String} {b : BlockDraft}
    (h : readBlock n words = .ok b) : Heads n words b := by
  unfold readBlock at h
  split at h
  · next keyword text rest =>
    simp only [bind, Except.bind, pure, Except.pure] at h
    repeat' split at h
    all_goals try cases h
    next id hid _ rank hrank _ marker hmarker _ surrogate hsurrogate =>
    exact ⟨⟨text, rfl, hid⟩, hrank, hmarker, rfl, hsurrogate, rfl⟩
  · cases h

theorem Section.Drafts.describes {s : Section} {b : BlockDraft} (h : s.Drafts b) (i : Nat) :
    s.Describes (b.block i) := by
  obtain ⟨header, us, hread, reads, rfl⟩ := h
  have heads := heads_of_readBlock hread
  obtain ⟨vs, hfold, same, numbered⟩ := foldl_add reads header
  have empty : Numbered [] := ⟨by simp, by simp⟩
  rw [heads.ops, List.nil_append] at hfold numbered
  rw [hfold]
  have surrogate := heads.surrogate
  unfold BlockDraft.block
  split
  · next place target hs =>
    rw [show header.surrogate = some (place, target) from hs] at surrogate
    exact ⟨heads.rank, heads.marker, heads.entry,
      .inr ⟨place, target, surrogate, rfl, rfl, rfl, rfl⟩⟩
  · next hs =>
    rw [show header.surrogate = none from hs] at surrogate
    obtain ⟨hstart, hstop⟩ := addressRange_eq vs
    exact ⟨heads.rank, heads.marker, heads.entry,
      .inl ⟨surrogate, rfl, same, numbered empty, hstart, hstop⟩⟩

theorem Section.Drafts.declares {s : Section} {b : BlockDraft} (h : s.Drafts b) (id : Nat) :
    s.Declares id ↔ b.id = id := by
  obtain ⟨header, us, hread, reads, rfl⟩ := h
  obtain ⟨vs, hfold, _, _⟩ := foldl_add reads header
  obtain ⟨text, htext, hid⟩ := (heads_of_readBlock hread).id
  rw [hfold]
  constructor
  · rintro ⟨text', htext', hid'⟩
    rw [htext] at htext'
    cases htext'
    rw [hid] at hid'
    exact Except.ok.inj hid'
  · rintro rfl
    exact ⟨text, htext, hid⟩

theorem get?_declare {drafts : List BlockDraft} {i : Nat} {ids : Table Nat Nat} {id n : Nat}
    (h : (declare i drafts ids).get? id = some n) :
    (∃ k b, drafts[k]? = some b ∧ b.id = id ∧ n = i + k ∧
      ∀ c b', k < c → drafts[c]? = some b' → b'.id ≠ id) ∨
    (ids.get? id = some n ∧ ∀ b ∈ drafts, b.id ≠ id) := by
  induction drafts generalizing i ids with
  | nil => exact .inr ⟨h, by simp⟩
  | cons b rest ih =>
    obtain ⟨k, b', hb', hid, rfl, later⟩ | ⟨hold, others⟩ := ih h
    · refine .inl ⟨k + 1, b', by simpa using hb', hid, by omega, ?_⟩
      intro c b'' hc hb''
      obtain ⟨c, rfl⟩ : ∃ j, c = j + 1 := ⟨c - 1, by omega⟩
      exact later c b'' (by omega) (by simpa using hb'')
    · rw [Table.get?_insert] at hold
      split at hold
      · next hid =>
        cases hold
        refine .inl ⟨0, b, rfl, ?_, rfl, ?_⟩
        · simpa using hid.symm
        · intro c b' hc hb'
          obtain ⟨c, rfl⟩ : ∃ j, c = j + 1 := ⟨c - 1, by omega⟩
          exact others b' (List.mem_of_getElem? (by simpa using hb'))
      · next hid =>
        refine .inr ⟨hold, ?_⟩
        intro b' hb'
        obtain rfl | hb' := List.mem_cons.mp hb'
        · exact fun he => hid (by simpa using he.symm)
        · exact others b' hb'

theorem lastDeclared_of_declare {ss : List Section} {drafts : List BlockDraft}
    (h : List.Forall₂ Section.Drafts ss drafts) {id b : Nat}
    (hid : (declare 0 drafts {}).get? id = some b) : LastDeclared ss id b := by
  obtain ⟨same, each⟩ := List.forall₂_iff_get.mp h
  obtain ⟨k, draft, hk, named, rfl, later⟩ | ⟨none, _⟩ := get?_declare hid
  · rw [Nat.zero_add]
    constructor
    · obtain ⟨hlt, rfl⟩ := List.getElem?_eq_some_iff.mp hk
      have hs := each k (by omega) hlt
      exact ⟨ss[k], List.getElem?_eq_getElem (by omega), (hs.declares id).mpr named⟩
    · intro c s hc hs declares
      obtain ⟨hlt, rfl⟩ := List.getElem?_eq_some_iff.mp hs
      have hdraft := each c hlt (by omega)
      have named := (hdraft.declares id).mp declares
      exact later c _ hc (List.getElem?_eq_getElem (by omega)) named
  · simp at none

/-! Joining the blocks. -/

theorem readEdge_eq {n : Nat} {trimmed : List Char} {words : List String} {e : EdgeLine}
    (h : readEdge n trimmed words = .ok e) :
    ∃ sourceText sinkText rest, words = sourceText :: sinkText :: rest ∧
      readNatural n sourceText = .ok e.source ∧ readNatural n sinkText = .ok e.sink ∧
      e.isBack = rest.contains "back" ∧ e.line = n := by
  unfold readEdge at h
  split at h
  · next sourceText sinkText rest =>
    simp only [bind, Except.bind, pure, Except.pure] at h
    repeat' split at h
    all_goals try cases h
    next source hsource _ sink hsink =>
    exact ⟨sourceText, sinkText, rest, rfl, hsource, hsink, rfl, rfl⟩
  · cases h

def unlinked (block : Block) : Block := { block with incoming := [], outgoing := [] }

theorem addEdgeLine_eq {ids : Table Nat Nat} {g h : Graph} {e : EdgeLine}
    (hr : addEdgeLine ids g e = .ok h) :
    h.blocks.map unlinked = g.blocks.map unlinked ∧ h.loopTree = g.loopTree ∧
      ∃ edge, h.edges = g.edges ++ [edge] ∧ ids.get? e.source = some edge.source ∧
        ids.get? e.sink = some edge.sink ∧ edge.isBack = e.isBack := by
  unfold addEdgeLine at hr
  simp only [bind, Except.bind, pure, Except.pure] at hr
  repeat' split at hr
  all_goals try cases hr
  next source hsource _ sink hsink =>
  have kept : ∀ (blocks : List Block) (b : Nat) (f : Block → Block),
      (∀ block, unlinked (f block) = unlinked block) →
      (blocks.modify b f).map unlinked = blocks.map unlinked := by
    intro blocks b f hf
    apply List.ext_getElem?
    intro i
    rw [List.getElem?_map, List.getElem?_map, List.getElem?_modify]
    by_cases hi : b = i
    · cases blocks[i]? <;> simp [hi, hf]
    · simp [hi]
  refine ⟨?_, rfl, ⟨g.edges.length, source, sink, e.isBack⟩, rfl, get?_of_findBlock hsource,
    get?_of_findBlock hsink, rfl⟩
  apply (kept _ sink _ ?_).trans (kept _ source _ ?_)
  · intro block
    rfl
  · intro block
    rfl

theorem addEdgeLines_eq {ids : Table Nat Nat} {es : List EdgeLine} {g h : Graph}
    (hr : es.foldlM (addEdgeLine ids) g = .ok h) :
    h.blocks.map unlinked = g.blocks.map unlinked ∧ h.loopTree = g.loopTree ∧
      ∃ new, h.edges = g.edges ++ new ∧ List.Forall₂ (fun e edge =>
        ids.get? e.source = some edge.source ∧ ids.get? e.sink = some edge.sink ∧
          edge.isBack = e.isBack) es new := by
  induction es generalizing g with
  | nil =>
    cases hr
    exact ⟨rfl, rfl, [], by simp, .nil⟩
  | cons e rest ih =>
    rw [List.foldlM_cons] at hr
    cases hs : addEdgeLine ids g e with
    | error x => simp [hs, bind, Except.bind] at hr
    | ok g₁ =>
      rw [hs] at hr
      obtain ⟨blocks, loops, edge, hedge, ends⟩ := addEdgeLine_eq hs
      obtain ⟨blocks', loops', new, hnew, each⟩ := ih hr
      refine ⟨blocks'.trans blocks, loops'.trans loops, edge :: new, ?_, .cons ends each⟩
      rw [hnew, hedge, List.append_assoc, List.singleton_append]

/-! The whole. -/

theorem Section.Describes.of_unlinked {s : Section} {block block' : Block} (h : s.Describes block)
    (he : unlinked block' = unlinked block) : s.Describes block' := by
  obtain ⟨id, start, stop, rank, marker, isEntry, kind, ops, incoming, outgoing⟩ := block
  obtain ⟨id', start', stop', rank', marker', isEntry', kind', ops', incoming', outgoing'⟩ := block'
  simp only [unlinked, Block.mk.injEq] at he
  obtain ⟨rfl, rfl, rfl, rfl, rfl, rfl, rfl, rfl, -⟩ := he
  obtain ⟨hrank, hmarker, hentry, contents⟩ := h
  refine ⟨hrank, hmarker, hentry, ?_⟩
  obtain ⟨code, fills⟩ | ⟨place, target, surrogate, stands⟩ := contents
  · exact .inl ⟨code, fills.kind, fills.ops, fills.numbered, fills.start, fills.stop⟩
  · exact .inr ⟨place, target, surrogate, stands.kind, stands.ops, stands.start, stands.stop⟩

theorem describes_finished {ss : List Section} {drafts : List BlockDraft}
    (h : List.Forall₂ Section.Drafts ss drafts) (i : Nat) :
    List.Forall₂ Section.Describes ss (finished i drafts) := by
  induction h generalizing i with
  | nil => exact .nil
  | cons hs _ ih => exact .cons (hs.describes i) (ih (i + 1))

theorem describes_of_unlinked {ss : List Section} {blocks blocks' : List Block}
    (h : List.Forall₂ Section.Describes ss blocks)
    (he : blocks'.map unlinked = blocks.map unlinked) :
    List.Forall₂ Section.Describes ss blocks' := by
  induction h generalizing blocks' with
  | nil =>
    obtain rfl : blocks' = [] := by simpa using he
    exact .nil
  | cons hs _ ih =>
    obtain _ | ⟨block', rest'⟩ := blocks'
    · simp at he
    · simp only [List.map_cons, List.cons.injEq] at he
      exact .cons (hs.of_unlinked he.1) (ih he.2)

theorem joins_of_reads {ss : List Section} {ids : Table Nat Nat}
    (hids : ∀ id b, ids.get? id = some b → LastDeclared ss id b)
    {read : List (Nat × List String)} {es : List EdgeLine} {edges : List Edge}
    (hr : List.Forall₂ (fun line e => ∃ trimmed, readEdge line.1 trimmed line.2 = .ok e) read es)
    (he : List.Forall₂ (fun e edge => ids.get? e.source = some edge.source ∧
      ids.get? e.sink = some edge.sink ∧ edge.isBack = e.isBack) es edges) :
    List.Forall₂ (Joins ss) read edges := by
  induction hr generalizing edges with
  | nil =>
    cases he
    exact .nil
  | @cons line e _ _ hread _ ih =>
    obtain _ | ⟨⟨hsource, hsink, hback⟩, rest⟩ := he
    obtain ⟨trimmed, hread⟩ := hread
    obtain ⟨sourceText, sinkText, more, words, rsource, rsink, rback, -⟩ := readEdge_eq hread
    exact .cons ⟨sourceText, sinkText, more, e.source, e.sink, words, rsource,
      hids _ _ hsource, rsink, hids _ _ hsink, hback.trans rback⟩ (ih rest)

theorem readRoutine_describes (text : String) :
    wp (readRoutine text) (fun g _ => g.Built → Describes (linesFrom 1 (Text.lines text)) g)
      (fun _ _ => True) {} := by
  unfold readRoutine
  simp only [wp_bind]
  apply wp_imp (readLines_becomes 1 _ _)
  intro _ d h
  simp only [wp_bind, wp_modify, wp_get]
  apply ofExcept_wp
  intro g hg built
  obtain ⟨opened, drafts, rfl, hdrafts, hblocks, hids⟩ := h.blocks
  obtain ⟨es, hes, reads⟩ := h.edges
  obtain ⟨parents, hparents, nests⟩ := h.loops [] rfl
  obtain ⟨kedges, kjoined, kloops⟩ := finishBlock_keeps d
  obtain ⟨unlinked_eq, loops_eq, new, hnew, ends⟩ := addEdgeLines_eq hg
  rw [kedges, hes] at ends
  rw [kjoined, h.joined] at hnew
  obtain rfl : g.edges = new := hnew
  have tree : g.loopTree = 0 :: parents := loops_eq.trans (kloops.trans hparents)
  have wf := built.wellFormed
  exact {
    blocks := by
      apply describes_of_unlinked _ unlinked_eq
      rw [hblocks]
      exact describes_finished hdrafts 0
    edges := by
      rw [hids] at ends
      exact joins_of_reads (fun _ _ => lastDeclared_of_declare hdrafts) reads ends
    block_id := wf.block_id
    edge_id := wf.edge_id
    incoming := wf.incoming_eq
    outgoing := wf.outgoing_eq
    loops := by
      refine ⟨parents, tree, nests, ?_⟩
      intro i parent hi
      apply wf.parent_lt (i + 1) parent (by omega)
      rw [tree]
      exact hi }

end AddressFormulas.Notation

namespace AddressFormulas.Graph

/-- A routine that is read from a text is the one that the text describes. -/
theorem read_describes {text : String} {g : Graph} (h : Graph.read text = .ok g) :
    Notation.Describes (Notation.linesFrom 1 (Text.lines text)) g := by
  have built := built_of_read h
  unfold Graph.read readWithJournal at h
  split at h
  · next g' d hr =>
    cases h
    exact wp_ok (Notation.readRoutine_describes text) hr built
  · cases h

def mixedText : String :=
  "LOOPS 0 1\nEDGE 4 4 back\n  BLOCK 4 rank=-1 marker=1\n0x10 4 move mov rax <- #5\n# a note\n" ++
  "LOOPS 0\n0x10 4 alu add rax <- rax #1\n\nBLOCK 9 surrogate=0x50 at=0x14 entry\n" ++
  "0x90 4 move mov rax <- #5\nBLOCK 4 rank=2\nEDGE 9 4\n0x18 4 move mov rax <- #0"

def mixed : Graph :=
  let rax : Register := ⟨.listed 0, 0, 63⟩
  let five : MicroOp :=
    { pc := 0x10, kind := .move, operation := .mov, sources := [.immediate 5],
      destinations := [.register rax] }
  let six : MicroOp :=
    { pc := 0x10, idx := 1, kind := .alu, operation := .add,
      sources := [.register rax, .immediate 1], destinations := [.register rax] }
  let zero : MicroOp :=
    { pc := 0x18, kind := .move, operation := .mov, sources := [.immediate 0],
      destinations := [.register rax] }
  let first := ({ loopTree := [0, 0] } : Graph).addBlock (-1) 1 [five, six]
  let blocks := ((first.addSurrogate 0 0 0x14 0x50).setEntry 1).addBlock 2 0 [zero]
  (blocks.addEdge 2 2 true).addEdge 1 2 false

theorem read_describes_mixed : Graph.read mixedText = .ok mixed ∧
    Notation.Describes (Notation.linesFrom 1 (Text.lines mixedText)) mixed := by
  have reads : Graph.read mixedText = .ok mixed := by decide +kernel
  exact ⟨reads, read_describes reads⟩

/-- The addresses of a surrogate do not come from its micro-ops: it has none. -/
theorem start_of_read_not_first_pc : ¬∀ text g, Graph.read text = .ok g →
    ∀ block ∈ g.blocks, block.start = (block.ops.head?.map MicroOp.pc).getD 0 ∧
      block.stop = (block.ops.map MicroOp.nextPc).max?.getD block.start := by
  intro h
  have reads : Graph.read "BLOCK 0 surrogate=0x5000" =
      .ok (({} : Graph).addSurrogate 0 0 0x5000 0x5000) := by decide +kernel
  obtain ⟨start, _⟩ := h _ _ reads _ (.head _)
  exact absurd start (by decide)

end AddressFormulas.Graph
