import AddressFormulas.Proofs.Routine.Blame
import AddressFormulas.Proofs.Routine.Declared

namespace AddressFormulas.Notation

def Mentions (line : Nat × List String) (id : Nat) : Prop := NamesAt line 0 id ∨ NamesAt line 1 id

def Missing (lines : List Line) (id : Nat) : Prop :=
  (∃ line ∈ saying Statement.edge? lines, Mentions line id) ∧ ¬Declared lines id

theorem Missing.lt_half {lines : List Line} {id : Nat} (h : Missing lines id) :
    (id : Int) < Word.half := by
  obtain ⟨⟨line, -, ⟨text, -, hid⟩ | ⟨text, -, hid⟩⟩, -⟩ := h
  · exact lt_half_of_readNatural line.1 hid
  · exact lt_half_of_readNatural line.1 hid

/-- Line `n` is the first one of an edge that mentions an undeclared block, and `id` is its source if
that is undeclared, its sink otherwise. -/
structure FirstUndeclared (lines : List Line) (n id : Nat) : Prop where
  undeclared : ¬Declared lines id
  first : ∃ before line after, saying Statement.edge? lines = before ++ line :: after ∧
    line.1 = n ∧ (∀ l ∈ before, ∀ id', Mentions l id' → Declared lines id') ∧
    (NamesAt line 0 id ∨ NamesAt line 1 id ∧ ∃ source, NamesAt line 0 source ∧ Declared lines source)

/-- A text is refused for a line: so is every text that begins with the same lines up to that one,
and the lines before it are not to blame. -/
structure FirstBadLine (text : String) (e : NotationError) : Prop where
  one_le : 1 ≤ e.line
  le_length : e.line ≤ (Text.rows text).length
  same : ∀ text', (Text.rows text').take e.line = (Text.rows text).take e.line →
    Graph.read text' = .error e
  before : ∀ text', Text.rows text' = (Text.rows text).take (e.line - 1) →
    (∃ g, Graph.read text' = .ok g) ∨ ∃ n id, Graph.read text' = .error (.unknownBlock n id)

/-- A text is refused for a block that is nowhere declared: it is read when lines are put at its end
that declare all missing blocks, and plain declarations of their numbers will do. -/
structure Undeclared (text : String) (n id : Nat) : Prop where
  first : FirstUndeclared (linesFrom 1 (Text.rows text)) n id
  mended : ∀ text' added, Text.rows text' = Text.rows text ++ added →
    OnlyBlocks (linesFrom ((Text.rows text).length + 1) added) →
    (∀ id', Missing (linesFrom 1 (Text.rows text)) id' →
      Declared (linesFrom ((Text.rows text).length + 1) added) id') →
    ∃ g, Graph.read text' = .ok g
  numbers : ∀ id', Missing (linesFrom 1 (Text.rows text)) id' → (id' : Int) < Word.half
  declared : ∀ ids : List Nat, (∀ id' ∈ ids, (id' : Int) < Word.half) →
    (∀ id', Missing (linesFrom 1 (Text.rows text)) id' → id' ∈ ids) →
    ∃ g, Graph.read (text ++ declarations ids) = .ok g

theorem readLines_map_trim (n : Nat) (raws : List (List Char)) :
    readLines n (raws.map Text.trim) = readLines n raws := by
  induction raws generalizing n with
  | nil => rfl
  | cons raw rest ih =>
    have same : readLine n (Text.trim raw) = readLine n raw := by
      unfold readLine
      rw [Text.trim_trim]
    rw [List.map_cons, readLines, readLines, same, ih]

theorem readLines_rows (text : String) :
    readLines 1 (Text.rows text) = readLines 1 (Text.lines text) := by
  unfold Text.rows
  rw [readLines_map_trim]
  split
  · next h =>
    have all := List.dropLast_append_getLast? _ h
    have blank : readLines (1 + (Text.lines text).dropLast.length) [[]] = pure () := rfl
    conv_rhs => rw [← all, readLines_append, blank]
    exact (bind_pure_unit (x := readLines 1 _)).symm
  · rfl

section Read

variable {text : String} {d : Draft} {e : NotationError}

theorem read_of_stops (h : (readLines 1 (Text.rows text)).run {} = .error e d) :
    Graph.read text = .error e := by
  rw [readLines_rows] at h
  unfold Graph.read Graph.readWithJournal readRoutine
  rw [EStateM.run_bind, h]

theorem read_of_lines (h : (readLines 1 (Text.rows text)).run {} = .ok () d) : Graph.read text =
    d.finishBlock.edges.foldlM (addEdgeLine d.finishBlock.ids) d.finishBlock.graph := by
  rw [readLines_rows] at h
  unfold Graph.read Graph.readWithJournal readRoutine
  simp only [EStateM.run_bind, h, EStateM.run_modify, EStateM.run_get]
  cases d.finishBlock.edges.foldlM (addEdgeLine d.finishBlock.ids) d.finishBlock.graph <;> rfl

end Read

theorem NamesAt.unique {line : Nat × List String} {k id id' : Nat} (h : NamesAt line k id)
    (h' : NamesAt line k id') : id = id' := by
  obtain ⟨text, htext, hid⟩ := h
  obtain ⟨text', htext', hid'⟩ := h'
  rw [htext] at htext'
  cases htext'
  rw [hid] at hid'
  exact Except.ok.inj hid'

theorem findBlock_eq (ids : Table Nat Nat) (n id : Nat) :
    (ids.get? id = none ∧ findBlock ids n id = .error (.unknownBlock n id)) ∨
      ∃ b, ids.get? id = some b ∧ findBlock ids n id = .ok b := by
  unfold findBlock
  cases ids.get? id with
  | none => exact .inl ⟨rfl, rfl⟩
  | some b => exact .inr ⟨b, rfl, rfl⟩

theorem readEdge_names {line : Nat × List String} {trimmed : List Char} {e : EdgeLine}
    (h : readEdge line.1 trimmed line.2 = .ok e) :
    e.line = line.1 ∧ NamesAt line 0 e.source ∧ NamesAt line 1 e.sink := by
  obtain ⟨sourceText, sinkText, rest, words, hsource, hsink, -, number⟩ := readEdge_eq h
  exact ⟨number, ⟨sourceText, by rw [words]; rfl, hsource⟩, ⟨sinkText, by rw [words]; rfl, hsink⟩⟩

theorem addEdgeLines_stops {ids : Table Nat Nat} {read : List (Nat × List String)}
    {es : List EdgeLine}
    (hr : List.Forall₂ (fun line e => ∃ trimmed, readEdge line.1 trimmed line.2 = .ok e) read es)
    {g : Graph} {x : NotationError} (h : es.foldlM (addEdgeLine ids) g = .error x) :
    ∃ before line after id, read = before ++ line :: after ∧ x = .unknownBlock line.1 id ∧
      ids.get? id = none ∧ (∀ l ∈ before, ∀ id', Mentions l id' → ids.get? id' ≠ none) ∧
      (NamesAt line 0 id ∨
        NamesAt line 1 id ∧ ∃ source, NamesAt line 0 source ∧ ids.get? source ≠ none) := by
  -- a line fails at its source or at its sink, in that order, or its edge is added
  induction hr generalizing g with
  | nil => cases h
  | @cons line e read es hread _ ih =>
    obtain ⟨trimmed, hread⟩ := hread
    obtain ⟨number, source, sink⟩ := readEdge_names hread
    rw [List.foldlM_cons] at h
    obtain ⟨missing, stop⟩ | ⟨b, found, go⟩ := findBlock_eq ids e.line e.source
    · refine ⟨[], line, read, e.source, rfl, ?_, missing, by simp, .inl source⟩
      simp only [addEdgeLine, stop, bind, Except.bind] at h
      rw [← number]
      exact (Except.error.inj h).symm
    obtain ⟨missing, stop⟩ | ⟨c, found', go'⟩ := findBlock_eq ids e.line e.sink
    · refine ⟨[], line, read, e.sink, rfl, ?_, missing, by simp,
        .inr ⟨sink, e.source, source, by simp [found]⟩⟩
      simp only [addEdgeLine, go, stop, bind, Except.bind] at h
      rw [← number]
      exact (Except.error.inj h).symm
    simp only [addEdgeLine, go, go', bind, Except.bind, pure, Except.pure] at h
    obtain ⟨before, bad, after, id, rfl, rfl, missing, known, names⟩ := ih h
    refine ⟨line :: before, bad, after, id, rfl, rfl, missing, ?_, names⟩
    intro l hl id' mentions
    obtain rfl | hl := List.mem_cons.mp hl
    · obtain at_source | at_sink := mentions
      · simp [← source.unique at_source, found]
      · simp [← sink.unique at_sink, found']
    · exact known l hl id' mentions

theorem FirstUndeclared.missing {lines : List Line} {n id : Nat} (h : FirstUndeclared lines n id) :
    Missing lines id := by
  obtain ⟨before, line, after, split, -, -, names⟩ := h.first
  refine ⟨⟨line, by simp [split], ?_⟩, h.undeclared⟩
  obtain source | ⟨sink, -⟩ := names
  · exact .inl source
  · exact .inr sink

section Lines

variable {text : String} {d : Draft} (hlines : (readLines 1 (Text.rows text)).run {} = .ok () d)

include hlines

theorem firstUndeclared_of_read {x : NotationError} (h : Graph.read text = .error x) :
    ∃ n id, x = .unknownBlock n id ∧ FirstUndeclared (linesFrom 1 (Text.rows text)) n id := by
  have becomes := wp_ok (readLines_becomes 1 (Text.rows text) {}) hlines
  have declared : ∀ {id}, d.finishBlock.ids.get? id ≠ none →
      Declared (linesFrom 1 (Text.rows text)) id := by
    intro id known
    rwa [Ne, becomes.get?_ids, not_not] at known
  obtain ⟨es, hes, reads⟩ := becomes.edges
  rw [read_of_lines hlines, (finishBlock_keeps d).1, hes] at h
  obtain ⟨before, line, after, id, split, rfl, missing, known, names⟩ := addEdgeLines_stops reads h
  refine ⟨line.1, id, rfl, (becomes.get?_ids id).mp missing, before, line, after, split, rfl, ?_, ?_⟩
  · exact fun l hl id' mentions => declared (known l hl id' mentions)
  · obtain source | ⟨sink, source, hsource, hknown⟩ := names
    · exact .inl source
    · exact .inr ⟨sink, source, hsource, declared hknown⟩

theorem read_of_declared {text' : String} {added : List (List Char)}
    (happend : Text.rows text' = Text.rows text ++ added)
    (hadded : OnlyBlocks (linesFrom ((Text.rows text).length + 1) added))
    (hall : ∀ id, Missing (linesFrom 1 (Text.rows text)) id →
      Declared (linesFrom ((Text.rows text).length + 1) added) id) :
    ∃ g, Graph.read text' = .ok g := by
  rw [Nat.add_comm] at hadded hall
  obtain ⟨d', hrun⟩ := readLines_onlyBlocks hadded d
  have hlines' : (readLines 1 (Text.rows text')).run {} = .ok () d' := by
    rw [happend, readLines_append, EStateM.run_bind, hlines]
    exact hrun
  cases hread : Graph.read text' with
  | ok g => exact ⟨g, rfl⟩
  | error x =>
    obtain ⟨n, id, -, found⟩ := firstUndeclared_of_read hlines' hread
    obtain ⟨⟨line, hline, mentions⟩, undeclared⟩ := found.missing
    rw [happend, linesFrom_append] at hline undeclared
    rw [saying_append, hadded.saying_edge, List.append_nil] at hline
    by_cases old : Declared (linesFrom 1 (Text.rows text)) id
    · exact absurd (Declared.append (.inl old)) undeclared
    · exact absurd (Declared.append (.inr (hall id ⟨⟨line, hline, mentions⟩, old⟩))) undeclared

theorem undeclared_of_read {x : NotationError} (h : Graph.read text = .error x) :
    ∃ n id, x = .unknownBlock n id ∧ Undeclared text n id := by
  obtain ⟨n, id, rfl, first⟩ := firstUndeclared_of_read hlines h
  refine ⟨n, id, rfl, first, fun text' added => read_of_declared hlines,
    fun id' missing => missing.lt_half, fun ids hids hall => ?_⟩
  have some_id : ids ≠ [] := List.ne_nil_of_mem (hall id first.missing)
  obtain ⟨blank, hblank, happend⟩ := rows_append_declarations text some_id
  refine read_of_declared hlines happend (onlyBlocks_blockRows hblank hids) fun id' missing => ?_
  exact declared_blockRows (hall id' missing) (hids id' (hall id' missing))

end Lines

theorem firstBadLine_of_stops {text : String} {e : NotationError} {d : Draft}
    (h : (readLines 1 (Text.rows text)).run {} = .error e d) : FirstBadLine text e := by
  obtain ⟨before, raw, after, d₁, split, hbefore, hraw⟩ := readLines_stops h
  have number : e.line = before.length + 1 := by
    rw [(wp_error (readLine_blames _ raw d₁) hraw).line_eq, Nat.add_comm]
  have upto : (Text.rows text).take e.line = before ++ [raw] := by
    rw [split, number, List.take_length_add_append]
    rfl
  constructor
  case one_le => omega
  case le_length =>
    rw [split, number, List.length_append, List.length_cons]
    omega
  case same =>
    intro text' same
    obtain ⟨rest, hrest⟩ : ∃ rest, Text.rows text' = before ++ raw :: rest := by
      refine ⟨(Text.rows text').drop e.line, ?_⟩
      conv_lhs => rw [← List.take_append_drop e.line (Text.rows text'), same, upto]
      simp
    apply read_of_stops (d := d)
    rw [hrest, readLines_append, EStateM.run_bind, hbefore]
    change (readLines _ (raw :: rest)).run d₁ = _
    rw [readLines, EStateM.run_bind, hraw]
  case before =>
    intro text' cut
    have lines : Text.rows text' = before := by
      rw [cut, split, number, Nat.add_sub_cancel, List.take_left]
    rw [← lines] at hbefore
    cases hread : Graph.read text' with
    | ok g => exact .inl ⟨g, rfl⟩
    | error x =>
      obtain ⟨n, id, rfl, -⟩ := firstUndeclared_of_read hbefore hread
      exact .inr ⟨n, id, rfl⟩

end AddressFormulas.Notation

namespace AddressFormulas.Graph

/-- A text is refused for its first bad line, or else for the first undeclared block. -/
theorem line_of_read_error {text : String} {e : NotationError} (h : Graph.read text = .error e) :
    ((∀ n id, e ≠ .unknownBlock n id) → Notation.FirstBadLine text e) ∧
      ∀ n id, e = .unknownBlock n id → Notation.Undeclared text n id := by
  cases hlines : (Notation.readLines 1 (Text.rows text)).run {} with
  | error x d =>
    obtain rfl : e = x := Except.error.inj (h.symm.trans (Notation.read_of_stops hlines))
    refine ⟨fun _ => Notation.firstBadLine_of_stops hlines, fun n id he => ?_⟩
    obtain ⟨before, raw, after, d₁, -, -, hraw⟩ := Notation.readLines_stops hlines
    exact absurd he ((wp_error (Notation.readLine_blames _ raw d₁) hraw).ne_unknownBlock n id)
  | ok _ d =>
    obtain ⟨n, id, rfl, undeclared⟩ := Notation.undeclared_of_read hlines h
    refine ⟨fun other => absurd rfl (other n id), ?_⟩
    rintro _ _ ⟨⟩
    exact undeclared

theorem line_of_read_error_strayEdge :
    Notation.FirstBadLine "BLOCK 0\nEDGE 0 7\n0x10 4 alu add rax <- rzz" (.unknownRegister 3 "rzz") ∧
      Notation.Undeclared "BLOCK 0\nEDGE 0 7" 2 7 := by
  have bad : Graph.read "BLOCK 0\nEDGE 0 7\n0x10 4 alu add rax <- rzz" =
      .error (.unknownRegister 3 "rzz") := by decide +kernel
  have stray : Graph.read "BLOCK 0\nEDGE 0 7" = .error (.unknownBlock 2 7) := by decide +kernel
  exact ⟨(line_of_read_error bad).1 nofun, (line_of_read_error stray).2 2 7 rfl⟩

end AddressFormulas.Graph
