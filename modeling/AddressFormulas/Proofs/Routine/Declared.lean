import AddressFormulas.Proofs.Routine.Description
import AddressFormulas.Proofs.Text.Lines
import AddressFormulas.Proofs.Text.Numeral

namespace AddressFormulas.Notation

def NamesAt (line : Nat × List String) (k id : Nat) : Prop :=
  ∃ text, line.2[k]? = some text ∧ readNatural line.1 text = .ok id

def Declared (lines : List Line) (id : Nat) : Prop :=
  ∃ line ∈ saying Statement.block? lines, NamesAt line 1 id

theorem linesFrom_append (n : Nat) (xs ys : List (List Char)) :
    linesFrom n (xs ++ ys) = linesFrom n xs ++ linesFrom (n + xs.length) ys := by
  induction xs generalizing n with
  | nil => rfl
  | cons x xs ih =>
    have next : n + (x :: xs).length = n + 1 + xs.length := Nat.add_right_comm n xs.length 1
    rw [List.cons_append, linesFrom, linesFrom, ih, next, List.cons_append]

theorem saying_append (kind? : Statement → Option (List String)) (xs ys : List Line) :
    saying kind? (xs ++ ys) = saying kind? xs ++ saying kind? ys := List.filterMap_append

theorem linesFrom_content (n : Nat) (raws : List (List Char)) :
    (linesFrom n raws).map Line.content = raws.map Statement.ofLine := by
  induction raws generalizing n with
  | nil => rfl
  | cons raw rest ih => rw [linesFrom, List.map_cons, List.map_cons, ih]

theorem Declared.append {xs ys : List Line} {id : Nat} (h : Declared xs id ∨ Declared ys id) :
    Declared (xs ++ ys) id := by
  unfold Declared
  rw [saying_append]
  obtain ⟨line, hline, names⟩ | ⟨line, hline, names⟩ := h
  · exact ⟨line, List.mem_append_left _ hline, names⟩
  · exact ⟨line, List.mem_append_right _ hline, names⟩

theorem sections_heads (lines : List Line) :
    (sections lines).map (fun s => (s.number, s.words)) = saying Statement.block? lines := by
  induction lines with
  | nil => rfl
  | cons l rest ih =>
    unfold sections
    cases hl : l.content.block? with
    | none => simpa [saying, hl] using ih
    | some words => simpa [saying, hl] using ih

theorem declared_iff (lines : List Line) (id : Nat) :
    Declared lines id ↔ ∃ s ∈ sections lines, s.Declares id := by
  unfold Declared
  rw [← sections_heads]
  constructor
  · rintro ⟨line, hline, names⟩
    obtain ⟨s, hs, rfl⟩ := List.mem_map.mp hline
    exact ⟨s, hs, names⟩
  · rintro ⟨s, hs, declares⟩
    exact ⟨_, List.mem_map_of_mem hs, declares⟩

theorem declares_iff {ss : List Section} {drafts : List BlockDraft}
    (h : List.Forall₂ Section.Drafts ss drafts) (id : Nat) :
    (∃ s ∈ ss, s.Declares id) ↔ ∃ b ∈ drafts, b.id = id := by
  induction h with
  | nil => simp
  | cons hs _ ih => simp [hs.declares id, ih]

theorem get?_declare_eq_none (drafts : List BlockDraft) (i : Nat) (ids : Table Nat Nat) (id : Nat) :
    (declare i drafts ids).get? id = none ↔ ids.get? id = none ∧ ∀ b ∈ drafts, b.id ≠ id := by
  induction drafts generalizing i ids with
  | nil => simp [declare]
  | cons b rest ih =>
    rw [declare, ih, Table.get?_insert]
    by_cases hb : b.id = id
    · simp [hb]
    · simp [hb, Ne.symm hb]

theorem Becomes.get?_ids {lines : List Line} {d : Draft} (h : Becomes {} lines d) (id : Nat) :
    d.finishBlock.ids.get? id = none ↔ ¬Declared lines id := by
  obtain ⟨opened, drafts, rfl, hdrafts, -, hids⟩ := h.blocks
  rw [hids, get?_declare_eq_none, declared_iff, declares_iff hdrafts]
  simp

def OnlyBlocks (lines : List Line) : Prop :=
  ∀ l ∈ lines, l.content = .nothing ∨
    ∃ words b, l.content = .block words ∧ readBlock l.number words = .ok b

theorem readLine_block {n : Nat} {raw : List Char} {words : List String} {b : BlockDraft}
    (hw : Statement.ofLine raw = .block words) (hb : readBlock n words = .ok b) (d : Draft) :
    (readLine n raw).run d = .ok () { d.finishBlock with current := some b } := by
  unfold Statement.ofLine at hw
  split at hw
  · cases hw
  · cases hw
  next hblank hcomment =>
  unfold Statement.ofWords at hw
  split at hw
  all_goals cases hw
  next rest hwords =>
  unfold readLine
  split
  · next h => exact (hblank h).elim
  · next h => exact (hcomment _ h).elim
  · rw [hwords]
    change (ofExcept (readBlock n ("BLOCK" :: rest)) >>= fun b =>
      modify fun d : Draft => { d with current := some b } : Reader Unit).run d.finishBlock = _
    rw [hb]
    rfl

theorem readLine_nothing {n : Nat} {raw : List Char} (hw : Statement.ofLine raw = .nothing)
    (d : Draft) : (readLine n raw).run d = .ok () d := by
  unfold Statement.ofLine at hw
  split at hw
  · next h =>
    unfold readLine
    rw [h]
    rfl
  · next h =>
    unfold readLine
    rw [h]
    rfl
  · unfold Statement.ofWords at hw
    split at hw
    all_goals cases hw

theorem readLines_onlyBlocks {n : Nat} {raws : List (List Char)} (h : OnlyBlocks (linesFrom n raws))
    (d : Draft) : ∃ d', (readLines n raws).run d = .ok () d' := by
  induction raws generalizing n d with
  | nil => exact ⟨d, rfl⟩
  | cons raw rest ih =>
    obtain ⟨here, hrest⟩ := List.forall_mem_cons.mp h
    obtain ⟨d₁, hd₁⟩ : ∃ d₁, (readLine n raw).run d = .ok () d₁ := by
      obtain nothing | ⟨words, b, hw, hb⟩ := here
      · exact ⟨d, readLine_nothing nothing d⟩
      · exact ⟨_, readLine_block hw hb d⟩
    rw [readLines, EStateM.run_bind, hd₁]
    exact ih hrest d₁

theorem OnlyBlocks.saying_edge {lines : List Line} (h : OnlyBlocks lines) :
    saying Statement.edge? lines = [] := by
  refine List.filterMap_eq_nil_iff.mpr fun l hl => ?_
  obtain nothing | ⟨words, b, hw, -⟩ := h l hl
  · rw [nothing]
    rfl
  · rw [hw]
    rfl

def blockRow (id : Nat) : List Char := "BLOCK ".toList ++ Numeral.naturalChars id

def declarations (ids : List Nat) : String :=
  String.ofList (ids.flatMap fun id => '\n' :: blockRow id)

theorem isBlank_of_mem_naturalChars {id : Nat} {c : Char} (hc : c ∈ Numeral.naturalChars id) :
    Text.isBlank c = false :=
  Text.isBlank_of_isDigit (Numeral.isDigit_of_mem_naturalChars hc)

theorem trim_blockRow (id : Nat) : Text.trim (blockRow id) = blockRow id := by
  refine Text.trim_eq_self (fun c hc => ?_) fun c hc => ?_
  · obtain rfl : 'B' = c := Option.some.inj hc
    decide
  · unfold blockRow at hc
    rw [List.getLast?_append_of_ne_nil _ (Numeral.naturalChars_ne_nil id)] at hc
    exact isBlank_of_mem_naturalChars (List.mem_of_getLast? hc)

theorem words_blockRow (id : Nat) : Text.words (blockRow id) = ["BLOCK", Numeral.natural id] := by
  have cut : Text.pieces Text.isBlank (blockRow id) = ["BLOCK".toList, Numeral.naturalChars id] := by
    have keyword : Text.pieces Text.isBlank "BLOCK".toList = ["BLOCK".toList] := rfl
    have row : blockRow id = "BLOCK".toList ++ ' ' :: Numeral.naturalChars id := rfl
    rw [row, Text.pieces_append rfl, keyword,
      Text.pieces_of_none fun c => isBlank_of_mem_naturalChars]
    rfl
  unfold Text.words
  rw [cut]
  simp [Numeral.naturalChars_ne_nil, Numeral.natural]

theorem ofLine_blockRow (id : Nat) :
    Statement.ofLine (blockRow id) = .block ["BLOCK", Numeral.natural id] := by
  have row : Text.trim (blockRow id) = 'B' :: "LOCK ".toList ++ Numeral.naturalChars id :=
    trim_blockRow id
  rw [Statement.ofLine_eq (by simp [row]) (by simp [row]), trim_blockRow, words_blockRow]
  rfl

theorem attribute?_blockRow (key : String) {k : Char} {ks : List Char} (hkey : key.toList = k :: ks)
    (hk : k.isDigit = false) (hblock : valueOf? key "BLOCK" = none) (id : Nat) :
    attribute? ["BLOCK", Numeral.natural id] key = none := by
  have number : valueOf? key (Numeral.natural id) = none := by
    obtain ⟨c, cs, hcs⟩ := List.exists_cons_of_ne_nil (Numeral.naturalChars_ne_nil id)
    have other : k ≠ c := by
      rintro rfl
      exact Numeral.not_mem_naturalChars hk id (hcs ▸ List.mem_cons_self)
    unfold valueOf? Numeral.natural
    rw [hkey, String.toList_ofList, hcs]
    simp [Text.after?, other]
  simp [attribute?, hblock, number]

theorem readBlock_blockRow (n : Nat) {id : Nat} (hid : (id : Int) < Word.half) :
    ∃ b, readBlock n ["BLOCK", Numeral.natural id] = .ok b := by
  have rank := attribute?_blockRow "rank" rfl rfl rfl id
  have marker := attribute?_blockRow "marker" rfl rfl rfl id
  have surrogate := attribute?_blockRow "surrogate" rfl rfl rfl id
  unfold readBlock readSurrogate readAttribute
  simp only [readNatural_natural n hid, rank, marker, surrogate]
  exact ⟨_, rfl⟩

theorem lines_append_declarations (text : String) (ids : List Nat) :
    Text.lines (text ++ declarations ids) = Text.lines text ++ ids.map blockRow := by
  unfold Text.lines declarations
  rw [String.toList_append, String.toList_ofList]
  generalize text.toList = cs
  induction ids generalizing cs with
  | nil => simp
  | cons id ids ih =>
    have row : Text.pieces (· == '\n') (blockRow id) = [blockRow id] := by
      refine Text.pieces_of_none fun c hc => ?_
      have other : c ≠ '\n' := by
        rintro rfl
        obtain keyword | digits := List.mem_append.mp hc
        · exact absurd keyword (by decide)
        · exact Numeral.not_mem_naturalChars (by decide) id digits
      simp [other]
    have next := ih (cs ++ '\n' :: blockRow id)
    rw [Text.pieces_append (by decide), row] at next
    simpa using next

theorem rows_append_declarations (text : String) {ids : List Nat} (hids : ids ≠ []) :
    ∃ blank : List (List Char), (∀ raw ∈ blank, raw = []) ∧
      Text.rows (text ++ declarations ids) = Text.rows text ++ (blank ++ ids.map blockRow) := by
  have trimmed : (ids.map blockRow).map Text.trim = ids.map blockRow := by
    simp [trim_blockRow]
  have last : (Text.lines (text ++ declarations ids)).getLast? ≠ some [] := by
    have full : ids.map blockRow ≠ [] := by simpa using hids
    rw [lines_append_declarations, List.getLast?_append_of_ne_nil _ full]
    intro h
    obtain ⟨id, -, empty⟩ := List.mem_map.mp (List.mem_of_getLast? h)
    cases empty
  unfold Text.rows
  rw [if_neg last, lines_append_declarations, List.map_append, trimmed]
  split
  · next h =>
    refine ⟨[[]], by simp, ?_⟩
    conv_lhs => rw [← List.dropLast_append_getLast? _ h, List.map_append, List.append_assoc]
    rfl
  · exact ⟨[], by simp, rfl⟩

section Rows

variable {n : Nat} {blank : List (List Char)} {ids : List Nat}

theorem onlyBlocks_blockRows (hblank : ∀ raw ∈ blank, raw = [])
    (hids : ∀ id ∈ ids, (id : Int) < Word.half) :
    OnlyBlocks (linesFrom n (blank ++ ids.map blockRow)) := by
  intro l hl
  have hc : l.content ∈ (blank ++ ids.map blockRow).map Statement.ofLine :=
    linesFrom_content n _ ▸ List.mem_map_of_mem hl
  obtain ⟨raw, hraw, hl⟩ := List.mem_map.mp hc
  rw [← hl]
  obtain hraw | hraw := List.mem_append.mp hraw
  · rw [hblank raw hraw]
    exact .inl rfl
  · obtain ⟨id, hid, rfl⟩ := List.mem_map.mp hraw
    obtain ⟨b, hb⟩ := readBlock_blockRow l.number (hids id hid)
    exact .inr ⟨_, b, ofLine_blockRow id, hb⟩

theorem declared_blockRows {id : Nat} (hid : id ∈ ids) (hword : (id : Int) < Word.half) :
    Declared (linesFrom n (blank ++ ids.map blockRow)) id := by
  have hrow : Statement.ofLine (blockRow id) ∈
      (linesFrom n (blank ++ ids.map blockRow)).map Line.content :=
    linesFrom_content n _ ▸ List.mem_map_of_mem (List.mem_append_right _ (List.mem_map_of_mem hid))
  obtain ⟨l, hl, hc⟩ := List.mem_map.mp hrow
  have said : (l.number, ["BLOCK", Numeral.natural id]) ∈
      saying Statement.block? (linesFrom n (blank ++ ids.map blockRow)) := by
    refine List.mem_filterMap.mpr ⟨l, hl, ?_⟩
    rw [hc, ofLine_blockRow]
    rfl
  exact ⟨_, said, _, rfl, readNatural_natural _ hword⟩

end Rows

end AddressFormulas.Notation
