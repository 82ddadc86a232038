import AddressFormulas.Proofs.Data.Table
import AddressFormulas.Proofs.Routine.WellFormed
import AddressFormulas.Proofs.Rules
import AddressFormulas.Routine.Notation.Reader

namespace AddressFormulas.Notation

structure Draft.Sound (d : Draft) : Prop where
  built : d.graph.Built
  ids : ∀ id b, d.ids.get? id = some b → b < d.graph.blocks.length

theorem Draft.Sound.add {d : Draft} (hd : d.Sound) {g : Graph} (hg : g.Built)
    (hl : g.blocks.length = d.graph.blocks.length + 1) (id : Nat) (entry : Bool)
    (current : Option BlockDraft) (journal : Journal) :
    Draft.Sound { d with
      graph := if entry then g.setEntry d.graph.blocks.length else g
      ids := d.ids.insert id d.graph.blocks.length
      current
      journal } := by
  have length : (if entry then g.setEntry d.graph.blocks.length else g).blocks.length =
      d.graph.blocks.length + 1 := by
    split <;> simp [Graph.setEntry, Graph.modifyBlock, hl]
  constructor
  · dsimp only
    split
    · exact .setEntry _ hg
    · exact hg
  · intro id' n h
    dsimp only at h ⊢
    rw [length]
    rw [Table.get?_insert] at h
    split at h
    · cases h; omega
    · have := hd.ids id' n h; omega

theorem Draft.finishBlock_sound {d : Draft} (hd : d.Sound) : d.finishBlock.Sound := by
  unfold finishBlock
  split
  · exact hd
  · next b _ =>
    cases hs : b.surrogate with
    | some place =>
      exact hd.add (.addSurrogate _ _ _ _ hd.built) (by simp [Graph.addSurrogate, Graph.addNode]) ..
    | none => exact hd.add (.addBlock _ _ _ hd.built) (by simp [Graph.addBlock, Graph.addNode]) ..

theorem ofExcept_wp {α : Type} {r : Except NotationError α} {d : Draft} {Q : α → Draft → Prop}
    (h : ∀ a, r = .ok a → Q a d) : wp (ofExcept r) Q (fun _ _ => True) d := by
  cases r with
  | ok a => exact h a rfl
  | error e => trivial

theorem built_of_readLoops {line : Nat} {words : List String} {g h : Graph} (hg : g.Built)
    (hr : readLoops line words g = .ok h) :
    h.Built ∧ h.blocks = g.blocks := by
  unfold readLoops at hr
  cases hp : words.mapM (readCount line) with
  | error e => simp [hp, bind, Except.bind] at hr
  | ok parents =>
    simp only [hp, bind, Except.bind] at hr
    split at hr
    · next g' hs =>
      cases hr
      refine ⟨.setLoopParents _ hs hg, ?_⟩
      rw [(Graph.setLoopParents_eq_ok hs).1]
    · cases hr

theorem readWords_sound (line : Nat) (trimmed : List Char) (words : List String) {d : Draft}
    (hd : d.Sound) : wp (readWords line trimmed words) (fun _ d => d.Sound) (fun _ _ => True) d := by
  unfold readWords
  simp only [wp_bind, wp_get]
  split
  · exact ⟨.rename _ hd.built, hd.ids⟩
  · simp only [wp_bind]
    apply ofExcept_wp
    intro g hg
    obtain ⟨hb, hs⟩ := built_of_readLoops hd.built hg
    exact ⟨hb, fun id b h => by simpa only [hs] using hd.ids id b h⟩
  · simp only [wp_bind, wp_set]
    apply ofExcept_wp
    intro b _
    have hf := Draft.finishBlock_sound hd
    exact ⟨hf.built, hf.ids⟩
  · simp only [wp_bind]
    apply ofExcept_wp
    intro e _
    exact ⟨hd.built, hd.ids⟩
  · split
    · trivial
    · simp only [wp_bind]
      apply ofExcept_wp
      intro u _
      exact ⟨hd.built, hd.ids⟩

theorem readLine_sound (line : Nat) (raw : List Char) {d : Draft} (hd : d.Sound) :
    wp (readLine line raw) (fun _ d => d.Sound) (fun _ _ => True) d := by
  unfold readLine
  split
  · exact hd
  · exact hd
  · exact readWords_sound line _ _ hd

theorem readLines_sound (n : Nat) (raws : List (List Char)) {d : Draft} (hd : d.Sound) :
    wp (readLines n raws) (fun _ d => d.Sound) (fun _ _ => True) d := by
  induction raws generalizing n d with
  | nil => exact hd
  | cons raw rest ih =>
    simp only [readLines, wp_bind]
    exact wp_imp (readLine_sound n raw hd) (fun _ _ h => ih (n + 1) h)

theorem get?_of_findBlock {ids : Table Nat Nat} {line id b : Nat}
    (h : findBlock ids line id = .ok b) : ids.get? id = some b := by
  unfold findBlock at h
  split at h
  · next n hn =>
    cases h
    exact hn
  · cases h

theorem built_of_addEdgeLines {ids : Table Nat Nat} {edges : List EdgeLine} {g h : Graph}
    (hg : g.Built) (hi : ∀ id b, ids.get? id = some b → b < g.blocks.length)
    (hr : edges.foldlM (addEdgeLine ids) g = .ok h) : h.Built := by
  induction edges generalizing g with
  | nil => cases hr; exact hg
  | cons e rest ih =>
    cases hs : findBlock ids e.line e.source with
    | error x => simp [List.foldlM, addEdgeLine, hs, bind, Except.bind] at hr
    | ok source =>
      cases ht : findBlock ids e.line e.sink with
      | error x => simp [List.foldlM, addEdgeLine, hs, ht, bind, Except.bind] at hr
      | ok sink =>
        simp only [List.foldlM, addEdgeLine, hs, ht, bind, Except.bind, pure, Except.pure] at hr
        have hsource := hi _ _ (get?_of_findBlock hs)
        have hsink := hi _ _ (get?_of_findBlock ht)
        refine ih (.addEdge _ hsource hsink hg) (fun id b h => ?_) hr
        simpa [Graph.addEdge, Graph.modifyBlock] using hi id b h

theorem readRoutine_built (text : String) :
    wp (readRoutine text) (fun g _ => g.Built) (fun _ _ => True) {} := by
  unfold readRoutine
  simp only [wp_bind]
  have start : Draft.Sound {} := ⟨.empty _, by simp⟩
  refine wp_imp (readLines_sound 1 _ start) (fun _ d hd => ?_)
  have hf := Draft.finishBlock_sound hd
  simp only [wp_bind, wp_modify, wp_get]
  apply ofExcept_wp
  intro g hg
  exact built_of_addEdgeLines hf.built hf.ids hg

end AddressFormulas.Notation

namespace AddressFormulas.Graph

theorem built_of_read {text : String} {g : Graph} (h : Graph.read text = .ok g) : g.Built := by
  unfold Graph.read readWithJournal at h
  split at h
  · next g' d hr =>
    cases h
    exact wp_ok (Notation.readRoutine_built text) hr
  · cases h

end AddressFormulas.Graph
