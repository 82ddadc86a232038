import AddressFormulas.Proofs.Routine.Definitions

namespace AddressFormulas.Graph

inductive Route (g : Graph) (first : Nat) : Nat → List MicroOp → Prop
  | entry {b : Nat} {block : Block} : g.block? b = some block → block.isEntry = true →
      block.start = first → Route g first b []
  | next {e : Nat} {edge : Edge} {source sink : Block} {before : List MicroOp} :
      g.edge? e = some edge → g.block? edge.source = some source →
      g.block? edge.sink = some sink → sink.isEntry = false → Route g first edge.source before →
      Route g first edge.sink (before ++ source.ops)

/-- Micro-ops can be told apart, blocks are not empty, and each block but the entries has one edge
into it, which is no back edge. -/
structure JoinFree (g : Graph) : Prop where
  positive : ∀ b i u, g.op? b i = some u → 0 < u.pc
  distinct : g.DistinctSites
  nonempty : ∀ b block, g.block? b = some block → block.ops ≠ []
  incoming : ∀ b block, g.block? b = some block → block.isEntry = false →
    ∃ e edge, block.incoming = [e] ∧ g.edge? e = some edge ∧ edge.isBack = false

def isJoinFree (g : Graph) : Bool :=
  (g.blocks.flatMap fun block => block.ops.map MicroOp.site).Nodup &&
    g.blocks.all fun block => !block.ops.isEmpty && block.ops.all (0 < ·.pc) &&
      (block.isEntry || block.incoming.length = 1 &&
        block.incoming.all fun e => (g.edge? e).any (!·.isBack))

theorem joinFree_of_isJoinFree {g : Graph} (h : g.isJoinFree = true) : g.JoinFree := by
  simp only [isJoinFree, Bool.and_eq_true, decide_eq_true_eq, List.all_eq_true] at h
  obtain ⟨distinct, blocks⟩ := h
  refine ⟨fun b i u hu => ?_, distinctSites_of_nodup distinct, fun b block hb => ?_,
    fun b block hb hentry => ?_⟩
  · obtain ⟨block, hb, hu⟩ := op?_eq_some.mp hu
    exact (blocks block (List.mem_of_getElem? hb)).1.2 u (List.mem_of_getElem? hu)
  · simpa using (blocks block (List.mem_of_getElem? hb)).1.1
  · have single := (blocks block (List.mem_of_getElem? hb)).2
    simp only [hentry, Bool.false_or, Bool.and_eq_true, decide_eq_true_eq, List.all_eq_true] at single
    obtain ⟨e, he⟩ := List.length_eq_one_iff.mp single.1
    obtain ⟨edge, hedge, hback⟩ := (Option.any_eq_true _ _).mp (single.2 e (by simp [he]))
    exact ⟨e, edge, he, hedge, by simpa using hback⟩

variable {g : Graph} {first b : Nat} {before : List MicroOp}

theorem le_foldl_nextPc (us : List MicroOp) (n : Nat) :
    n ≤ us.foldl (fun m v => max m v.nextPc) n := by
  induction us generalizing n with
  | nil => exact Nat.le_refl _
  | cons u us ih => exact Nat.le_trans (Nat.le_max_left _ _) (ih _)

theorem JoinFree.range_pos (hj : g.JoinFree) (hg : g.WellFormed) {block : Block}
    (hb : g.block? b = some block) : 0 < block.start ∧ 0 < block.stop := by
  have nonempty := hj.nonempty b block hb
  have spans := hg.spans b block hb
  unfold spansOps at spans
  split at spans
  · rw [spans.1, spans.2]
    cases hops : block.ops with
    | nil => exact absurd hops nonempty
    | cons u us =>
      have pos : 0 < u.pc := hj.positive b 0 u (op?_eq_some.mpr ⟨block, hb, by simp [hops]⟩)
      have next : u.pc ≤ u.nextPc := Nat.le_add_right _ _
      exact ⟨pos, Nat.lt_of_lt_of_le pos (Nat.le_trans next (le_foldl_nextPc us u.nextPc))⟩
  · exact absurd spans nonempty

theorem JoinFree.incoming_eq (hj : g.JoinFree) (hg : g.WellFormed) {e : Nat} {edge : Edge}
    {sink : Block} (he : g.edge? e = some edge) (hsink : g.block? edge.sink = some sink)
    (hentry : sink.isEntry = false) : sink.incoming = [e] ∧ edge.isBack = false := by
  obtain ⟨e', edge', hin, he', hback⟩ := hj.incoming _ sink hsink hentry
  have mem : e ∈ sink.incoming := by
    rw [hg.incoming_eq _ sink hsink]
    exact mem_edgesInto.mpr ⟨edge, he, rfl⟩
  obtain rfl : e = e' := by simpa [hin] using mem
  obtain rfl := Option.some.inj (he.symm.trans he')
  exact ⟨hin, hback⟩

theorem JoinFree.edge_eq (hj : g.JoinFree) (hg : g.WellFormed) {e e' : Nat} {edge edge' : Edge}
    {sink : Block} (he : g.edge? e = some edge) (he' : g.edge? e' = some edge')
    (hs : edge.sink = edge'.sink) (hsink : g.block? edge.sink = some sink)
    (hentry : sink.isEntry = false) : edge = edge' := by
  have into := (hj.incoming_eq hg he hsink hentry).1
  have into' := (hj.incoming_eq hg he' (hs ▸ hsink) hentry).1
  obtain rfl : e = e' := by simpa [into] using into'
  exact Option.some.inj (he.symm.trans he')

theorem Route.unique (hj : g.JoinFree) (hg : g.WellFormed) (h : g.Route first b before)
    {before' : List MicroOp} (h' : g.Route first b before') : before = before' := by
  induction h generalizing before' with
  | entry hb he _ =>
    cases h' with
    | entry => rfl
    | next _ _ hs hne _ =>
      cases hb.symm.trans hs
      cases he.symm.trans hne
  | @next e edge source sink before hedge hsource hsink hne _ ih =>
    generalize hb : edge.sink = b at h'
    cases h' with
    | entry hb' he _ =>
      subst hb
      cases hsink.symm.trans hb'
      cases hne.symm.trans he
    | @next e' edge' source' _ _ hedge' hsource' _ _ hroute' =>
      obtain rfl := hj.edge_eq hg hedge hedge' hb hsink hne
      obtain rfl := Option.some.inj (hsource.symm.trans hsource')
      rw [ih hroute']

theorem Route.op_at (h : g.Route first b before) {k : Nat} {u : MicroOp}
    (hu : before[k]? = some u) :
    ∃ c i p, g.Route first c p ∧ g.op? c i = some u ∧ p.length + i = k := by
  induction h with
  | entry => simp at hu
  | @next e edge source sink before hedge hsource hsink hne hroute ih =>
    by_cases hk : k < before.length
    · rw [List.getElem?_append_left hk] at hu
      exact ih hu
    · rw [List.getElem?_append_right (by omega)] at hu
      exact ⟨edge.source, k - before.length, before, hroute,
        op?_eq_some.mpr ⟨source, hsource, hu⟩, by omega⟩

theorem Route.op_at_take (h : g.Route first b before) {block : Block}
    (hb : g.block? b = some block) {k i : Nat} {u : MicroOp}
    (hu : (before ++ block.ops.take i)[k]? = some u) :
    ∃ c j p, g.Route first c p ∧ g.op? c j = some u ∧ p.length + j = k := by
  by_cases hk : k < before.length
  · rw [List.getElem?_append_left hk] at hu
    exact h.op_at hu
  · rw [List.getElem?_append_right (by omega), List.getElem?_take] at hu
    split at hu
    · exact ⟨b, k - before.length, before, h, op?_eq_some.mpr ⟨block, hb, hu⟩, by omega⟩
    · cases hu

theorem Route.sites_distinct (hj : g.JoinFree) (hg : g.WellFormed) (h : g.Route first b before)
    {block : Block} (hb : g.block? b = some block) {i k k' : Nat} {u u' : MicroOp}
    (hu : (before ++ block.ops.take i)[k]? = some u)
    (hu' : (before ++ block.ops.take i)[k']? = some u') (hs : u.site = u'.site) : k = k' := by
  obtain ⟨c, j, p, hc, hop, rfl⟩ := h.op_at_take hb hu
  obtain ⟨c', j', p', hc', hop', rfl⟩ := h.op_at_take hb hu'
  obtain ⟨rfl, rfl⟩ := hj.distinct _ _ _ _ _ _ hop hop' hs
  rw [hc.unique hj hg hc']

end AddressFormulas.Graph
