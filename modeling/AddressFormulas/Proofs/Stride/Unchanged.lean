import AddressFormulas.Proofs.Base.Values
import AddressFormulas.Proofs.Loop.Return
import AddressFormulas.Proofs.Stride.Completion
import AddressFormulas.Proofs.Walk.Claiming

/-!
Addresses that a loop does not change. A walk for a register that no block of the path defines meets
nothing that could end it, so it goes around the ring of the path. It takes a back edge of the loop
each time around, and behind the second one it is out of the iteration window; the value is then
from outside, and the stride is zero.
-/

namespace AddressFormulas

theorem Register.overlaps_canonical (r s : Register) : r.overlaps s.canonical = r.overlaps s := by
  unfold overlaps isAbsent cls canonical
  rw [RegisterName.parent_parent, RegisterName.cls_parent]

theorem MicroOp.writes?_canonical (u : MicroOp) (r : Register) :
    u.writes? r.canonical = u.writes? r := by
  simp only [writes?, Register.overlaps_canonical]

theorem Formula.zero_add_zero_scale (c : Coeff) : zero + zero.scale c = zero := by
  unfold scale
  split <;> rfl

namespace CyclicPath

section

/-- A path of `n` blocks whose last edge leads to block number `last`: how many edges there are from
block number `i` up to edge number `turn` of the ring. -/
def edgesToTurn (n last turn i : Nat) : Nat :=
  if i ≤ turn then turn - i + 1 else n - i + (turn - last) + 1

/-- How many edges a walk takes at most until it is behind two back edges of the loop, if the one at
the turn is a back edge. -/
def edgesLeft (n last turn i : Nat) : Nat → Nat
  | 0 => n - last + edgesToTurn n last turn i
  | 1 => edgesToTurn n last turn i
  | _ => 0

variable {n last turn i backEdges crossed : Nat}

theorem edgesToTurn_pos : 0 < edgesToTurn n last turn i := by
  unfold edgesToTurn
  split <;> omega

theorem edgesToTurn_next (hi : i < n) (hl : last ≤ turn) (ht : turn < n) (hne : i ≠ turn) :
    edgesToTurn n last turn (if i + 1 < n then i + 1 else last) + 1 =
      edgesToTurn n last turn i := by
  unfold edgesToTurn
  by_cases inner : i + 1 < n
  · rw [if_pos inner]
    split <;> split <;> omega
  · rw [if_neg inner, if_pos hl, if_neg (by omega)]
    omega

theorem edgesToTurn_turn (hl : last ≤ turn) (ht : turn < n) :
    edgesToTurn n last turn (if turn + 1 < n then turn + 1 else last) = n - last := by
  unfold edgesToTurn
  by_cases inner : turn + 1 < n
  · rw [if_pos inner, if_neg (by omega)]
    omega
  · rw [if_neg inner, if_pos hl]
    omega

theorem edgesLeft_next (hi : i < n) (hl : last ≤ turn) (ht : turn < n) (hb : backEdges < 2)
    (hc : crossed ≤ 1) (hturn : i = turn → crossed = 1) :
    edgesLeft n last turn (if i + 1 < n then i + 1 else last) (backEdges + crossed) <
      edgesLeft n last turn i backEdges := by
  have pos : 0 < edgesToTurn n last turn i := edgesToTurn_pos
  have before : backEdges = 0 ∨ backEdges = 1 := by omega
  by_cases here : i = turn
  · obtain rfl := hturn here
    have ring := edgesToTurn_turn hl ht
    subst here
    obtain rfl | rfl := before <;> simp only [edgesLeft] <;> omega
  · have nearer := edgesToTurn_next hi hl ht here
    have count : crossed = 0 ∨ crossed = 1 := by omega
    obtain rfl | rfl := before <;> obtain rfl | rfl := count <;> simp only [edgesLeft] <;> omega

theorem edgesLeft_le (hl : last ≤ turn) (ht : turn < n) :
    edgesLeft n last turn i backEdges ≤ 3 * n := by
  have bound : edgesToTurn n last turn i ≤ 2 * n := by
    unfold edgesToTurn
    split <;> omega
  unfold edgesLeft
  split <;> omega

end

section

variable {g : Graph} {start marker last back : Nat} {blocks edges : List Nat}

theorem Found.exists_turn (h : Found g start marker blocks edges last)
    (hb : edges.findIdx? (g.isLoopBackEdge marker) = some back) :
    ∃ turn, last ≤ turn ∧ turn < blocks.length ∧
      ∀ e, edges[turn]? = some e → g.isLoopBackEdge marker e = true := by
  obtain ⟨e, he, hback⟩ := List.any_eq_true.mp (h.any_drop hb)
  obtain ⟨i, hi⟩ := List.getElem?_of_mem he
  rw [List.getElem?_drop] at hi
  have lt := (List.getElem?_eq_some_iff.mp hi).1
  refine ⟨last + i, by omega, by rw [h.length]; exact lt, fun e' he' => ?_⟩
  rwa [Option.some.inj (he'.symm.trans hi)]

end

end CyclicPath

namespace Stride

open WalkM

structure Searching (p : CyclicPath) (values : Pending ValueSource) (backEdges : Nat)
    (w : Walk StrideState) : Prop where
  path : w.client.path = some p
  values : w.client.values = values
  startBackEdges : w.client.startBackEdges = 0
  backEdges : w.client.backEdges = backEdges

structure LeftOutside (p : CyclicPath) (values : Pending ValueSource) (reg : Register)
    (w : Walk StrideState) : Prop where
  path : w.client.path = some p
  values : w.client.values = values.push reg .outside

variable {task : Task} {p : CyclicPath} {values : Pending ValueSource} {backEdges : Nat}
  {reg : Register} {w : Walk StrideState}

theorem push_leftOutside (h : Searching p values backEdges w) :
    ends (push reg .outside) (fun _ w' => LeftOutside p values reg w') w :=
  ⟨h.path, congrArg (·.push reg .outside) h.values⟩

theorem enterBlock_searching (h : Searching p values backEdges w) {b : Nat} {block : Block}
    (hb : task.graph.block? b = some block) :
    ends (enterBlock task b reg) (fun enter w' =>
      enter = true ∧ backEdges < 2 ∧ w' = w ∨ enter = false ∧ LeftOutside p values reg w') w := by
  unfold enterBlock
  simp only [ends, wp_bind, hb, wp_require_some, wp_get]
  split
  · exact wp_bind.mpr (wp_imp (push_leftOutside h) fun _ w' h' => .inr ⟨rfl, h'⟩)
  · next hin =>
    refine .inl ⟨rfl, ?_, rfl⟩
    by_contra late
    apply hin
    simp only [StrideState.outsideWindow, h.startBackEdges, h.backEdges, Bool.or_eq_true,
      decide_eq_true_eq]
    omega

theorem Searching.crossed (h : Searching p values backEdges w) (count : Nat) :
    Searching p values (backEdges + count) (crossed count w) :=
  ⟨h.path, h.values, h.startBackEdges, congrArg (· + count) h.backEdges⟩

theorem LeftOutside.uncrossed (h : LeftOutside p values reg w) (count : Nat) :
    LeftOutside p values reg (uncrossed count w) := ⟨h.path, h.values⟩

section Ring

variable {start last back turn : Nat} {blocks edges : List Nat}

/-- Where nothing on the path defines the register, the walk goes around until it is behind two back
edges of the loop. -/
theorem walk_leftOutside (hg : task.graph.WellFormed)
    (hp : CyclicPath.Found task.graph start task.marker blocks edges last) (hl : last ≤ turn)
    (ht : turn < blocks.length)
    (hturn : ∀ e, edges[turn]? = some e → task.graph.isLoopBackEdge task.marker e = true)
    (hquiet : ∀ b ∈ blocks, ∀ k u, task.graph.op? b k = some u → u.defines? reg = none)
    (depth : Nat) {i b before : Nat} {bounds : Bounds} (hi : blocks[i]? = some b)
    (hdepth : CyclicPath.edgesLeft blocks.length last turn i backEdges < depth)
    (h : Searching (CyclicPath.pathOf task.marker blocks edges back) values backEdges w) :
    ends ((slicer task).walk task.graph depth ⟨b, before⟩ reg bounds) (fun _ w' =>
      LeftOutside (CyclicPath.pathOf task.marker blocks edges back) values reg w') w := by
  -- each edge takes one from `edgesLeft`, so the depth lasts until the walk is out of the window
  induction depth generalizing i b before bounds backEdges w with
  | zero => omega
  | succ depth ih =>
    have hlt := (List.getElem?_eq_some_iff.mp hi).1
    obtain ⟨taken, edge, htaken, hedge, hsink, hsource⟩ := hp.edge_at i hlt
    have sink : edge.sink = b := Option.some.inj (hsink.symm.trans hi)
    obtain ⟨block, hblock⟩ : ∃ block, task.graph.block? b = some block :=
      ⟨_, List.getElem?_eq_getElem (sink ▸ hg.sink_lt taken edge hedge)⟩
    have undefined : block.definition? before reg = none := by
      cases hd : block.definition? before reg with
      | none => rfl
      | some found =>
        obtain ⟨_, hu, hdefines, _⟩ := Block.definition?_eq_some hblock hd
        rw [hquiet b (List.mem_of_getElem? hi) _ _ hu] at hdefines
        cases hdefines
    have searching : Searching (CyclicPath.pathOf task.marker blocks edges back) values backEdges
        { w with bounds } := ⟨h.path, h.values, h.startBackEdges, h.backEdges⟩
    refine wp_bind.mpr (wp_bind.mpr (wp_bind.mpr ?_))
    simp only [hblock, wp_require_some, undefined]
    refine wp_bind.mpr (wp_imp (enterBlock_searching searching hblock) ?_)
    rintro enter w₁ (⟨rfl, inside, rfl⟩ | ⟨rfl, h₁⟩)
    · simp only [if_true, wp_bind, hblock, wp_require_some]
      obtain ⟨source, hblock'⟩ : ∃ source, task.graph.block? edge.source = some source :=
        ⟨_, List.getElem?_eq_getElem (hg.source_lt taken edge hedge)⟩
      apply wp_walkEdges searching.path (CyclicPath.lookup_zip hp.nodup hi htaken)
        (fun e he => hg.mem_incoming hblock ((mem_sortBy _ e _).mp he)) hedge hblock'
      · exact fun _ => push_leftOutside searching
      have counted : turns task taken ≤ 1 := by
        unfold turns
        split <;> omega
      have nearer := CyclicPath.edgesLeft_next hlt hl ht inside counted fun here =>
        if_pos (hturn taken (here ▸ htaken))
      apply wp_imp (ih hsource (by omega) (searching.crossed (turns task taken)))
      exact fun _ _ h₂ => h₂.uncrossed _
    · exact h₁

theorem registerStride_leftOutside (h : LeftOutside p {} reg w) :
    ends (registerStride reg) (fun f w' => f = .zero ∧ w'.client.path = some p) w := by
  refine wp_bind.mpr ?_
  cases hc : w.client.values.claim? reg with
  | none => exact wp_claim_none hc ⟨rfl, h.path⟩
  | some c =>
    obtain ⟨before, after, hes, _, _, _⟩ := Pending.split_of_takeFirst? hc
    have outside : c.value = .outside := by
      have there : (c.slot, c.value) ∈ w.client.values.newestFirst := by simp [hes]
      rw [h.values] at there
      unfold Pending.push at there
      split at there
      · cases there
      · exact congrArg Prod.snd (List.mem_singleton.mp there)
    refine wp_claim_some hc fun told => ?_
    rw [outside]
    exact ⟨rfl, h.path⟩

end Ring

def OnPath (p : CyclicPath) (w : Walk StrideState) : Prop :=
  w.client.path = none ∨ w.client.path = some p

structure Cleared (p : CyclicPath) (w : Walk StrideState) : Prop where
  onPath : OnPath p w
  values : w.client.values = {}
  backEdges : w.client.backEdges = 0

theorem clear_cleared (h : OnPath p w) : ends clear (fun _ w' => Cleared p w') w := ⟨h, rfl, rfl⟩

theorem start_searching {b : Nat} {block : Block} (hblock : task.graph.block? b = some block)
    (h : Cleared p w) (hpath : w.client.path = some p) (i : Nat) :
    ends (start task ⟨b, i⟩ reg) (fun _ w' => Searching p {} 0 w') w := by
  unfold start
  simp only [ends, wp_bind, hblock, wp_require_some, wp_modifyClient]
  split
  · exact ⟨hpath, h.values, h.backEdges, h.backEdges⟩
  · exact ⟨hpath, h.values, h.backEdges, h.backEdges⟩

section Slices

variable {b : Nat} {block : Block} (hblock : task.graph.block? b = some block)
  (hp : CyclicPath.build? task.graph b task.marker = some p)

include hblock hp

theorem ensurePath_cleared (h : Cleared p w) :
    ends (ensurePath task b) (fun _ w' => Cleared p w' ∧ w'.client.path = some p) w := by
  have found : CyclicPath.find task.graph b task.marker = .ok p := by simp [CyclicPath.find, hp]
  refine ends_client.mpr ?_
  split
  · next hany =>
    obtain absent | present := h.onPath
    · simp [absent] at hany
    · exact ⟨h, present⟩
  · refine ends_modifyClient.mpr ?_
    simp only [ends, wp_bind, hblock, wp_require_some, found, wp_tellAll, wp_modifyClient]
    exact ⟨⟨.inr rfl, h.values, h.backEdges⟩, trivial⟩

theorem startSlice_leftOutside (hg : task.graph.WellFormed)
    (hdepth : reach task.graph ≤ task.settings.depth) {i : Nat} {bounds : Bounds}
    (hquiet : ∀ c ∈ p.blocks, ∀ k u, task.graph.op? c k = some u → u.defines? reg = none)
    (h : Cleared p w) :
    ends (startSlice task ⟨b, i⟩ reg bounds) (fun _ w' => LeftOutside p {} reg w') w := by
  have slices : ∀ w', Cleared p w' → w'.client.path = some p →
      ends (slice task ⟨b, i⟩ reg bounds) (fun _ w'' => LeftOutside p {} reg w'') w' := by
    intro w₁ h₁ hpath
    refine wp_bind.mpr (wp_imp (start_searching hblock h₁ hpath i) fun _ w₂ h₂ => ?_)
    obtain ⟨blocks, edges, last, back, hf, hb, rfl⟩ := CyclicPath.found_of_build? hg hp
    obtain ⟨turn, hl, ht, hturn⟩ := hf.exists_turn hb
    rw [hf.blocks_eq] at hquiet
    refine walk_leftOutside hg hf hl ht hturn hquiet _ hf.start_at ?_ h₂
    have all : CyclicPath.edgesLeft blocks.length last turn 0 0 ≤ 3 * blocks.length :=
      CyclicPath.edgesLeft_le hl ht
    have length := hf.length_le hg
    unfold reach at hdepth
    omega
  refine ends_client.mpr ?_
  extract_lets cycles begin'
  have begins : ∀ w', Cleared p w' →
      ends (begin' ()) (fun _ w'' => LeftOutside p {} reg w'') w' := by
    intro w' h'
    refine ends_modifyClient.mpr (wp_bind.mpr (wp_imp (ensurePath_cleared hblock hp
      ⟨h'.onPath, h'.values, h'.backEdges⟩) ?_))
    rintro _ w₁ ⟨h₁, hpath⟩
    exact slices w₁ h₁ hpath
  split
  · exact begins _ ⟨h.onPath, h.values, h.backEdges⟩
  · exact begins w h

theorem strideTerms_zero (hg : task.graph.WellFormed)
    (hdepth : reach task.graph ≤ task.settings.depth) {i : Nat} {op : MicroOp}
    {terms : List (TermKey × Term)}
    (hquiet : ∀ e ∈ terms, ∀ site reg, e.1 = .register site reg → ∀ c ∈ p.blocks, ∀ k u,
      task.graph.op? c k = some u → u.defines? reg = none) (h : OnPath p w) :
    ends (strideTerms task ⟨b, i, op⟩ terms .zero) (fun f _ => f = .zero) w := by
  induction terms generalizing w with
  | nil => rfl
  | cons e rest ih =>
    have ihr : ∀ w, OnPath p w →
        ends (strideTerms task ⟨b, i, op⟩ rest .zero) (fun f _ => f = .zero) w :=
      fun w => ih fun e' he' => hquiet e' (List.mem_cons_of_mem e he')
    unfold strideTerms
    split
    · next he => cases he
    · next he =>
      cases he
      split
      · exact ihr w h
      · refine wp_bind.mpr (wp_imp (clear_cleared h) fun _ w₁ h₁ => ?_)
        refine wp_bind.mpr (wp_imp (startSlice_leftOutside hblock hp hg hdepth
          (hquiet _ List.mem_cons_self _ _ rfl) h₁) fun _ w₂ h₂ => ?_)
        refine wp_bind.mpr (wp_imp (registerStride_leftOutside h₂) ?_)
        rintro stride w₃ ⟨rfl, path⟩
        dsimp only
        rw [Formula.zero_add_zero_scale]
        exact ihr w₃ (.inr path)
    · next he =>
      cases he
      exact ihr w h

end Slices

/-- If no micro-op on the path writes a register of the address, conditional moves aside, the stride
is zero and has no marks. -/
theorem operandStride_zero (task : Task) (session : StrideSession) (hg : task.graph.Built)
    (hdepth : reach task.graph ≤ task.settings.depth) {b index : Nat} {opidx : Int} {op : MicroOp}
    {m : MemoryOperand} (hop : task.graph.op? b index = some op)
    (hm : op.memoryOperands.find? (·.opidx = opidx) = some m) {p : CyclicPath}
    (hp : CyclicPath.build? task.graph b task.marker = some p)
    (hquiet : ∀ c ∈ p.blocks, ∀ k u, task.graph.op? c k = some u → u.conditional = false →
      ∀ r ∈ m.base.toList ++ m.index.toList, u.writes? r = none) :
    ∃ w, (operandStride task b index opidx).run { client := { session } } = .ok .zero w := by
  obtain ⟨block, hblock, hop'⟩ := Graph.op?_eq_some.mp hop
  have undefined : ∀ e ∈ (op.addressFormula m).terms.entries, ∀ site reg,
      e.1 = .register site reg → ∀ c ∈ p.blocks, ∀ k u, task.graph.op? c k = some u →
        u.defines? reg = none := by
    intro e he site reg hkey c hc k u hu
    obtain ⟨_, r, hr, rfl⟩ := Base.key_of_mem_addressFormula he hkey
    unfold MicroOp.defines?
    split
    · rfl
    · next unconditional =>
      rw [MicroOp.writes?_canonical]
      refine hquiet c hc k u hu (by simpa using unconditional) r ?_
      rw [List.mem_append, Option.mem_toList, Option.mem_toList]
      exact hr
  have computes : ends (operandStride task b index opidx) (fun f _ => f = .zero)
      { client := { session } } := by
    unfold operandStride
    simp only [ends, wp_bind, hblock, hop', wp_require_some, hm]
    refine wp_imp (strideTerms_zero hblock hp hg.wellFormed hdepth undefined (.inl rfl)) ?_
    rintro sum w rfl
    rfl
  obtain ⟨f, w, run, rfl⟩ := run_of_ends computes
  exact ⟨w, run⟩

def quietLoop : Graph :=
  let rax : Register := ⟨.listed 0, 0, 63⟩
  let rbx : Register := ⟨.listed 4, 0, 63⟩
  let rcx : Register := ⟨.listed 8, 0, 63⟩
  let load (pc : Nat) (m : MemoryOperand) : MicroOp :=
    { pc, kind := .load, operation := .mov, sources := [.memory m],
      destinations := [.register rcx] }
  let select : MicroOp :=
    { pc := 0x10, kind := .move, operation := .mov, sources := [.register rcx],
      destinations := [.register rax], conditional := true }
  let count : MicroOp :=
    { pc := 0x30, kind := .alu, operation := .add, sources := [.register rcx, .immediate 8],
      destinations := [.register rcx] }
  ((((((({ loopTree := [0, 0] } : Graph).addBlock 0 1 [select]).addBlock 1 1
    [load 0x20 { base := some rax, index := some rbx, scale := 4 }]).addBlock 2 1
      [count, load 0x34 { base := some rcx }]).addEdge 0 1 false).addEdge 0 2 false).addEdge
        1 0 true).addEdge 2 0 true

theorem operandStride_zero_quietLoop :
    CyclicPath.build? quietLoop 1 1 = some ⟨1, [(1, 0), (0, 3), (2, 1)], [(2, 3), (1, 2), (0, 1)]⟩ ∧
    (quietLoop.op? 0 0).map (·.writes? ⟨.listed 0, 0, 63⟩) = some (some ⟨.listed 0, 0, 63⟩) ∧
    ∃ w, (operandStride ⟨{}, quietLoop, {}, 1⟩ 1 0 0).run { client := {} } = .ok .zero w := by
  have start : Graph.Built ({ loopTree := [0, 0] } : Graph) := .setLoopParents [0] rfl (.empty "")
  have built : quietLoop.Built := .addEdge _ (by decide) (by decide) <|
    .addEdge _ (by decide) (by decide) <| .addEdge _ (by decide) (by decide) <|
    .addEdge _ (by decide) (by decide) <| .addBlock _ _ _ <| .addBlock _ _ _ <|
    .addBlock _ _ _ start
  have path : CyclicPath.build? quietLoop 1 1 =
      some ⟨1, [(1, 0), (0, 3), (2, 1)], [(2, 3), (1, 2), (0, 1)]⟩ := by decide +kernel
  have quiet : ∀ block ∈ quietLoop.blocks, ∀ u ∈ block.ops, u.conditional = false →
      ∀ r ∈ [(⟨.listed 0, 0, 63⟩ : Register), ⟨.listed 4, 0, 63⟩], u.writes? r = none := by
    decide
  refine ⟨path, by decide, operandStride_zero ⟨{}, quietLoop, {}, 1⟩ {} built (by decide) rfl rfl
    path fun c _ k u hu => ?_⟩
  obtain ⟨block, hblock, hu⟩ := Graph.op?_eq_some.mp hu
  exact quiet block (List.mem_of_getElem? hblock) u (List.mem_of_getElem? hu)

end Stride

end AddressFormulas
