import AddressFormulas.Proofs.Base.Definition
import AddressFormulas.Proofs.Base.Edges
import AddressFormulas.Proofs.Base.Meaning

namespace AddressFormulas.Base

open WalkM

variable {settings : Settings} {g : Graph} {first : Nat} {ops : List MicroOp}
  {st : Nat → Registers} {ρ : TermKey → BitVec 64} {w : Walk BaseState}

def OnWay (g : Graph) (first : Nat) (ops : List MicroOp) (b n i : Nat) : Prop :=
  ∃ before block, g.Route first b before ∧ g.block? b = some block ∧ i ≤ block.ops.length ∧
    before ++ block.ops.take i <+: ops ∧ before.length = n

section OnWay

variable {b n i j : Nat}

theorem OnWay.block (h : OnWay g first ops b n i) : ∃ block, g.block? b = some block := by
  obtain ⟨_, block, _, hb, _⟩ := h
  exact ⟨block, hb⟩

theorem OnWay.le (h : OnWay g first ops b n i) : n + i ≤ ops.length := by
  obtain ⟨before, block, _, _, hi, hpre, rfl⟩ := h
  have := hpre.length_le
  rwa [List.length_append, List.length_take, Nat.min_eq_left hi] at this

theorem OnWay.up (h : OnWay g first ops b n i) (hj : j ≤ i) : OnWay g first ops b n j := by
  obtain ⟨before, block, hroute, hb, hi, hpre, hn⟩ := h
  refine ⟨before, block, hroute, hb, hj.trans hi, ?_, hn⟩
  have shorter : block.ops.take j <+: block.ops.take i := List.take_prefix_take_left hj
  exact ((List.prefix_append_right_inj before).mpr shorter).trans hpre

theorem OnWay.op (h : OnWay g first ops b n i) {u : MicroOp} (hj : j < i)
    (hu : g.op? b j = some u) : ops[n + j]? = some u := by
  obtain ⟨before, block, _, hb, hi, ⟨rest, rfl⟩, rfl⟩ := h
  obtain ⟨block', hb', hu⟩ := Graph.op?_eq_some.mp hu
  obtain rfl := Option.some.inj (hb.symm.trans hb')
  have found : (before ++ block.ops.take i)[before.length + j]? = some u := by
    rw [List.getElem?_append_right (by omega), Nat.add_sub_cancel_left, List.getElem?_take_of_lt hj]
    exact hu
  rw [List.getElem?_append_left (List.getElem?_eq_some_iff.mp found).1]
  exact found

theorem OnWay.untouched (S : Scene g first ops st ρ) (h : OnWay g first ops b n i) {reg : Register}
    (hr : reg.isWhole = true) (j : Nat)
    (hnone : ∀ l v, j ≤ l → l < i → g.op? b l = some v → v.defines? reg = none) :
    Untouched ops reg (n + j) (n + i) := by
  intro k u hk₀ hk hu
  obtain ⟨l, rfl⟩ : ∃ l, k = n + l := ⟨k - n, by omega⟩
  have hop : ∃ v, g.op? b l = some v := by
    obtain ⟨before, block, _, hb, hi, _⟩ := h
    have hl : l < block.ops.length := by omega
    exact ⟨block.ops[l], Graph.op?_eq_some.mpr ⟨block, hb, List.getElem?_eq_getElem hl⟩⟩
  obtain ⟨v, hv⟩ := hop
  obtain rfl := Option.some.inj (hu.symm.trans (h.op (by omega) hv))
  have undefined := hnone l u (by omega) (by omega) hv
  obtain hkeeps | ⟨d, hc, _⟩ := S.modelled u (List.mem_of_getElem? hu)
  · exact hkeeps reg hr
  · rwa [MicroOp.defines?, hc.unconditional] at undefined

end OnWay

def Extends (ops : List MicroOp) (k : Nat) (defs defs' : Table Site Formula) : Prop :=
  ∀ j (u : MicroOp), k ≤ j → ops[j]? = some u → defs'.get? u.site = defs.get? u.site

def Found (first : Nat) (ops : List MicroOp) (st : Nat → Registers) (ρ : TermKey → BitVec 64)
    (k : Nat) (reg : Register) (vs : List (Slot × Formula)) (defs : Table Site Formula)
    (w : Walk BaseState) : Prop :=
  ∃ f defs', Holds first ops st ρ k reg f ∧ Known first ops st ρ defs' ∧ Extends ops k defs defs' ∧
    At ((.register reg, f) :: vs) defs' w

def SoundWalks (g : Graph) (first : Nat) (ops : List MicroOp) (st : Nat → Registers)
    (ρ : TermKey → BitVec 64) (walk : Slicer.WalkFor BaseState) : Prop :=
  ∀ {b n i reg bounds vs defs w}, OnWay g first ops b n i → IsPlain reg → bounds.stop = 0 →
    At vs defs w → Known first ops st ρ defs →
    yields (walk ⟨b, i⟩ reg bounds) (fun _ => Found first ops st ρ (n + i) reg vs defs) w

section Walks

variable {walk : Slicer.WalkFor BaseState} {follow : Slicer.FollowFor BaseState}
  {b n i k : Nat} {vs : List (Slot × Formula)} {defs : Table Site Formula}
  {u : MicroOp} {d reg : Register}

theorem sliceSource_sound (hw : SoundWalks g first ops st ρ walk) (h : OnWay g first ops b n i)
    {source : Register} (hr : source.isWhole = true) (hat : At vs defs w)
    (hknown : Known first ops st ρ defs) :
    yields ((slicer settings g).sliceSource walk ⟨b, i, u⟩ source)
      (fun _ => Found first ops st ρ (n + i) source.canonical vs defs) w := by
  have plain := isPlain_canonical hr
  have counts := counts_of_whole plain.1
  have stack : source.canonical.isStack = false := by
    simp [Register.isStack, (Register.isWhole_iff.mp plain.1).1]
  unfold Slicer.sliceSource
  dsimp only
  rw [if_neg (by simpa using counts), hardwired?_of_whole plain.1, stack]
  exact hw h plain rfl hat hknown

theorem sliceSources_sound (hw : SoundWalks g first ops st ρ walk) (h : OnWay g first ops b n i)
    {rs : List Register} (hr : ∀ r ∈ rs, r.isWhole = true) (hat : At vs defs w)
    (hknown : Known first ops st ρ defs) :
    yields ((slicer settings g).sliceSources walk ⟨b, i, u⟩ rs) (fun _ w' => ∃ top defs',
      Supplies (Holds first ops st ρ (n + i)) (rs.map Register.canonical) top ∧
      Known first ops st ρ defs' ∧ Extends ops (n + i) defs defs' ∧
      At (puts top ++ vs) defs' w') w := by
  induction rs generalizing vs defs w with
  | nil =>
    exact ⟨[], defs, ⟨.nil, by simp, by simp⟩, hknown, fun _ _ _ _ => rfl, hat⟩
  | cons r rs ih =>
    have whole := hr r List.mem_cons_self
    refine wp_bind.mpr (wp_imp (sliceSource_sound hw h whole hat hknown) ?_)
    rintro _ w₁ ⟨f, defs₁, hf, hknown₁, hext₁, hat₁⟩
    refine wp_imp (ih (fun s hs => hr s (List.mem_cons_of_mem r hs)) hat₁ hknown₁) ?_
    rintro _ w₂ ⟨top, defs₂, hsup, hknown₂, hext₂, hat₂⟩
    refine ⟨top ++ [(r.canonical, f)], defs₂, ⟨?_, ?_, ?_⟩, hknown₂, ?_, ?_⟩
    · rw [List.map_append]
      exact (List.perm_append_singleton _ _).trans (hsup.perm.cons _)
    · intro s hs
      obtain rfl | hs := List.mem_cons.mp hs
      · exact isPlain_canonical whole
      · exact hsup.plain s hs
    · intro e he
      obtain he | he := List.mem_append.mp he
      · exact hsup.good e he
      · obtain rfl := List.mem_singleton.mp he
        exact hf
    · exact fun j v hj hv => (hext₂ j v hj hv).trans (hext₁ j v hj hv)
    · simpa [puts] using hat₂

theorem enterOp_yields (hc : u.Computes d) (hat : At vs defs w) :
    yields (enterOp settings follow ⟨b, i, u⟩ reg) (fun enters w' =>
      (enters = true ↔ defs.get? u.site = none ∧ u.sourceRegisters ≠ []) ∧ At vs defs w') w := by
  unfold enterOp
  refine wp_bind.mpr (wp_get.mpr ?_)
  dsimp only
  by_cases hdef : defs.get? u.site = none
  · have unknown : ¬(u.pc < w.bounds.stop ∨ w.client.definitions.contains u.site = true) := by
      simp [hat.stop, hat.definitions, Table.contains, hdef]
    rw [if_neg unknown]
    refine wp_bind.mpr (wp_imp (classify_yields hat u) ?_)
    rintro _ w₁ ⟨rfl, hat₁⟩
    rw [hc.effect_eq]
    by_cases hnone : u.sourceRegisters = []
    · rw [if_pos hnone]
      exact ⟨by simp [hnone], hat₁⟩
    · rw [if_neg hnone]
      dsimp only
      rw [if_neg hc.valid]
      exact ⟨by simp [hnone, hdef], hat₁⟩
  · have known : u.pc < w.bounds.stop ∨ w.client.definitions.contains u.site = true := by
      simp [hat.definitions, Table.contains, Option.isSome_iff_ne_none, hdef]
    rw [if_pos known]
    exact ⟨by simp [hdef], hat⟩

theorem leaveOp_known (hr : reg.isWhole = true) (hat : At vs defs w) {f : Formula}
    (hdef : defs.get? u.site = some f) :
    yields (leaveOp settings g ⟨b, i, u⟩ reg)
      (fun _ w' => At ((.register reg, f) :: vs) defs w') w := by
  have known := hat.definitions ▸ hdef
  apply (wp_congr (leaveOp_run_known (hat.stop.le.trans (Nat.zero_le _)) known)).mpr
  exact push_yields hat hr f

theorem leaveOp_computed {P : Register → Formula → Prop} {top : List (Register × Formula)}
    (hs : settings.strict = false) (hc : u.Computes d) (hr : reg.isWhole = true)
    (hdef : defs.get? u.site = none) (hsup : Supplies P (claimed u) top)
    (hat : At (puts top ++ vs) defs w) :
    yields (leaveOp settings g ⟨b, i, u⟩ reg) (fun _ w' => ∃ fs,
      List.Forall₂ P (claimed u) fs ∧
      At ((.register reg, settled u reg fs) :: vs) (defs.insert u.site (settled u reg fs)) w') w := by
  apply wp_leaveOp_new (hat.stop.le.trans (Nat.zero_le _)) (hat.definitions ▸ hdef)
  apply wp_imp (definitionValue_yields hs hc reg hsup hat)
  rintro _ w₁ ⟨⟨fs, hfs, rfl⟩, hat₁⟩ journal
  refine ⟨fs, hfs, ?_⟩
  have recorded : At vs (defs.insert u.site (settled u reg fs)) { w₁ with
      client := { w₁.client with
        definitions := w₁.client.definitions.insert u.site (settled u reg fs) }
      journal } :=
    ⟨hat₁.values, by rw [← hat₁.definitions], hat₁.stop⟩
  exact push_yields recorded hr (settled u reg fs)

variable {f : Formula}

theorem Known.insert (S : Scene g first ops st ρ) (h : Known first ops st ρ defs)
    (hu : ops[k]? = some u) (hf : ∀ d, u.Computes d → Holds first ops st ρ (k + 1) d.canonical f) :
    Known first ops st ρ (defs.insert u.site f) := by
  intro k' v d' f' hv hc hget
  rw [Table.get?_insert] at hget
  split at hget
  · next hsite =>
    obtain rfl := S.distinct k' k v u hv hu hsite
    obtain rfl := Option.some.inj (hu.symm.trans hv)
    obtain rfl := Option.some.inj hget
    exact hf d' hc
  · exact h k' v d' f' hv hc hget

theorem Scene.definition (S : Scene g first ops st ρ) (hu : ops[k]? = some u) (hr : IsPlain reg)
    {written : Register} (h : u.defines? reg = some written) :
    ∃ d, u.Computes d ∧ ¬u.movesComplement ∧ reg = d.canonical ∧ written = d.canonical := by
  have writes : u.writes? reg = some written := by
    unfold MicroOp.defines? at h
    split at h
    · cases h
    · exact h
  obtain hkeeps | ⟨d, hc, hnot⟩ := S.modelled u (List.mem_of_getElem? hu)
  · cases (hkeeps reg hr.1).symm.trans writes
  · rw [hc.writes.writes?_eq hr.1, hr.2] at writes
    split at writes
    · next he => exact ⟨d, hc, hnot, he, (Option.some.inj writes).symm⟩
    · cases writes

theorem defined_sound (hs : settings.strict = false) (S : Scene g first ops st ρ)
    (hw : SoundWalks g first ops st ρ walk) (h : OnWay g first ops b n i)
    (hu : ops[n + i]? = some u) (hc : u.Computes d) (hnot : ¬u.movesComplement)
    (hat : At vs defs w) (hknown : Known first ops st ρ defs) :
    yields (do
      if ← enterOp settings follow ⟨b, i, u⟩ d.canonical then
        (slicer settings g).sliceSources walk ⟨b, i, u⟩ u.sourceRegisters
      leaveOp settings g ⟨b, i, u⟩ d.canonical)
      (fun _ => Found first ops st ρ (n + i + 1) d.canonical vs defs) w := by
  have whole := Register.isWhole_canonical hc.writes.whole
  refine wp_bind.mpr (wp_imp (enterOp_yields hc hat) ?_)
  rintro enters w₁ ⟨henters, hat₁⟩
  cases hdef : defs.get? u.site with
  | some f =>
    have skips : ¬enters = true := by simp [henters, hdef]
    rw [if_neg skips]
    refine wp_imp (leaveOp_known whole hat₁ hdef) fun _ w₂ hat₂ => ?_
    exact ⟨f, defs, hknown _ u d f hu hc hdef, hknown, fun _ _ _ _ => rfl, hat₂⟩
  | none =>
    -- the walks for the sources do not come back to the definition itself
    have leaves : ∀ {w₂ : Walk BaseState} {top defs'},
        Supplies (Holds first ops st ρ (n + i)) (u.sourceRegisters.map Register.canonical) top →
        Known first ops st ρ defs' → Extends ops (n + i) defs defs' →
        At (puts top ++ vs) defs' w₂ → yields (leaveOp settings g ⟨b, i, u⟩ d.canonical)
          (fun _ => Found first ops st ρ (n + i + 1) d.canonical vs defs) w₂ := by
      intro w₂ top defs' hsup hknown' hext hat₂
      have undefined : defs'.get? u.site = none := (hext _ u le_rfl hu).trans hdef
      have supplied := hsup.congr hc.claimed_perm.symm
      refine wp_imp (leaveOp_computed hs hc whole undefined supplied hat₂) ?_
      rintro _ w₃ ⟨fs, hfs, hat₃⟩
      have holds := S.holds_defined hu hc hnot hfs
      refine ⟨_, _, holds, hknown'.insert S hu ?_, ?_, hat₃⟩
      · exact fun d' hc' => hc.canonical_eq hc' ▸ holds
      · intro j v hj hv
        have other : v.site ≠ u.site := by
          intro hsite
          have := S.distinct j _ v u hv hu hsite
          omega
        rw [Table.get?_insert_of_ne other]
        exact hext j v (by omega) hv
    split
    · refine wp_bind.mpr (wp_imp (sliceSources_sound hw h (fun r hr => hc.whole hr) hat₁ hknown) ?_)
      rintro _ w₂ ⟨top, defs', hsup, hknown', hext, hat₂⟩
      exact leaves hsup hknown' hext hat₂
    · next hskips =>
      have none : u.sourceRegisters = [] := by
        by_contra hne
        exact hskips (henters.mpr ⟨hdef, hne⟩)
      have supplied : Supplies (Holds first ops st ρ (n + i))
          (u.sourceRegisters.map Register.canonical) [] := by
        rw [none]
        exact ⟨.nil, by simp, by simp⟩
      exact leaves supplied hknown (fun _ _ _ _ => rfl) hat₁

theorem Extends.later {defs' : Table Site Formula} (h : Extends ops n defs defs') (hk : n ≤ k) :
    Extends ops k defs defs' := fun j v hj hv => h j v (hk.trans hj) hv

theorem Found.later (S : Scene g first ops st ρ) (hr : IsPlain reg) {k' : Nat} (h0 : 0 < k)
    (hk : k ≤ k') (hk' : k' ≤ ops.length) (h : Untouched ops reg k k')
    (hf : Found first ops st ρ k reg vs defs w) : Found first ops st ρ k' reg vs defs w := by
  obtain ⟨f, defs', hholds, hknown, hext, hat⟩ := hf
  exact ⟨f, defs', S.holds_later hr h0 hk hk' h hholds, hknown, hext.later hk, hat⟩

theorem walkEdges_sound (S : Scene g first ops st ρ) (hw : SoundWalks g first ops st ρ walk)
    {e : Nat} {edge : Edge} {source sink : Block} (he : g.edge? e = some edge)
    (hsource : g.block? edge.source = some source) (hsink : g.block? edge.sink = some sink)
    (hentry : sink.isEntry = false) (h : OnWay g first ops edge.source n source.ops.length)
    (hr : IsPlain reg) (hat : At vs defs w) (hknown : Known first ops st ρ defs) :
    yields ((slicer settings g).walkEdges g walk edge.sink reg (g.incomingByRank sink))
      (fun _ => Found first ops st ρ (n + source.ops.length) reg vs defs) w := by
  obtain ⟨incoming, forward⟩ := S.joinFree.incoming_eq S.wellFormed he hsink hentry
  have single : g.incomingByRank sink = [e] := by rw [Graph.incomingByRank, incoming]; rfl
  have reached := (S.joinFree.range_pos S.wellFormed hsource).2
  have enters : enterEdge g e w = .ok true w := by
    rw [enterEdge_run he hsource]
    simp [forward, hat.stop, reached]
  rw [single, Slicer.walkEdges_eq]
  apply (wp_congr (alongEdges_entered enters)).mpr
  refine wp_bind.mpr (wp_require he (wp_bind.mpr (wp_require hsource ?_)))
  exact wp_bind.mpr (wp_get.mpr (hw h hr hat.stop hat hknown))

theorem walkNext_sound (S : Scene g first ops st ρ) (hw : SoundWalks g first ops st ρ walk)
    (h : OnWay g first ops b n i) (hr : IsPlain reg) (hfree : Untouched ops reg n (n + i))
    (hat : At vs defs w) (hknown : Known first ops st ρ defs) :
    yields ((slicer settings g).walkNext g walk b reg)
      (fun _ => Found first ops st ρ (n + i) reg vs defs) w := by
  have le := h.le
  obtain ⟨before, block, hroute, hb, hi, hpre, rfl⟩ := h
  have begins := (S.joinFree.range_pos S.wellFormed hb).1
  unfold Slicer.walkNext
  refine wp_bind.mpr ?_
  change wp (enterBlock g b reg) _ _ w
  unfold enterBlock
  rw [hb]
  refine wp_bind.mpr (wp_bind.mpr (wp_get.mpr ?_))
  dsimp only
  rw [if_neg (by rw [hat.stop]; omega)]
  cases hroute with
  | entry hb' hentry hstart =>
    obtain rfl := Option.some.inj (hb.symm.trans hb')
    rw [if_pos hentry]
    refine wp_bind.mpr (wp_imp (push_yields hat hr.1 _) fun _ w' hat' => ?_)
    refine ⟨_, defs, ?_, hknown, fun _ _ _ _ => rfl, hat'⟩
    rw [hstart]
    exact S.holds_entry hr le hfree
  | @next e edge source _ before he hsource hb' hentry hroute =>
    obtain rfl := Option.some.inj (hb.symm.trans hb')
    have nonempty := List.length_pos_iff.mpr (S.joinFree.nonempty _ source hsource)
    have up : OnWay g first ops edge.source before.length source.ops.length := by
      refine ⟨before, source, hroute, hsource, le_rfl, ?_, rfl⟩
      rw [List.take_length]
      exact (List.prefix_append _ _).trans hpre
    rw [if_neg (by simp [hentry])]
    refine wp_bind.mpr (wp_require rfl ?_)
    refine wp_imp (walkEdges_sound S hw he hsource hb hentry up hr hat hknown) ?_
    intro _ w' hfound
    rw [List.length_append] at le hfree ⊢
    exact hfound.later S hr (by omega) (by omega) le hfree

theorem walkStep_sound (hs : settings.strict = false) (S : Scene g first ops st ρ)
    (hw : SoundWalks g first ops st ρ walk) :
    SoundWalks g first ops st ρ ((slicer settings g).walkStep g walk follow) := by
  intro b n i reg bounds vs defs w h hr hstop hat hknown
  obtain ⟨block, hb⟩ := h.block
  unfold Slicer.walkStep
  refine wp_bind.mpr (wp_bind.mpr (wp_modify _ |>.mpr ?_))
  have bounded : At vs defs { w with bounds } := ⟨hat.values, hat.definitions, hstop⟩
  refine wp_bind.mpr (wp_require hb ?_)
  dsimp only
  cases hdef : block.definition? i reg with
  | none =>
    have undefined := Block.definition?_eq_none hb hdef
    have free := h.untouched S hr.1 0 fun l v _ hl hv => undefined l v hl hv
    exact walkNext_sound S hw h hr free bounded hknown
  | some found =>
    obtain ⟨j, u, written⟩ := found
    obtain ⟨hj, hop, hwritten, hlater⟩ := Block.definition?_eq_some hb hdef
    have hu := h.op hj hop
    obtain ⟨d, hc, hnot, rfl, rfl⟩ := S.definition hu hr hwritten
    have free := h.untouched S hr.1 (j + 1) fun l v hl => hlater l v (by omega)
    refine wp_bind.mpr (wp_imp (tell_yields bounded _) fun _ w₁ hat₁ => ?_)
    refine wp_imp (defined_sound hs S hw (h.up hj.le) hu hc hnot hat₁ hknown) ?_
    intro _ w₂ hfound
    exact hfound.later S hr (by omega) (by omega) h.le free

theorem walk_sound (hs : settings.strict = false) (S : Scene g first ops st ρ) (depth : Nat) :
    SoundWalks g first ops st ρ ((slicer settings g).walk g depth) := by
  induction depth with
  | zero => exact fun _ _ _ _ _ => trivial
  | succ depth ih => exact walkStep_sound hs S ih

end Walks

section Address

variable {b n i : Nat} {u : MicroOp} {m : MemoryOperand} {reg : Register}

def Ready (first : Nat) (ops : List MicroOp) (st : Nat → Registers) (ρ : TermKey → BitVec 64)
    (w : Walk BaseState) : Prop :=
  ∃ vs defs, At vs defs w ∧ Known first ops st ρ defs

theorem addressRegister_sound (hs : settings.strict = false) (S : Scene g first ops st ρ)
    (h : OnWay g first ops b n i) (hn : n + i = ops.length)
    (hr : IsPlain reg ∨ ∃ v, u.hardwired? reg = some v) (hcanon : reg.canonical = reg)
    (hw : Ready first ops st ρ w) :
    yields (addressRegister settings g ⟨b, i, u⟩ reg) (fun f? w' =>
      (∃ f, f? = some f ∧ f.Means ρ (u.registerBits (st ops.length) reg)) ∧
      Ready first ops st ρ w') w := by
  obtain ⟨vs, defs, hat, hknown⟩ := hw
  unfold addressRegister MicroOp.registerBits
  rw [hcanon]
  cases hv : u.hardwired? reg with
  | some v => exact ⟨⟨_, rfl, Formula.means_constant S.reads.constant v⟩, vs, defs, hat, hknown⟩
  | none =>
    have plain : IsPlain reg := hr.resolve_right (by simp [hv])
    have cleared : At [] defs { w with client := { w.client with values := {} } } :=
      ⟨rfl, hat.definitions, hat.stop⟩
    have sliced : yields (slice settings g ⟨b, i⟩ reg ⟨u.pc, 0⟩)
        (fun _ => Found first ops st ρ (n + i) reg [] defs)
        { w with client := { w.client with values := {} } } :=
      walk_sound hs S settings.depth h plain rfl cleared hknown
    refine wp_bind.mpr (wp_bind.mpr (wp_imp sliced ?_))
    rintro _ w₁ ⟨f, defs₁, hholds, hknown₁, -, hat₁⟩
    have supplied : Supplies (Holds first ops st ρ (n + i)) [reg] [(reg, f)] :=
      ⟨.rfl, by simpa using plain, by simpa using hholds⟩
    refine wp_imp (claim_supplied supplied hat₁) ?_
    rintro _ w₂ ⟨f', top, rfl, hf, hnone, hat₂⟩
    refine ⟨⟨f', rfl, ?_⟩, _, defs₁, hat₂, hknown₁⟩
    rw [hn] at hf
    refine (hf.stands fun h0 => ?_).2
    rintro ⟨v, d, hv, -⟩
    simp [List.length_eq_zero_iff.mp h0] at hv

def seenBy (u : MicroOp) (st : Registers) (ρ : TermKey → BitVec 64) : TermKey → BitVec 64
  | .register _ r => u.registerBits st r
  | key => ρ key

def IsUsable (u : MicroOp) (r : Register) : Prop :=
  r.isWhole = true ∨ ∃ v, u.hardwired? r.canonical = some v

theorem addressTerms_sound (hs : settings.strict = false) (S : Scene g first ops st ρ)
    (h : OnWay g first ops b n i) (hn : n + i = ops.length) {es : List (TermKey × Term)}
    (hes : ∀ e ∈ es, e.2.coeff.den = 1 ∧ ∀ site r, e.1 = .register site r →
      IsUsable u r ∧ r.canonical = r ∧ ρ (.register site r) = u.registerBits (st ops.length) r)
    {sum : Formula} {a : BitVec 64} (hsum : sum.Means ρ a) (hw : Ready first ops st ρ w) :
    yields (addressTerms settings g ⟨b, i, u⟩ es sum) (fun f _ =>
      f.Means ρ (a + (es.map (Formula.termWord (seenBy u (st ops.length) ρ))).sum)) w := by
  -- `a` is the word of the sum so far; each term adds its word to it
  induction es generalizing sum a w with
  | nil => simpa [addressTerms] using hsum
  | cons e es ih =>
    obtain ⟨key, t⟩ := e
    obtain ⟨hden, hkey⟩ := hes _ List.mem_cons_self
    have rest := fun e he => hes e (List.mem_cons_of_mem _ he)
    rw [List.map_cons, List.sum_cons, ← add_assoc]
    cases key with
    | register site r =>
      obtain ⟨husable, hcanon, hseen⟩ := hkey site r rfl
      have usable : IsPlain r ∨ ∃ v, u.hardwired? r = some v := by
        rw [IsUsable, hcanon] at husable
        exact husable.imp_left fun whole => ⟨whole, hcanon⟩
      refine wp_bind.mpr (wp_imp (addressRegister_sound hs S h hn usable hcanon hw) ?_)
      rintro _ w₁ ⟨⟨f, rfl, hf⟩, hw₁⟩
      dsimp only
      split
      · have unknown : (sum.addTerm (.register site r) t.coeff t.origin).Means ρ
            (a + t.coeff.num * u.registerBits (st ops.length) r) := by
          rw [← hseen]
          exact hsum.addTerm _ hden _
        obtain ⟨vs, defs, hat, hknown⟩ := hw₁
        refine wp_bind.mpr (wp_imp (tell_yields hat _) fun _ w₂ hat₂ => ?_)
        exact ih rest unknown ⟨vs, defs, hat₂, hknown⟩
      · exact ih rest (hsum.add (hf.scale hden)) hw₁
    | _ => exact ih rest (hsum.addTerm _ hden _) hw

theorem address_means (hs : settings.strict = false) (S : Scene g first ops st ρ)
    (h : OnWay g first ops b n i) (hn : n + i = ops.length) (hu : g.op? b i = some u)
    {opidx : Int} (hm : u.memoryOperands.find? (·.opidx = opidx) = some m)
    (hscale : m.scale ∈ [1, 2, 4, 8])
    (husable : ∀ r, r ∈ m.base ∨ r ∈ m.index → IsUsable u r)
    (hsees : Sees u (st ops.length) ρ) (hw : Ready first ops st ρ w) :
    yields (address settings g b i opidx)
      (fun f _ => f.Means ρ (u.addressBits (st ops.length) m)) w := by
  obtain ⟨block, hb, hop⟩ := Graph.op?_eq_some.mp hu
  refine wp_bind.mpr (wp_require hb (wp_bind.mpr (wp_require hop ?_)))
  rw [hm]
  have terms : ∀ e ∈ (u.addressFormula m).terms.entries, e.2.coeff.den = 1 ∧
      ∀ site r, e.1 = .register site r → IsUsable u r ∧ r.canonical = r ∧
        ρ (.register site r) = u.registerBits (st ops.length) r := by
    refine fun e he => ⟨(plain_addressFormula u m).integral e he, fun site r hkey => ?_⟩
    obtain ⟨rfl, s, hmem, rfl⟩ := key_of_mem_addressFormula he hkey
    refine ⟨?_, s.canonical_canonical, ?_⟩
    · refine (husable s hmem).imp Register.isWhole_canonical ?_
      rw [Register.canonical_canonical]
      exact id
    · rw [hsees s, MicroOp.registerBits_canonical]
  have bits : ((u.addressFormula m).terms.entries.map
      (Formula.termWord (seenBy u (st ops.length) ρ))).sum = u.addressBits (st ops.length) m := by
    have word : (u.addressFormula m).word (seenBy u (st ops.length) ρ) = _ :=
      word_addressFormula S.reads.constant hscale
    simp only [seenBy, MicroOp.registerBits_canonical] at word
    exact word
  refine wp_bind.mpr (wp_imp (addressTerms_sound hs S h hn terms (Formula.means_zero ρ) hw) ?_)
  intro f w₁ hf
  rw [zero_add, bits] at hf
  exact hf

/-- A base address that does not overflow is the address that the operand has in every run, unless
the complement of an immediate is moved on the way. -/
theorem address_sound (hs : settings.strict = false) (hg : g.Built) (hj : g.JoinFree)
    {before : List MicroOp} {block : Block} (hroute : g.Route first b before)
    (hb : g.block? b = some block) (hu : block.ops[i]? = some u)
    (hops : before ++ block.ops.take i = ops)
    (hmodelled : ∀ v ∈ ops, v.keepsGeneral ∨ ∃ d, v.Computes d)
    (hcomplement : ∀ v ∈ ops, ¬v.movesComplement)
    (hentry : ∀ k (v : MicroOp), (ops ++ [u])[k]? = some v → v.site = ⟨first, 0⟩ → k = 0)
    {opidx : Int} (hm : u.memoryOperands.find? (·.opidx = opidx) = some m)
    (hscale : m.scale ∈ [1, 2, 4, 8])
    (husable : ∀ r, r ∈ m.base ∨ r ∈ m.index → IsUsable u r)
    {f : Formula} (hf : (address settings g b i opidx).run { client := {} } = .ok f w)
    (hfits : f.overflow = false) (hst : IsRun ops st) {z : TermKey → ℤ}
    (hz : Reads first ops st fun key => BitVec.ofInt 64 (z key))
    (hsees : Sees u (st ops.length) fun key => BitVec.ofInt 64 (z key)) :
    ∃ v : ℤ, f.value z = v ∧ BitVec.ofInt 64 v = u.addressBits (st ops.length) m := by
  have hi := (List.getElem?_eq_some_iff.mp hu).1
  have scene : Scene g first ops st fun key => BitVec.ofInt 64 (z key) := by
    refine ⟨hg.wellFormed, hj, fun v hv => ?_, fun k v hv => ?_, fun k k' v v' hv hv' => ?_, hst, hz⟩
    · exact (hmodelled v hv).imp_right fun ⟨d, hc⟩ => ⟨d, hc, hcomplement v hv⟩
    · refine hentry k v ?_
      rwa [List.getElem?_append_left (List.getElem?_eq_some_iff.mp hv).1]
    · rw [← hops] at hv hv'
      exact hroute.sites_distinct hj hg.wellFormed hb hv hv'
  have onWay : OnWay g first ops b before.length i :=
    ⟨before, block, hroute, hb, hi.le, by rw [hops], rfl⟩
  have ends : before.length + i = ops.length := by
    rw [← hops, List.length_append, List.length_take, Nat.min_eq_left hi.le]
  have fresh : Ready first ops st (fun key => BitVec.ofInt 64 (z key)) { client := {} } :=
    ⟨[], {}, ⟨rfl, rfl, rfl⟩, fun k v d f hv hc hget => by cases hget⟩
  have means := wp_ok (address_means hs scene onWay ends (Graph.op?_eq_some.mpr ⟨block, hb, hu⟩) hm
    hscale husable hsees fresh) hf
  obtain ⟨v, hvalue, hword⟩ := Formula.value_eq_word means.plain z
  exact ⟨v, hvalue, hword.trans (means.word hfits)⟩

end Address

section Routines

def rax : Register := ⟨.listed 0, 0, 63⟩

def rbx : Register := ⟨.listed 4, 0, 63⟩

def rcx : Register := ⟨.listed 8, 0, 63⟩

def rdx : Register := ⟨.listed 12, 0, 63⟩

def raised : MicroOp :=
  { pc := 0x10, kind := .alu, operation := .add, sources := [.register rax, .immediate 5],
    destinations := [.register rax] }

def product : MicroOp :=
  { pc := 0x14, kind := .alu, operation := .mul, sources := [.register rax, .register rbx],
    destinations := [.register rcx] }

def located : MicroOp :=
  { pc := 0x20, kind := .lea, operation := .mov,
    sources := [.memory { base := some rax, index := some rcx, scale := 2, disp := 8 }],
    destinations := [.register rdx] }

def tableEntry : MemoryOperand := { base := some rdx, index := some rax, scale := 4 }

def tableLoad : MicroOp :=
  { pc := 0x24, kind := .load, operation := .mov, sources := [.memory tableEntry],
    destinations := [.register rax] }

def tableRoutine : Graph :=
  (((({} : Graph).addBlock 0 0 [raised, product]).setEntry 0).addBlock 1 0
    [located, tableLoad]).addEdge 0 1 false

theorem raised_computes : raised.Computes rax :=
  .inl ⟨rfl, by decide, rfl, by simp [raised]; decide, ⟨by decide, by decide, by decide⟩⟩

theorem product_computes : product.Computes rcx :=
  .inl ⟨rfl, by decide, rfl, by simp [product]; decide, ⟨by decide, by decide, by decide⟩⟩

theorem located_computes : located.Computes rdx :=
  .inr ⟨_, rfl, rfl, by decide, rfl, by decide, by decide, by decide, by decide,
    ⟨by decide, by decide, by decide⟩⟩

def tableAddress : Formula :=
  (Formula.register raised.site rax).mul 5 + (Formula.register product.site rcx).mul 2 +
    .constant 33

theorem address_sound_tableRoutine :
    ∃ w st z, (address {} tableRoutine 1 1 0).run { client := {} } = .ok tableAddress w ∧
      IsRun [raised, product, located] st ∧
      Reads 0x10 [raised, product, located] st (fun key => BitVec.ofInt 64 (z key)) ∧
      ∃ v : ℤ, tableAddress.value z = v ∧
        BitVec.ofInt 64 v = tableLoad.addressBits (st 3) tableEntry := by
  have built : tableRoutine.Built := .addEdge _ (by decide) (by decide) <|
    .addBlock _ _ _ (.setEntry _ (.addBlock _ _ _ (.empty "")))
  have joinFree : tableRoutine.JoinFree := Graph.joinFree_of_isJoinFree (by decide)
  have modelled : ∀ v ∈ [raised, product, located], v.keepsGeneral ∨ ∃ d, v.Computes d := by
    simp only [List.forall_mem_cons]
    exact ⟨.inr ⟨_, raised_computes⟩, .inr ⟨_, product_computes⟩, .inr ⟨_, located_computes⟩,
      by simp⟩
  have entry : tableRoutine.Route 0x10 0 [] := .entry rfl rfl rfl
  have edge : tableRoutine.edge? 0 = some ⟨0, 0, 1, false⟩ := rfl
  have source : tableRoutine.block? 0 = some _ := rfl
  have sink : tableRoutine.block? 1 = some _ := rfl
  have route : tableRoutine.Route 0x10 1 [raised, product] := .next edge source sink rfl entry
  have named : ∀ k (v : MicroOp), ([raised, product, located] ++ [tableLoad])[k]? = some v →
      v.site = ⟨0x10, 0⟩ → k = 0 := by
    intro k v hv hsite
    by_contra hk
    have later : v ∈ [product, located, tableLoad] := by
      obtain ⟨k, rfl⟩ := Nat.exists_eq_succ_of_ne_zero hk
      exact List.mem_of_getElem? hv
    exact (by decide : ∀ v ∈ [product, located, tableLoad], v.site ≠ ⟨0x10, 0⟩) v later hsite
  have distinct : ∀ (k k' : Nat) (v v' : MicroOp),
      ([raised, product, located] ++ [tableLoad])[k]? = some v →
      ([raised, product, located] ++ [tableLoad])[k']? = some v' → v.site = v'.site → k = k' :=
    fun k k' v v' => route.sites_distinct joinFree built.wellFormed sink (i := 2)
  have result : answer? (address {} tableRoutine 1 1 0) { client := {} } = some tableAddress := by
    decide +kernel
  obtain ⟨w, hw⟩ := run_of_answer? result
  obtain ⟨st, -, hst⟩ := MicroOp.exists_run modelled fun _ => 0
  obtain ⟨z, hz, hsees⟩ := exists_reading named distinct st
  refine ⟨w, st, z, hw, hst, hz, ?_⟩
  have path : [raised, product] ++ [located, tableLoad].take 1 = [raised, product, located] := rfl
  have operand : tableLoad.memoryOperands.find? (·.opidx = 0) = some tableEntry := rfl
  refine address_sound (i := 1) (u := tableLoad) rfl built joinFree route sink rfl path modelled ?_
    named operand (by decide) ?_ hw (by decide) hst hz hsees
  · rintro v hv ⟨hk, hop, -⟩
    revert v
    decide
  · rintro r (hr | hr)
    · cases hr
      exact .inl (by decide)
    · cases hr
      exact .inl (by decide)

def complement : MicroOp :=
  { pc := 0x10, kind := .move, operation := .not, sources := [.immediate 5],
    destinations := [.register rax] }

def complementLoad : MicroOp :=
  { pc := 0x14, kind := .load, operation := .mov, sources := [.memory { base := some rax }],
    destinations := [.register rcx] }

def complementRoutine : Graph :=
  (({} : Graph).addBlock 0 0 [complement, complementLoad]).setEntry 0

def saved : MicroOp :=
  { pc := 0x10, idx := 1, kind := .copy, operation := .mov, sources := [.register rax],
    destinations := [.register rbx] }

def renamed : MicroOp :=
  { pc := 0x10, kind := .alu, operation := .mul, sources := [.register rax, .register rcx],
    destinations := [.register rax] }

def bothValues : MemoryOperand := { base := some rbx, index := some rax }

def bothLoad : MicroOp :=
  { pc := 0x14, kind := .load, operation := .mov, sources := [.memory bothValues],
    destinations := [.register rcx] }

def renamingRoutine : Graph :=
  (({} : Graph).addBlock 0 0 [saved, renamed, bothLoad]).setEntry 0

theorem complement_computes : complement.Computes rax :=
  .inl ⟨rfl, by decide, rfl, by simp [complement], ⟨by decide, by decide, by decide⟩⟩

theorem saved_computes : saved.Computes rbx :=
  .inl ⟨rfl, by decide, rfl, by simp [saved]; decide, ⟨by decide, by decide, by decide⟩⟩

theorem renamed_computes : renamed.Computes rax :=
  .inl ⟨rfl, by decide, rfl, by simp [renamed]; decide, ⟨by decide, by decide, by decide⟩⟩

theorem complementRoutine_address (st st' : Registers) (h : complement.Step st st') :
    complementLoad.addressBits st' { base := some rax } = BitVec.ofInt 64 (-6) := by
  have value : st'.read rax = ~~~BitVec.ofInt 64 5 :=
    h.written rax (by decide) (by decide) _ rfl
  change BitVec.ofInt 64 0 + st'.read rax + BitVec.ofInt 64 1 * 0 = _
  rw [value]
  decide

theorem renamingRoutine_address :
    ∃ st, IsRun [saved, renamed] st ∧ bothLoad.addressBits (st 2) bothValues = 1 := by
  have modelled : ∀ v ∈ [saved, renamed], v.keepsGeneral ∨ ∃ d, v.Computes d := by
    simp only [List.forall_mem_cons]
    exact ⟨.inr ⟨_, saved_computes⟩, .inr ⟨_, renamed_computes⟩, by simp⟩
  obtain ⟨st, hst, hrun⟩ := MicroOp.exists_run modelled fun name => if name = rax.name then 1 else 0
  refine ⟨st, hrun, ?_⟩
  have first := hrun 0 saved rfl
  have second := hrun 1 renamed rfl
  have initial : (st 0).read rax = 1 ∧ (st 0).read rcx = 0 := by
    rw [hst]
    decide
  have copied : (st 1).read rbx = (st 0).read rax := first.written rbx (by decide) (by decide) _ rfl
  have factors : (st 1).read rax = (st 0).read rax ∧ (st 1).read rcx = (st 0).read rcx :=
    ⟨first.kept rax (by decide) (by decide), first.kept rcx (by decide) (by decide)⟩
  have multiplied : (st 2).read rax = (st 1).read rax * (st 1).read rcx :=
    second.written rax (by decide) (by decide) _ rfl
  have kept : (st 2).read rbx = (st 1).read rbx := second.kept rbx (by decide) (by decide)
  change BitVec.ofInt 64 0 + (st 2).read rbx + BitVec.ofInt 64 1 * (st 2).read rax = _
  rw [multiplied, kept, copied, factors.1, factors.2, initial.1, initial.2]
  decide

theorem address_unsound :
    (complementRoutine.isJoinFree = true ∧ complement.Computes rax ∧
      answer? (address {} complementRoutine 0 1 0) { client := {} } = some (.constant 5) ∧
      ∀ st st', complement.Step st st' →
        complementLoad.addressBits st' { base := some rax } = BitVec.ofInt 64 (-6)) ∧
    renamingRoutine.isJoinFree = true ∧ saved.Computes rbx ∧ renamed.Computes rax ∧
      ∃ f st, answer? (address {} renamingRoutine 0 2 0) { client := {} } = some f ∧
        IsRun [saved, renamed] st ∧ ∀ (z : TermKey → ℤ) (v : ℤ), f.value z = v →
          BitVec.ofInt 64 v ≠ bothLoad.addressBits (st 2) bothValues := by
  refine ⟨⟨by decide, complement_computes, by decide +kernel, complementRoutine_address⟩,
    by decide, saved_computes, renamed_computes, ?_⟩
  obtain ⟨st, hrun, haddress⟩ := renamingRoutine_address
  let f := (Formula.register ⟨0x10, 0⟩ rax).mul 2
  refine ⟨f, st, by decide +kernel, hrun, fun z v hv => ?_⟩
  have plain : (Formula.register ⟨0x10, 0⟩ rax).Plain := Formula.plain_register _ _
  obtain ⟨v', hv', hword⟩ := Formula.value_eq_word (plain.mul 2) z
  obtain rfl : v = v' := by exact_mod_cast hv.symm.trans hv'
  rw [haddress, hword, Formula.word_mul _ plain 2 (by decide)]
  generalize (Formula.register ⟨0x10, 0⟩ rax).word _ = x
  intro hodd
  have := congrArg BitVec.toNat hodd
  simp at this
  omega

end Routines

end AddressFormulas.Base
