import AddressFormulas.Proofs.Base.Edges
import AddressFormulas.Proofs.Base.Waiting

namespace AddressFormulas

open WalkM

namespace Base

variable {settings : Settings} {g : Graph} {n : Nat} {defs : Table Site Formula}
  {B : Multiset Slot} {w : Walk BaseState}

section Definitions

variable {u : Placed} {k : Nat}

def WalksSpend (settings : Settings) (g : Graph) (k : Nat) : Prop :=
  ∀ {p : Position} {reg : Register} {bounds : Bounds} {n : Nat} {defs : Table Site Formula}
    {B : Multiset Slot} {w : Walk BaseState}, g.weight p.block p.before ≤ n → reg.lsb = 0 →
    bounds.stop = 0 → AtMost g n defs B w →
    yields ((slicer settings g).walk g k p reg bounds)
      (fun _ w' => AtMost g n defs (reg.owner ::ₘ B) w') w

def LeftFound (g : Graph) (n : Nat) (defs : Table Site Formula) (B : Multiset Slot) :
    Option Register → Walk BaseState → Prop
  | none, w => AtMost g n defs B w
  | some r, w => r.lsb = 0 ∧ AtMost g n defs (r.owner ::ₘ B) w

def FollowsSpend (settings : Settings) (g : Graph) (k : Nat) : Prop :=
  ∀ {p : Position} {address : Formula} {n : Nat} {defs : Table Site Formula} {B : Multiset Slot}
    {w : Walk BaseState}, g.weight p.block p.before ≤ n → AtMost g n defs B w →
    yields ((slicer settings g).follow g k p address) (LeftFound g n defs B) w

theorem sliceSource_spends (hs : settings.strict = true) (hw : WalksSpend settings g k)
    (hn : g.weight u.block u.index ≤ n) {source : Register} (hlow : source.lsb = 0)
    (h : AtMost g n defs B w) :
    yields ((slicer settings g).sliceSource ((slicer settings g).walk g k) u source)
      (fun _ w' => AtMost g n defs
        (owners ([source.canonical].filter Register.isFollowed) + B) w') w := by
  unfold Slicer.sliceSource
  dsimp only
  split
  · next out =>
    have skipped : source.canonical.isFollowed = false := by rw [Register.isFollowed, out]; rfl
    rw [List.filter_cons_of_neg (by simp [skipped])]
    simpa [owners] using h
  · next followed =>
    have counts : source.canonical.isFollowed = true := by
      rw [Register.isFollowed, Bool.eq_false_iff.mpr followed]
      rfl
    have low : source.canonical.lsb = 0 := hlow
    have one : owners ([source.canonical].filter Register.isFollowed) + B =
        source.canonical.owner ::ₘ B := by
      rw [List.filter_cons_of_pos counts]
      rfl
    rw [one]
    split
    · exact push_spends h low _
    · split
      · exact wp_bind.mpr (report_spends hs _)
      · exact hw hn low rfl h

theorem sliceSources_spends (hs : settings.strict = true) (hw : WalksSpend settings g k)
    (hn : g.weight u.block u.index ≤ n) {sources : List Register} (hlow : ∀ r ∈ sources, r.lsb = 0)
    (h : AtMost g n defs B w) :
    yields ((slicer settings g).sliceSources ((slicer settings g).walk g k) u sources)
      (fun _ w' => AtMost g n defs
        (owners ((sources.map Register.canonical).filter Register.isFollowed) + B) w') w := by
  induction sources generalizing B w with
  | nil => simpa [Slicer.sliceSources, owners] using h
  | cons source rest ih =>
    apply wp_bind.mpr
    apply wp_imp (sliceSource_spends hs hw hn (hlow source List.mem_cons_self) h)
    intro _ w₁ h₁
    apply wp_imp (ih (fun r hr => hlow r (List.mem_cons_of_mem _ hr)) h₁)
    intro _ w₂ h₂
    rwa [add_left_comm, ← add_assoc, ← owners_append, ← List.filter_append] at h₂

theorem resolveLoad_spends (hf : FollowsSpend settings g k) (hn : g.weight u.block u.index ≤ n)
    (reg : Register) (h : AtMost g n defs B w) :
    yields (resolveLoad settings ((slicer settings g).follow g k) u reg)
      (fun _ w' => AtMost g n defs (.site u.op.site ::ₘ B) w') w := by
  unfold resolveLoad
  apply wp_bind.mpr
  apply wp_client.mpr
  split
  · exact pushSite_spends (h.told _) _ _
  next base _ =>
  extract_lets resolved
  have rest : ∀ (found? : Option Register) (w' : Walk BaseState), LeftFound g n defs B found? w' →
      yields (resolved found?) (fun _ w' => AtMost g n defs (.site u.op.site ::ₘ B) w') w' := by
    intro found? w' hfound
    unfold resolved
    cases found? with
    | none =>
      cases base.constantValue? with
      | some c => exact pushSite_spends hfound _ _
      | none => exact pushSite_spends hfound _ _
    | some saved =>
      apply wp_bind.mpr
      apply wp_imp (claim_spends hfound.2 hfound.1)
      intro f? w₁ h₁
      cases f? with
      | none => exact pushSite_spends h₁ _ _
      | some f =>
        simp only [wp_bind, wp_get]
        split
        · exact pushSite_spends h₁ _ _
        · exact pushSite_spends (h₁.told _) _ _
  split
  · have started : AtMost g n defs B { w with bounds.start := u.op.pc } :=
      ⟨h.low, h.waiting, h.stop, h.kept⟩
    apply wp_bind.mpr
    apply wp_bind.mpr
    apply wp_imp (hf (p := ⟨u.block, u.index⟩) hn started)
    exact rest
  · exact rest none w h

theorem prepare_spends (hs : settings.strict = true) (hu : u.op.Low) (hw : WalksSpend settings g k)
    (hf : FollowsSpend settings g k) (hn : g.weight u.block u.index ≤ n) (reg : Register)
    (h : AtMost g n defs B w) :
    yields (prepare settings g k u reg)
      (fun _ w' => AtMost g n defs (prepared u.op + B) w') w := by
  unfold prepare prepared
  simp only [wp_bind, wp_classify]
  have h := h.told (u.op.effectEvents.reverse ++ w.journal)
  cases heffect : u.op.effect with
  | easy => rwa [Multiset.zero_add]
  | impossible => rwa [Multiset.zero_add]
  | hard => exact resolveLoad_spends hf hn reg h
  | normal =>
    unfold sliced
    dsimp only
    split
    · simpa [owners] using h.told _
    · exact sliceSources_spends hs hw hn (fun r hr => hu.sources hr) h

theorem leaveOp_spends (hs : settings.strict = true) (hd : g.DistinctSites)
    (hplace : g.op? u.block u.index = some u.op) (hu : u.op.Low) (ht : u.op.Tidy) {reg : Register}
    (hreg : reg.lsb = 0) (new : defs.get? u.op.site = none)
    (h : AtMost g (g.weight u.block u.index) defs (prepared u.op + B) w) :
    yields (leaveOp settings g u reg)
      (fun _ w' => AtMost g (g.weight u.block u.index + 1) defs (reg.owner ::ₘ B) w') w := by
  have unknown := (h.kept u hplace (Nat.le_refl _)).trans new
  apply wp_leaveOp_new (h.stop.le.trans (Nat.zero_le _)) unknown
  apply wp_imp (definitionValue_spends hs hu ht reg h)
  intro computed w₁ h₁ journal
  have noted : AtMost g (g.weight u.block u.index + 1) defs B { w₁ with
      client := { w₁.client with definitions :=
        w₁.client.definitions.insert u.op.site (valueOf u.op.site reg computed) }
      journal } :=
    ⟨h₁.low, h₁.waiting, h₁.stop, h₁.kept.insert hd hplace _⟩
  exact push_spends noted hreg _

theorem define_spends (hs : settings.strict = true) (hd : g.DistinctSites)
    (hplace : g.op? u.block u.index = some u.op) (hu : u.op.Low) (ht : u.op.Tidy)
    (hw : WalksSpend settings g k) (hf : FollowsSpend settings g k)
    (hn : g.weight u.block u.index < n) {reg : Register} (hreg : reg.lsb = 0)
    (h : AtMost g n defs B w) :
    yields (define settings g k u reg) (fun _ w' => AtMost g n defs (reg.owner ::ₘ B) w') w := by
  cases known : w.client.definitions.get? u.op.site with
  | some f =>
    apply (wp_congr (define_run_known (h.stop.le.trans (Nat.zero_le _)) known k)).mpr
    exact push_spends h hreg f
  | none =>
    -- Nothing below can give the definition itself, as its sources are found before it.
    have here : AtMost g (g.weight u.block u.index) w.client.definitions B w :=
      ⟨h.low, h.waiting, h.stop, fun _ _ _ => rfl⟩
    apply (wp_define (h.stop.le.trans (Nat.zero_le _)) known).mpr
    apply wp_imp (prepare_spends hs hu hw hf (Nat.le_refl _) reg here)
    intro _ w₁ h₁
    apply wp_imp (leaveOp_spends hs hd hplace hu ht hreg known h₁)
    intro _ w₂ h₂
    refine ⟨h₂.low, h₂.waiting, h₂.stop, ?_⟩
    intro v hv hweight
    exact (h₂.kept v hv (by omega)).trans (h.kept v hv hweight)

end Definitions

section Walks

variable {k : Nat} (hs : settings.strict = true) (hwf : g.WellFormed) (ha : g.ForwardAcyclic)
  (hd : g.DistinctSites) (hlow : ∀ u ∈ g.ops, u.Low) (htidy : ∀ u ∈ g.ops, u.Tidy)
  (hw : WalksSpend settings g k) (hf : FollowsSpend settings g k)

theorem enterBlock_spends {reg : Register} (hreg : reg.lsb = 0) (b : Nat) (h : AtMost g n defs B w) :
    yields (enterBlock g b reg)
      (fun enter w' => AtMost g n defs (if enter then B else reg.owner ::ₘ B) w') w := by
  unfold enterBlock
  apply wp_bind.mpr
  cases g.block? b with
  | none => trivial
  | some block =>
    simp only [wp_require_some, wp_bind, wp_get]
    split
    · exact push_spends h hreg _
    · split
      · exact push_spends h hreg _
      · exact h

theorem leaveBlock_spends {reg : Register} (hreg : reg.lsb = 0) (b : Nat) (h : AtMost g n defs B w) :
    yields (leaveBlock g b reg) (fun _ w' => AtMost g n defs (reg.owner ::ₘ B) w') w := by
  unfold leaveBlock
  apply wp_bind.mpr
  cases g.block? b with
  | none => trivial
  | some block => exact push_spends h hreg _

include ha hw hwf in
theorem walkEdges_spends {b before : Nat} {reg : Register} (hreg : reg.lsb = 0) {edges : List Nat}
    (hedges : ∀ e ∈ edges, ∃ edge, g.edge? e = some edge ∧ edge.sink = b)
    (hn : g.weight b before ≤ n) (h : AtMost g n defs B w) :
    yields ((slicer settings g).walkEdges g ((slicer settings g).walk g k) b reg edges)
      (fun _ w' => AtMost g n defs (reg.owner ::ₘ B) w') w := by
  obtain taken | ⟨e, edge, source, he, hsource, forward, taken⟩ := edgeTaken_cases settings hwf hedges
  · exact (wp_congr (taken.walkEdges h.stop _ _ _)).mpr (leaveBlock_spends hreg b h)
  · apply (wp_congr (taken.walkEdges h.stop _ _ _)).mpr
    have lighter := Graph.weight_lt_of_forward ha hsource forward before
    simp only [Option.elim_some, Slicer.walkAcross, he, hsource, wp_bind, wp_require_some, wp_get]
    exact hw (p := ⟨edge.source, source.ops.length⟩) (lighter.le.trans hn) hreg h.stop h

include ha hf hwf in
theorem followEdges_spends {b before : Nat} {address : Formula} {edges : List Nat}
    (hedges : ∀ e ∈ edges, ∃ edge, g.edge? e = some edge ∧ edge.sink = b)
    (hn : g.weight b before ≤ n) (h : AtMost g n defs B w) :
    yields ((slicer settings g).followEdges g ((slicer settings g).follow g k) b address edges)
      (LeftFound g n defs B) w := by
  obtain taken | ⟨e, edge, source, he, hsource, forward, taken⟩ := edgeTaken_cases settings hwf hedges
  · apply (wp_congr (taken.followEdges h.stop _ _ _)).mpr
    exact wp_bind.mpr (wp_imp (leaveBlock_spends rfl b h) fun _ _ h₁ => h₁.absent)
  · apply (wp_congr (taken.followEdges h.stop _ _ _)).mpr
    have lighter := Graph.weight_lt_of_forward ha hsource forward before
    simp only [Option.elim_some, Slicer.followAcross, he, hsource, wp_bind, wp_require_some]
    exact hf (p := ⟨edge.source, source.ops.length⟩) (lighter.le.trans hn) h

include hs hwf ha hd hlow htidy hw hf in
theorem walkStep_spends {p : Position} {reg : Register} {bounds : Bounds}
    (hn : g.weight p.block p.before ≤ n) (hreg : reg.lsb = 0) (hbounds : bounds.stop = 0)
    (h : AtMost g n defs B w) :
    yields ((slicer settings g).walk g (k + 1) p reg bounds)
      (fun _ w' => AtMost g n defs (reg.owner ::ₘ B) w') w := by
  have h : AtMost g n defs B { w with bounds } := ⟨h.low, h.waiting, hbounds, h.kept⟩
  refine wp_bind.mpr (wp_bind.mpr ?_)
  simp only [wp_modify]
  apply (wp_pure ()).mpr
  apply wp_bind.mpr
  cases hb : g.block? p.block with
  | none => trivial
  | some block =>
    apply (wp_require_some block).mpr
    cases hdef : block.definition? p.before reg with
    | none =>
      unfold Slicer.walkNext
      apply wp_bind.mpr
      apply wp_imp (enterBlock_spends hreg p.block h)
      intro enter w₁ h₁
      cases enter with
      | false => exact h₁
      | true =>
        simp only [if_true, hb, wp_bind, wp_require_some]
        apply walkEdges_spends hwf ha hw hreg _ hn h₁
        intro e he
        exact hwf.mem_incoming hb ((mem_sortBy _ e _).mp he)
    | some found =>
      obtain ⟨i, op, written⟩ := found
      obtain ⟨hi, hop, hdefines, _⟩ := Block.definition?_eq_some hb hdef
      have mem := Graph.mem_ops hop
      have lighter : g.weight p.block i < g.weight p.block p.before := Graph.weight_lt_of_lt hi
      have written_low := (hlow op mem).defines? hdefines
      have same : written.owner = reg.owner := by
        have shared := (MicroOp.defines?_eq_some hdefines).2
        simp only [Register.overlaps, Bool.and_eq_true, decide_eq_true_eq] at shared
        exact owner_eq_iff.mpr shared.1.1.2
      apply wp_bind.mpr
      rw [wp_tell, ← same]
      exact define_spends hs hd (u := ⟨p.block, i, op⟩) hop (hlow op mem) (htidy op mem) hw hf
        (lighter.trans_le hn) written_low (h.told _)

include hs hlow hw in
theorem sliceStored_spends {u : Placed} (hplace : g.op? u.block u.index = some u.op)
    (hn : g.weight u.block u.index ≤ n) (h : AtMost g n defs B w) :
    yields ((slicer settings g).sliceStored ((slicer settings g).walk g k) u) (LeftFound g n defs B) w := by
  have low := hlow u.op (Graph.mem_ops hplace)
  have slice : ∀ {reg : Register}, reg.lsb = 0 → yields (do
      (slicer settings g).sliceWith ((slicer settings g).walk g k) ⟨u.block, u.index⟩ reg ⟨u.op.pc, 0⟩
      return some reg) (LeftFound g n defs B) w := by
    intro reg hreg
    apply wp_bind.mpr
    apply wp_imp (hw (p := ⟨u.block, u.index⟩) hn hreg rfl h)
    intro _ w₁ h₁
    exact ⟨hreg, h₁⟩
  have constant : ∀ v : Int, yields (do
      push (.temporary Slicer.storedConstant u.op.width) (.constant v)
      return some (.temporary Slicer.storedConstant u.op.width)) (LeftFound g n defs B) w := by
    intro v
    apply wp_bind.mpr
    apply wp_imp (push_spends h rfl _)
    intro _ w₁ h₁
    exact ⟨rfl, h₁⟩
  unfold Slicer.sliceStored
  dsimp only
  split
  · exact slice rfl
  · next r hsources =>
    have hr : r.lsb = 0 :=
      low.operandRegister? (.inl (hsources ▸ List.mem_singleton_self _)) rfl
    split
    · exact constant _
    · split
      · exact wp_bind.mpr (report_spends hs _)
      · exact slice hr
  · exact constant _
  · exact wp_bind.mpr (report_spends hs _)
  · exact wp_bind.mpr (report_spends hs _)

include hs hwf ha hlow hw hf in
theorem followStep_spends {p : Position} {address : Formula} (hn : g.weight p.block p.before ≤ n)
    (h : AtMost g n defs B w) :
    yields ((slicer settings g).follow g (k + 1) p address) (LeftFound g n defs B) w := by
  change wp (require (g.block? p.block) >>= _) _ _ w
  apply wp_bind.mpr
  cases hb : g.block? p.block with
  | none => trivial
  | some block =>
    simp only [wp_require_some, wp_bind, wp_client]
    split
    · next i op _ hstore =>
      obtain ⟨hi, hop, _, _⟩ := lastBefore?_eq_some hstore
      have lighter : g.weight p.block i < g.weight p.block p.before := Graph.weight_lt_of_lt (by omega)
      simp only [wp_bind, wp_tell]
      exact sliceStored_spends hs hlow hw (u := ⟨p.block, i, op⟩)
        (Graph.op?_eq_some.mpr ⟨block, hb, hop⟩) (lighter.le.trans hn) (h.told _)
    · apply wp_bind.mpr
      apply wp_imp (enterBlock_spends rfl p.block h)
      intro enter w₁ h₁
      cases enter with
      | false => exact h₁.absent
      | true =>
        apply followEdges_spends hwf ha hf _ hn h₁
        intro e he
        exact hwf.mem_incoming hb he

omit hw hf in
include hs hwf ha hd hlow htidy in
/-- Every walk leaves one value for its register at most, and takes away all that it puts besides. -/
theorem walks_and_follows_spend (k : Nat) : WalksSpend settings g k ∧ FollowsSpend settings g k := by
  induction k with
  | zero =>
    constructor
    · intro p reg bounds n defs B w _ _ _ _
      trivial
    · intro p address n defs B w _ _
      trivial
  | succ k ih =>
    obtain ⟨hw, hf⟩ := ih
    constructor
    · intro p reg bounds n defs B w hn hreg hbounds h
      exact walkStep_spends hs hwf ha hd hlow htidy hw hf hn hreg hbounds h
    · intro p address n defs B w hn h
      exact followStep_spends hs hwf ha hlow hw hf hn h

end Walks

section Addresses

variable (hs : settings.strict = true) (hwf : g.WellFormed) (ha : g.ForwardAcyclic)
  (hd : g.DistinctSites) (hlow : ∀ u ∈ g.ops, u.Low) (htidy : ∀ u ∈ g.ops, u.Tidy)

theorem walk_any_bounds {k : Nat} {p : Position} {reg : Register} {bounds : Bounds}
    {Q : Unit → Walk BaseState → Prop} (start : Bounds)
    (h : yields ((slicer settings g).walk g k p reg bounds) Q { w with bounds := start }) :
    yields ((slicer settings g).walk g k p reg bounds) Q w := by
  cases k with
  | zero => trivial
  | succ k => exact h

theorem AtMost.nothing (h : AtMost g n defs 0 w) : w.client.values = {} := by
  have none := Multiset.le_zero.mp h.waiting
  have entries : w.client.values.newestFirst = [] := by
    simpa using none
  cases hv : w.client.values with
  | mk es =>
    rw [hv] at entries
    rw [show es = [] from entries]

include hs hwf ha hd hlow htidy

theorem addressRegister_leaves (u : Placed) {reg : Register} (hreg : reg.lsb = 0) :
    yields (addressRegister settings g u reg)
      (fun _ w' => w'.client.values = {} ∨ w'.client = w.client) w := by
  unfold addressRegister
  split
  · exact .inr rfl
  · have cleared : AtMost g (g.weight u.block u.index) w.client.definitions 0
        { w with client := { w.client with values := {} }, bounds := {} } :=
      ⟨by simp, by simp, rfl, fun _ _ _ => rfl⟩
    have walks : WalksSpend settings g settings.depth :=
      (walks_and_follows_spend hs hwf ha hd hlow htidy settings.depth).1
    apply wp_bind.mpr
    apply (wp_modifyClient _).mpr
    apply wp_bind.mpr
    apply walk_any_bounds {}
    apply wp_imp (walks (p := ⟨u.block, u.index⟩) (Nat.le_refl _) hreg rfl cleared)
    intro _ w₁ h₁
    apply wp_imp (claim_spends h₁ hreg)
    intro _ w₂ h₂
    exact .inl h₂.nothing

theorem addressTerms_leaves (u : Placed) {terms : List (TermKey × Term)}
    (hterms : ∀ e ∈ terms, ∀ site reg, e.1 = .register site reg → reg.lsb = 0) (sum : Formula) :
    yields (addressTerms settings g u terms sum)
      (fun _ w' => w'.client.values = {} ∨ w'.client = w.client) w := by
  -- once a walk has left nothing pending, the later terms leave nothing either
  induction terms generalizing sum w with
  | nil => exact .inr rfl
  | cons e rest ih =>
    have ih := fun sum' w' => ih (w := w') (fun e he => hterms e (List.mem_cons_of_mem _ he)) sum'
    obtain ⟨key, t⟩ := e
    unfold addressTerms
    dsimp only
    cases key with
    | register site reg =>
      have hreg : reg.lsb = 0 := hterms _ List.mem_cons_self site reg rfl
      apply wp_bind.mpr
      apply wp_imp (addressRegister_leaves hs hwf ha hd hlow htidy u hreg)
      intro f? w₁ h₁
      have continued : ∀ (sum' : Formula) (journal : Journal),
          yields (addressTerms settings g u rest sum')
            (fun _ w' => w'.client.values = {} ∨ w'.client = w.client) { w₁ with journal } := by
        intro sum' journal
        apply wp_imp (ih sum' _)
        intro _ w₂ h₂
        obtain empty | same := h₂
        · exact .inl empty
        · rw [same]
          exact h₁
      cases f? with
      | none => exact continued _ _
      | some f =>
        dsimp only
        split
        · exact continued _ _
        · exact continued _ _
    | _ => exact ih _ _

theorem address_leaves (b index : Nat) (opidx : Int) :
    yields (address settings g b index opidx)
      (fun _ w' => w'.client.values = {} ∨ w'.client = w.client) w := by
  unfold address
  apply wp_bind.mpr
  cases hb : g.block? b with
  | none => trivial
  | some block =>
    apply (wp_require_some block).mpr
    apply wp_bind.mpr
    cases hop : block.ops[index]? with
    | none => trivial
    | some op =>
      apply (wp_require_some op).mpr
      split
      · trivial
      · next m hm =>
        have mem : op ∈ g.ops := Graph.mem_ops (Graph.op?_eq_some.mpr ⟨block, hb, hop⟩)
        apply wp_bind.mpr
        apply wp_imp (addressTerms_leaves hs hwf ha hd hlow htidy ⟨b, index, op⟩ _ .zero)
        · intro f w₁ h₁
          exact h₁
        · intro e he site reg hkey
          obtain ⟨_, r, hr, rfl⟩ := key_of_mem_addressFormula he hkey
          have low : r.lsb = 0 :=
            (hlow op mem).address (List.mem_of_find?_eq_some hm) (by simpa using hr)
          exact low

end Addresses

/-- After a base address was computed strictly, nothing is pending, unless no register was sliced. -/
theorem address_strict_leaves_nothing {settings : Settings} (hs : settings.strict = true) {g : Graph}
    (hg : g.Built) (ha : g.ForwardAcyclic) (hd : g.DistinctSites) (hlow : ∀ u ∈ g.ops, u.Low)
    (htidy : ∀ u ∈ g.ops, u.Tidy) {b index : Nat} {opidx : Int} {f : Formula} {w w' : Walk BaseState}
    (hr : (address settings g b index opidx).run w = .ok f w') :
    (w.client.values = {} → w'.client.values = {}) ∧
      (w'.client.values = {} ∨ w'.client = w.client) := by
  have left := wp_ok (address_leaves hs hg.wellFormed ha hd hlow htidy b index opidx) hr
  refine ⟨?_, left⟩
  intro empty
  obtain h | h := left
  · exact h
  · rw [h, empty]

def wovenRoutine : Graph :=
  let rax : Register := ⟨.listed 0, 0, 63⟩
  let rbx : Register := ⟨.listed 4, 0, 63⟩
  let rcx : Register := ⟨.listed 8, 0, 63⟩
  let rdx : Register := ⟨.listed 12, 0, 63⟩
  let slot : Operand := .memory { base := some ⟨.listed 28, 0, 63⟩ }
  let first : List MicroOp :=
    [{ pc := 0x10, kind := .move, operation := .mov, sources := [.immediate 16],
        destinations := [.register rax] },
      { pc := 0x14, kind := .alu, operation := .sll,
        sources := [.register rax, .register rax, .immediate 3], destinations := [.register rbx] },
      { pc := 0x18, kind := .store, operation := .mov, sources := [.register rbx],
        destinations := [slot] }]
  let second : List MicroOp :=
    [{ pc := 0x20, kind := .lea, operation := .add,
        sources := [.memory { base := some rax, index := some rbx, scale := 4, disp := 8 }],
        destinations := [.register rcx] },
      { pc := 0x24, kind := .load, operation := .mov, sources := [slot],
        destinations := [.register rdx] },
      { pc := 0x28, kind := .alu, operation := .add, sources := [.register rcx, .register rdx],
        destinations := [.register rcx] },
      { pc := 0x2c, kind := .load, operation := .mov, sources := [.memory { base := some rcx }],
        destinations := [.register rdx] }]
  (((({} : Graph).addBlock 0 0 first).addBlock 1 0 second).addEdge 0 1 false).setEntry 0

theorem address_strict_leaves_nothing_wovenRoutine :
    let bases := (OperandTable.setBase {} ⟨0x18, 0⟩ (.constant 64)).setBase ⟨0x24, 0⟩ (.constant 64)
    ∃ w', (address { strict := true } wovenRoutine 1 3 0).run { client := { bases } } =
      .ok (.constant 664) w' ∧ w'.client.values = {} := by
  intro bases
  have answer : answer? (address { strict := true } wovenRoutine 1 3 0) { client := { bases } } =
      some (.constant 664) := by decide +kernel
  obtain ⟨w', hr⟩ := run_of_answer? answer
  have built : wovenRoutine.Built :=
    .setEntry _ (.addEdge _ (by decide) (by decide) (.addBlock _ _ _ (.addBlock _ _ _ (.empty ""))))
  have left := address_strict_leaves_nothing rfl built (Graph.forwardAcyclic_of_ranks id (by decide))
    (Graph.distinctSites_of_nodup (by decide)) (by decide) (by decide) hr
  exact ⟨w', hr, left.1 rfl⟩

def doubleLea : Graph :=
  let rax : Register := ⟨.listed 0, 0, 63⟩
  let rbx : Register := ⟨.listed 4, 0, 63⟩
  let rcx : Register := ⟨.listed 8, 0, 63⟩
  (({} : Graph).addBlock 0 0
    [{ pc := 0x10, kind := .move, operation := .mov, sources := [.immediate 1],
        destinations := [.register rax] },
      { pc := 0x14, kind := .lea, operation := .add,
        sources := [.memory { base := some rax, index := some rax, scale := 2 }],
        destinations := [.register rbx] },
      { pc := 0x18, kind := .move, operation := .mov, sources := [.immediate 100],
        destinations := [.register rax] },
      { pc := 0x1c, kind := .alu, operation := .add, sources := [.register rax, .register rbx],
        destinations := [.register rcx] },
      { pc := 0x20, kind := .load, operation := .mov, sources := [.memory { base := some rcx }],
        destinations := [.register rbx] }]).setEntry 0

def memoryDivision : Graph :=
  let rax : Register := ⟨.listed 0, 0, 63⟩
  let rcx : Register := ⟨.listed 8, 0, 63⟩
  let rdx : Register := ⟨.listed 12, 0, 63⟩
  (({} : Graph).addBlock 0 0
    [{ pc := 0x10, kind := .div, operation := .div,
        sources := [.register rdx, .register rax, .memory { base := some rcx }],
        destinations := [.register rax] },
      { pc := 0x14, kind := .load, operation := .mov, sources := [.memory { base := some rax }],
        destinations := [.register rcx] }]).setEntry 0

def twinSites : Graph :=
  let rax : Register := ⟨.listed 0, 0, 63⟩
  let rcx : Register := ⟨.listed 8, 0, 63⟩
  (({} : Graph).addBlock 0 0
    [{ pc := 0x10, kind := .move, operation := .mov, sources := [.immediate 1],
        destinations := [.register rcx] },
      { pc := 0x10, kind := .alu, operation := .add, sources := [.register rcx, .immediate 1],
        destinations := [.register rax] },
      { pc := 0x14, kind := .load, operation := .mov, sources := [.memory { base := some rax }],
        destinations := [.register rcx] }]).setEntry 0

/-- Other routines leave values pending. In the first one the last sum has claimed such a value, of
another definition of the same register, in place of its own, so that its result is wrong. -/
theorem address_strict_leaves_values :
    let rax : Register := ⟨.listed 0, 0, 63⟩
    let rcx : Register := ⟨.listed 8, 0, 63⟩
    (doubleLea.Built ∧ doubleLea.ForwardAcyclic ∧ (∀ u ∈ doubleLea.ops, u.Low) ∧
      wp (address { strict := true } doubleLea 0 4 0)
        (fun f w => f = .constant 4 ∧ w.client.values = ⟨[(.register rax, .constant 100)]⟩)
        (fun _ _ => False) { client := {} }) ∧
    (memoryDivision.Built ∧ memoryDivision.ForwardAcyclic ∧ (∀ u ∈ memoryDivision.ops, u.Low) ∧
      wp (address { strict := true } memoryDivision 0 1 0)
        (fun _ w => w.client.values = ⟨[(.register rcx, .register ⟨0x10, 0⟩ rcx)]⟩)
        (fun _ _ => False) { client := {} }) ∧
    (twinSites.Built ∧ twinSites.ForwardAcyclic ∧ (∀ u ∈ twinSites.ops, u.Low) ∧
      wp (address { strict := true } twinSites 0 2 0)
        (fun _ w => w.client.values = ⟨[(.register rcx, .constant 1)]⟩)
        (fun _ _ => False) { client := {} }) := by
  have built (ops : List MicroOp) : ((({} : Graph).addBlock 0 0 ops).setEntry 0).Built :=
    .setEntry 0 (.addBlock _ _ _ (.empty ""))
  have acyclic (ops : List MicroOp) : ((({} : Graph).addBlock 0 0 ops).setEntry 0).ForwardAcyclic :=
    Graph.forwardAcyclic_of_ranks id (by simp [Graph.setEntry, Graph.modifyBlock, Graph.addBlock,
      Graph.addNode])
  exact ⟨⟨built _, acyclic _, by decide, by decide +kernel⟩,
    ⟨built _, acyclic _, by decide, by decide +kernel⟩,
    ⟨built _, acyclic _, by decide, by decide +kernel⟩⟩

end Base

end AddressFormulas
