import AddressFormulas.Proofs.Base.Congruence
import AddressFormulas.Proofs.Base.Edges
import AddressFormulas.Proofs.Base.Reuse

/-!
Base slicing as a function of the state of the slicer. Where it is not strict and forward edges form
no cycle, every walk comes to an end, with an answer and a state of the slicer that depend neither on
how deep walks may be nested, nor on where the walk was asked for, nor on what was told before.
-/

namespace AddressFormulas

open WalkM

def Graph.Spares (g : Graph) (site : Site) (p : Position) : Prop :=
  ∀ c k u, g.op? c k = some u → u.site = site →
    ¬(c = p.block ∧ k < p.before) ∧ ¬Relation.TransGen g.Forward c p.block

theorem Graph.Spares.earlier {g : Graph} {site : Site} {p : Position} (h : g.Spares site p) {i : Nat}
    (hi : i < p.before) : g.Spares site ⟨p.block, i⟩ := by
  intro c k u hu hs
  obtain ⟨apart, behind⟩ := h c k u hu hs
  refine ⟨?_, behind⟩
  rintro ⟨hc, hk⟩
  exact apart ⟨hc, Nat.lt_trans hk hi⟩

theorem Graph.Spares.behind {g : Graph} {site : Site} {p : Position} (h : g.Spares site p) {a : Nat}
    (ha : g.Forward a p.block) (before : Nat) : g.Spares site ⟨a, before⟩ := by
  intro c k u hu hs
  obtain ⟨_, behind⟩ := h c k u hu hs
  constructor
  · rintro ⟨rfl, _⟩
    exact behind (.single ha)
  · intro path
    exact behind (path.tail ha)

theorem Graph.spares_of_distinctSites {g : Graph} (hd : g.DistinctSites) (ha : g.ForwardAcyclic)
    {b i j : Nat} {u : MicroOp} (hu : g.op? b j = some u) (hij : i ≤ j) : g.Spares u.site ⟨b, i⟩ := by
  intro c k v hv hs
  obtain ⟨rfl, rfl⟩ := hd c k b j v u hv hu hs
  constructor
  · rintro ⟨_, hk⟩
    exact absurd hk (Nat.not_lt.mpr hij)
  · exact ha c

namespace Base

def Acts {α : Type} (m : M α) (c : BaseState) (a : α) (c' : BaseState) : Prop :=
  ∀ w, w.client = c → w.bounds.stop = 0 →
    wp m (fun a' w' => a' = a ∧ w'.client = c' ∧ w'.bounds.stop = 0) (fun _ _ => False) w

variable {settings : Settings} {g : Graph} {α β : Type} {c c' c'' : BaseState}

namespace Acts

theorem bind {m : M α} {f : α → M β} {a : α} {b : β} (hm : Acts m c a c')
    (hf : Acts (f a) c' b c'') : Acts (m >>= f) c b c'' := by
  intro w hc hs
  apply wp_bind.mpr
  apply wp_imp (hm w hc hs)
  rintro _ w₁ ⟨rfl, hc₁, hs₁⟩
  exact hf w₁ hc₁ hs₁

theorem congr {m m' : M α} {a : α} (hm : ∀ w, w.bounds.stop = 0 → m' w = m w) (h : Acts m c a c') :
    Acts m' c a c' :=
  fun w hc hs => (wp_congr (hm w hs)).mpr (h w hc hs)

theorem ok (a : α) : Acts (pure a : M α) c a c := fun _ hc hs => ⟨rfl, hc, hs⟩

theorem tell (e : Event) : Acts (WalkM.tell e) c () c := fun _ hc hs => ⟨rfl, hc, hs⟩

theorem tellAll (es : List Event) : Acts (WalkM.tellAll es) c () c := by
  intro w hc hs
  apply (wp_tellAll es).mpr
  exact ⟨rfl, hc, hs⟩

theorem classify (u : MicroOp) : Acts (WalkM.classify u) c u.effect c :=
  .bind (.tellAll _) (.ok _)

theorem client : Acts WalkM.client c c c := fun _ hc hs => ⟨hc, hc, hs⟩

theorem read {f : Walk BaseState → M β} {b : β}
    (hf : ∀ w, w.client = c → w.bounds.stop = 0 → Acts (f w) c b c') : Acts (get >>= f) c b c' :=
  fun w hc hs => hf w hc hs w hc hs

theorem modifyClient (f : BaseState → BaseState) : Acts (WalkM.modifyClient f) c () (f c) := by
  intro w hc hs
  exact ⟨rfl, congrArg f hc, hs⟩

theorem require {a? : Option α} {a : α} (h : a? = some a) : Acts (WalkM.require a?) c a c := by
  subst h
  exact .ok a

theorem report (hs : settings.strict = false) {failure : Failure}
    (hf : failure.isCoverageGap = true) : Acts (WalkM.report settings.strict failure) c () c := by
  intro w hc hstop
  rw [hs]
  exact (wp_report hf).mpr ⟨rfl, hc, hstop⟩

end Acts

structure Takes (c c' : BaseState) : Prop where
  bases : c'.bases = c.bases
  definitions : c'.definitions = c.definitions

theorem Takes.refl (c : BaseState) : Takes c c := ⟨rfl, rfl⟩

theorem Takes.trans (h : Takes c c') (h' : Takes c' c'') : Takes c c'' :=
  ⟨h'.bases.trans h.bases, h'.definitions.trans h.definitions⟩

def Taking (m : M α) : Prop := ∀ c, ∃ a c', Acts m c a c' ∧ Takes c c'

namespace Taking

theorem bind {m : M α} {f : α → M β} (hm : Taking m) (hf : ∀ a, Taking (f a)) : Taking (m >>= f) := by
  intro c
  obtain ⟨a, c₁, acts, takes⟩ := hm c
  obtain ⟨b, c₂, acts₂, takes₂⟩ := hf a c₁
  exact ⟨b, c₂, acts.bind acts₂, takes.trans takes₂⟩

theorem idle {m : M α} (h : ∀ c, ∃ a, Acts m c a c) : Taking m := by
  intro c
  obtain ⟨a, acts⟩ := h c
  exact ⟨a, c, acts, .refl c⟩

theorem ok (a : α) : Taking (pure a : M α) := .idle fun _ => ⟨a, .ok a⟩

theorem tell (e : Event) : Taking (WalkM.tell e) := .idle fun _ => ⟨(), .tell e⟩

end Taking

theorem claim_taking (r : Register) : Taking (claim r) := by
  intro c
  cases ht : c.values.claim? r with
  | none =>
    refine ⟨none, c, .bind .client ?_, .refl c⟩
    rw [ht]
    exact .ok none
  | some t =>
    refine ⟨some t.value, { c with values := t.rest }, .bind .client ?_, rfl, rfl⟩
    rw [ht]
    exact .bind (.modifyClient _) (.bind (.tellAll _) (.ok _))

theorem claimSite_taking (site : Site) : Taking (claimSite site) := by
  intro c
  cases ht : c.values.claimSite? site with
  | none =>
    refine ⟨none, c, .bind .client ?_, .refl c⟩
    rw [ht]
    exact .ok none
  | some t =>
    refine ⟨some t.value, { c with values := t.rest }, .bind .client ?_, rfl, rfl⟩
    rw [ht]
    exact .bind (.modifyClient _) (.ok _)

theorem congruence_taking (hs : settings.strict = false) :
    ValueCongruence settings settings fun _ m _ => Taking m where
  ok := .ok
  bind := .bind
  tell := .tell
  report hf := .idle fun _ => ⟨(), .report hs hf⟩
  claim := claim_taking
  claimSite := claimSite_taking

theorem definitionValue_taking (hs : settings.strict = false) {u : Placed}
    (hu : g.op? u.block u.index = some u.op) (reg : Register) :
    Taking (definitionValue settings g u reg) := by
  refine (congruence_taking hs).definitionValue reg g g ?_
  obtain ⟨block, hb, _⟩ := Graph.op?_eq_some.mp hu
  exact .bind (.idle fun _ => ⟨block, .require hb⟩) fun _ => .ok _

def Settled (c : BaseState) : Prop :=
  ∀ site f, c.definitions.get? site = some f → f.overflow = false

structure Keeps (g : Graph) (p : Position) (c c' : BaseState) : Prop where
  bases : c'.bases = c.bases
  settled : Settled c → Settled c'
  spared : ∀ site, g.Spares site p → c'.definitions.get? site = c.definitions.get? site

namespace Keeps

variable {p q : Position}

theorem of_same (hb : c'.bases = c.bases) (hd : c'.definitions = c.definitions) : Keeps g p c c' := by
  constructor
  · exact hb
  · intro settled
    simpa [Settled, hd] using settled
  · intro site _
    rw [hd]

theorem trans (h : Keeps g p c c') (h' : Keeps g p c' c'') : Keeps g p c c'' := by
  constructor
  · exact h'.bases.trans h.bases
  · intro settled
    exact h'.settled (h.settled settled)
  · intro site spared
    exact (h'.spared site spared).trans (h.spared site spared)

theorem of_behind (hq : ∀ site, g.Spares site p → g.Spares site q) (h : Keeps g q c c') :
    Keeps g p c c' := by
  constructor
  · exact h.bases
  · exact h.settled
  · intro site spared
    exact h.spared site (hq site spared)

end Keeps

/-- From depth `n` on, the answer and the state afterwards depend on the state before alone, and `Q`
holds of the state afterwards. -/
def Runs (g : Graph) (p : Position) (n : Nat) (Q : BaseState → Prop) (m : Nat → M α) : Prop :=
  ∀ c, Settled c → ∃ a c', (∀ k, n ≤ k → Acts (m k) c a c') ∧ Keeps g p c c' ∧ Q c'

def anything (_ : BaseState) : Prop := True

namespace Runs

variable {p q : Position} {n : Nat} {Q R : BaseState → Prop}

theorem bind {m : Nat → M α} {f : Nat → α → M β} (hm : Runs g p n Q m)
    (hf : ∀ a, Runs g p n R fun k => f k a) : Runs g p n R fun k => m k >>= f k := by
  intro c settled
  obtain ⟨a, c₁, acts₁, keeps₁, _⟩ := hm c settled
  obtain ⟨b, c₂, acts₂, keeps₂, hR⟩ := hf a c₁ (keeps₁.settled settled)
  refine ⟨b, c₂, ?_, keeps₁.trans keeps₂, hR⟩
  intro k hk
  exact (acts₁ k hk).bind (acts₂ k hk)

theorem of_acts {m : M α}
    (hm : ∀ c, ∃ a c', Acts m c a c' ∧ c'.bases = c.bases ∧ c'.definitions = c.definitions) :
    Runs g p n anything fun _ => m := by
  intro c _
  obtain ⟨a, c', acts, bases, definitions⟩ := hm c
  exact ⟨a, c', fun _ _ => acts, .of_same bases definitions, trivial⟩

theorem of_taking {m : M α} (hm : Taking m) : Runs g p n anything fun _ => m := by
  refine of_acts fun c => ?_
  obtain ⟨a, c', acts, takes⟩ := hm c
  exact ⟨a, c', acts, takes.bases, takes.definitions⟩

theorem ok (a : α) : Runs g p n anything fun _ => (pure a : M α) := of_taking (.ok a)

theorem tell (e : Event) : Runs g p n anything fun _ => WalkM.tell e := of_taking (.tell e)

theorem report (hs : settings.strict = false) {failure : Failure}
    (hf : failure.isCoverageGap = true) :
    Runs g p n anything fun _ => WalkM.report settings.strict failure :=
  of_taking (.idle fun _ => ⟨(), .report hs hf⟩)

theorem require {a? : Option α} {a : α} {f : Nat → α → M β} (h : a? = some a)
    (hf : Runs g p n Q fun k => f k a) : Runs g p n Q fun k => WalkM.require a? >>= f k := by
  intro c settled
  obtain ⟨b, c', acts, rest⟩ := hf c settled
  exact ⟨b, c', fun k hk => .bind (.require h) (acts k hk), rest⟩

theorem client : Runs g p n anything fun _ => (WalkM.client : M BaseState) :=
  of_taking (.idle fun c => ⟨c, .client⟩)

theorem pushSite (site : Site) (f : Formula) : Runs g p n anything fun _ => pushSite site f := by
  intro c _
  exact ⟨(), _, fun _ _ => .modifyClient _, .of_same rfl rfl, trivial⟩

theorem push (reg : Register) (f : Formula) : Runs g p n anything fun _ => push reg f := by
  intro c _
  exact ⟨(), _, fun _ _ => .modifyClient _, .of_same rfl rfl, trivial⟩

theorem read {f : Nat → Walk BaseState → M β} (m : Nat → M β) (hf : ∀ k w, w.bounds.stop = 0 → f k w = m k)
    (hm : Runs g p n Q m) : Runs g p n Q fun k => get >>= f k := by
  intro c settled
  obtain ⟨a, c', acts, keeps, hQ⟩ := hm c settled
  refine ⟨a, c', ?_, keeps, hQ⟩
  intro k hk
  apply Acts.read
  intro w _ hstop
  rw [hf k w hstop]
  exact acts k hk

theorem guarded {P : Walk BaseState → Prop} [∀ w, Decidable (P w)] {m : Nat → M α}
    (S : BaseState → Prop) (a : α) (hP : ∀ w, w.bounds.stop = 0 → (P w ↔ S w.client))
    (hm : Runs g p n anything m) :
    Runs g p n anything fun k => get >>= fun w => if P w then pure a else m k := by
  intro c settled
  by_cases asked : S c
  · refine ⟨a, c, ?_, .of_same rfl rfl, trivial⟩
    intro k _
    apply Acts.read
    rintro w rfl hstop
    rw [if_pos ((hP w hstop).mpr asked)]
    exact .ok a
  · obtain ⟨b, c', acts, result⟩ := hm c settled
    refine ⟨b, c', ?_, result⟩
    intro k hk
    apply Acts.read
    rintro w rfl hstop
    rw [if_neg (mt (hP w hstop).mp asked)]
    exact acts k hk

theorem weaken {m : Nat → M α} {n' : Nat} (h : Runs g q n' Q m) (hn : n' ≤ n)
    (hq : ∀ site, g.Spares site p → g.Spares site q) : Runs g p n Q m := by
  intro c settled
  obtain ⟨a, c', acts, keeps, hQ⟩ := h c settled
  exact ⟨a, c', fun k hk => acts k (hn.trans hk), keeps.of_behind hq, hQ⟩

end Runs

def Topped (reg : Register) (c : BaseState) : Prop :=
  ∃ d f rest, c.values.newestFirst = (.register d, f) :: rest ∧ d.overlaps reg = true ∧
    f.overflow = false

def Renewed (reg : Register) (R : BaseState → BaseState → Prop) (c : BaseState) : Prop :=
  ∃ d f rest, c.values.newestFirst = (.register d, f) :: rest ∧ d.overlaps reg = true ∧
    f.overflow = false ∧
    ∀ c', c'.definitions = c.definitions → R c' { c' with values := c'.values.push d f }

namespace Renewed

variable {reg : Register} {R R' : BaseState → BaseState → Prop}

theorem topped (h : Renewed reg R c) : Topped reg c := by
  obtain ⟨d, f, rest, values, hover, plain, _⟩ := h
  exact ⟨d, f, rest, values, hover, plain⟩

theorem imp (hR : ∀ c c', R c c' → R' c c') (h : Renewed reg R c) : Renewed reg R' c := by
  obtain ⟨d, f, rest, values, hover, plain, again⟩ := h
  exact ⟨d, f, rest, values, hover, plain, fun c' known => hR _ _ (again c' known)⟩

theorem of_push {d : Register} {f : Formula} {values : Pending Formula}
    (hc : c.values = values.push d f) (hover : d.overlaps reg = true) (plain : f.overflow = false)
    (again : ∀ c', c'.definitions = c.definitions → R c' { c' with values := c'.values.push d f }) :
    Renewed reg R c := by
  refine ⟨d, f, values.newestFirst, ?_, hover, plain, again⟩
  simp [hc, Pending.push, Register.isAbsent_of_overlaps hover]

end Renewed

def Goes (n : Nat) (m : Nat → M Unit) (c c' : BaseState) : Prop := ∀ k, n ≤ k → Acts (m k) c () c'

def Renews (g : Graph) (p : Position) (n : Nat) (reg : Register) (m : Nat → M Unit) : Prop :=
  Runs g p n (fun c => reg.overlaps reg = true → Renewed reg (Goes n m) c) m

theorem Renews.imp {p : Position} {n : Nat} {reg : Register} {m m' : Nat → M Unit}
    (hm : ∀ k c c', Acts (m k) c () c' → Acts (m' k) c () c') (h : Renews g p n reg m) :
    Renews g p n reg m' := by
  intro c settled
  obtain ⟨_, c', acts, keeps, renewed⟩ := h c settled
  refine ⟨(), c', fun k hk => hm k _ _ (acts k hk), keeps, fun bit => ?_⟩
  exact (renewed bit).imp fun _ _ goes k hk => hm k _ _ (goes k hk)

section Operations

variable (hs : settings.strict = false) {u : Placed} (hu : g.op? u.block u.index = some u.op)
  {p : Position} {n : Nat}

def Defined (site : Site) (reg : Register) (c : BaseState) : Prop :=
  ∃ f values, c.values = Pending.push values reg f ∧ f.overflow = false ∧
    c.definitions.get? site = some f

theorem leaveOp_acts_known {f : Formula} (known : c.definitions.get? u.op.site = some f)
    (reg : Register) :
    Acts (leaveOp settings g u reg) c () { c with values := c.values.push reg f } := by
  intro w hc hstop
  apply (wp_congr (leaveOp_run_known (hstop.le.trans (Nat.zero_le _)) (hc ▸ known))).mpr
  exact Acts.modifyClient _ w hc hstop

theorem leaveOp_acts_computed (unknown : c.definitions.get? u.op.site = none) {reg : Register}
    {f : Formula} (value : Acts (definitionValue settings g u reg) c f c') :
    Acts (leaveOp settings g u reg) c ()
      (recorded c' u.op.site reg (valueOf u.op.site reg f)) := by
  intro w hc hstop
  apply wp_leaveOp_new (hstop.le.trans (Nat.zero_le _)) (hc ▸ unknown)
  apply wp_imp (value w hc hstop)
  rintro _ w₁ ⟨rfl, rfl, hstop₁⟩ journal
  exact ⟨rfl, rfl, hstop₁⟩

theorem leaveOp_acts_plain (unknown : c.definitions.get? u.op.site = none) {reg : Register}
    {f : Formula} (value : Acts (definitionValue settings g u reg) c f c')
    (plain : f.overflow = false) :
    Acts (leaveOp settings g u reg) c () (recorded c' u.op.site reg f) := by
  have left := leaveOp_acts_computed unknown value
  rwa [valueOf_plain plain] at left

theorem define_acts_known {f : Formula} (known : c.definitions.get? u.op.site = some f)
    (reg : Register) (k : Nat) :
    Acts (define settings g k u reg) c () { c with values := c.values.push reg f } := by
  intro w hc hstop
  apply (wp_congr (define_run_known (hstop.le.trans (Nat.zero_le _)) (hc ▸ known) k)).mpr
  exact Acts.modifyClient _ w hc hstop

include hs hu in
theorem leaveOp_runs (hp : ∀ site, g.Spares site p → site ≠ u.op.site) (reg : Register) :
    Runs g p n (Defined u.op.site reg) fun _ => leaveOp settings g u reg := by
  intro c settled
  cases known : c.definitions.get? u.op.site with
  | some f =>
    refine ⟨(), _, fun _ _ => leaveOp_acts_known known reg, .of_same rfl rfl, ?_⟩
    exact ⟨f, c.values, rfl, settled _ _ known, known⟩
  | none =>
    obtain ⟨f, c₁, acts, takes⟩ := definitionValue_taking hs hu reg c
    have plain := overflow_valueOf u.op.site reg f
    refine ⟨(), _, fun _ _ => leaveOp_acts_computed known acts, ⟨takes.bases, ?_, ?_⟩, ?_⟩
    · intro _ site f₂ hf₂
      unfold recorded at hf₂
      by_cases hsite : site = u.op.site
      · rw [hsite, Table.get?_insert_self] at hf₂
        rw [← Option.some.inj hf₂]
        exact plain
      · rw [Table.get?_insert_of_ne hsite, takes.definitions] at hf₂
        exact settled site f₂ hf₂
    · intro site spared
      unfold recorded
      rw [Table.get?_insert_of_ne (hp site spared), takes.definitions]
    · exact ⟨_, c₁.values, rfl, plain, Table.get?_insert_self _ _ _⟩

def WalksAct (settings : Settings) (g : Graph) (p : Position) : Prop :=
  ∀ reg c, Settled c → ∃ c', (∀ k bounds, g.weight p.block p.before < k → bounds.stop = 0 →
    Acts ((slicer settings g).walk g k p reg bounds) c () c') ∧ Keeps g p c c' ∧
    (reg.overlaps reg = true → Topped reg c')

def Walks (settings : Settings) (g : Graph) (p : Position) (reg : Register) (c c' : BaseState) : Prop :=
  ∀ k bounds, g.weight p.block p.before < k → bounds.stop = 0 →
    Acts ((slicer settings g).walk g k p reg bounds) c () c'

def WalksRenew (settings : Settings) (g : Graph) (p : Position) : Prop :=
  ∀ reg c, Settled c → ∃ c', Walks settings g p reg c c' ∧ Keeps g p c c' ∧
    (reg.overlaps reg = true → Renewed reg (Walks settings g p reg) c')

theorem WalksRenew.act (h : WalksRenew settings g p) : WalksAct settings g p := by
  intro reg c settled
  obtain ⟨c', walks, keeps, renewed⟩ := h reg c settled
  exact ⟨c', walks, keeps, fun bit => (renewed bit).topped⟩

def FollowsAct (settings : Settings) (g : Graph) (p : Position) : Prop :=
  ∀ address, Runs g p (g.weight p.block p.before + 1) anything
    fun k => (slicer settings g).follow g k p address

theorem WalksAct.runs (hw : WalksAct settings g p) (reg : Register) {bounds : Bounds}
    (hb : bounds.stop = 0) : Runs g p (g.weight p.block p.before + 1) anything
      fun k => (slicer settings g).walk g k p reg bounds := by
  intro c settled
  obtain ⟨c', acts, keeps, _⟩ := hw reg c settled
  exact ⟨(), c', fun k hk => acts k bounds hk hb, keeps, trivial⟩

include hs in
theorem sliceSources_runs (hw : WalksAct settings g ⟨u.block, u.index⟩) (sources : List Register) :
    Runs g ⟨u.block, u.index⟩ (g.weight u.block u.index + 1) anything
      fun k => (slicer settings g).sliceSources ((slicer settings g).walk g k) u sources := by
  have one : ∀ source, Runs g ⟨u.block, u.index⟩ (g.weight u.block u.index + 1) anything
      fun k => (slicer settings g).sliceSource ((slicer settings g).walk g k) u source := by
    intro source
    have walk : ∀ reg, Runs g ⟨u.block, u.index⟩ (g.weight u.block u.index + 1) anything
        fun k => (slicer settings g).sliceWith ((slicer settings g).walk g k) ⟨u.block, u.index⟩ reg
          ⟨u.op.pc, 0⟩ :=
      fun reg => .bind (.ok ()) fun _ => hw.runs reg rfl
    unfold Slicer.sliceSource
    dsimp only
    split
    · exact .ok ()
    · split
      · exact .push _ _
      · split
        · exact .bind (.report hs rfl) fun _ => walk _
        · exact walk _
  induction sources with
  | nil => exact .ok ()
  | cons source rest ih => exact .bind (one source) fun _ => ih

def resolveFound (u : Placed) (reg : Register) (base : Formula) : Option Register → M Unit
  | some saved => do
    match ← claim saved with
    | some f =>
      if f.definedBefore (← get).bounds.stop then pushSite u.op.site (.load u.op.site reg)
      else
        WalkM.tell (.spilledValue u.op.pc f)
        pushSite u.op.site f
    | none => pushSite u.op.site (.load u.op.site reg)
  | none =>
    match base.constantValue? with
    | some c => pushSite u.op.site (.reference u.op.site c.value)
    | none => pushSite u.op.site (.load u.op.site reg)

theorem resolveLoad_eq (settings : Settings) (follow : Slicer.FollowFor BaseState) (u : Placed)
    (reg : Register) : resolveLoad settings follow u reg = (do
      match Slicer.loadBase? (← WalkM.client).bases u.op with
      | none =>
        WalkM.tell (.unusableAddress u.op.pc)
        pushSite u.op.site (.load u.op.site reg)
      | some base =>
        if settings.followSpills then
          modify fun w => { w with bounds.start := u.op.pc }
          resolveFound u reg base (← follow ⟨u.block, u.index⟩ base)
        else resolveFound u reg base none) := rfl

theorem resolveFound_runs (reg : Register) (base : Formula) (found? : Option Register) :
    Runs g p n anything fun _ => resolveFound u reg base found? := by
  unfold resolveFound
  cases found? with
  | none =>
    dsimp only
    split
    · exact .pushSite _ _
    · exact .pushSite _ _
  | some saved =>
    refine .bind (.of_taking (claim_taking saved)) fun f? => ?_
    cases f? with
    | none => exact .pushSite _ _
    | some f =>
      refine .read (fun _ => if f.definedBefore 0 then pushSite u.op.site (.load u.op.site reg) else do
        WalkM.tell (.spilledValue u.op.pc f)
        pushSite u.op.site f) ?_ ?_
      · intro k w hstop
        rw [hstop]
      · split
        · exact .pushSite _ _
        · exact .bind (.tell _) fun _ => .pushSite _ _

theorem setStart_acts (start : Nat) (c : BaseState) :
    Acts (modify fun w => { w with bounds.start := start } : M Unit) c () c :=
  fun _ hc hstop => ⟨rfl, hc, hstop⟩

theorem resolveLoad_runs (hf : FollowsAct settings g ⟨u.block, u.index⟩) (reg : Register) :
    Runs g ⟨u.block, u.index⟩ (g.weight u.block u.index + 1) anything
      fun k => resolveLoad settings ((slicer settings g).follow g k) u reg := by
  simp only [resolveLoad_eq]
  refine .bind .client fun c => ?_
  cases Slicer.loadBase? c.bases u.op with
  | none => exact .bind (.tell _) fun _ => .pushSite _ _
  | some base =>
    by_cases follows : settings.followSpills = true
    · simp only [follows, if_true]
      refine .bind (.of_taking (.idle fun c => ⟨(), setStart_acts _ c⟩)) fun _ => ?_
      exact .bind (hf base) fun found? => resolveFound_runs reg base found?
    · simp only [follows]
      exact resolveFound_runs reg base none

theorem enterOp_runs (hf : FollowsAct settings g ⟨u.block, u.index⟩) (reg : Register) :
    Runs g ⟨u.block, u.index⟩ (g.weight u.block u.index + 1) anything
      fun k => enterOp settings ((slicer settings g).follow g k) u reg := by
  refine .guarded (fun c => c.definitions.contains u.op.site = true) false
    (fun w hstop => by simp [hstop]) ?_
  refine .bind (.of_taking (.idle fun _ => ⟨_, .classify u.op⟩)) fun effect => ?_
  cases effect with
  | easy => exact .ok false
  | impossible => exact .ok false
  | normal =>
    dsimp only
    split
    · exact .bind (.tell _) fun _ => .ok false
    · exact .ok true
  | hard => exact .bind (resolveLoad_runs hf reg) fun _ => .ok false

include hs hu in
theorem define_runs (hp : ∀ site, g.Spares site p → g.Spares site ⟨u.block, u.index⟩ ∧ site ≠ u.op.site)
    (hw : WalksAct settings g ⟨u.block, u.index⟩) (hf : FollowsAct settings g ⟨u.block, u.index⟩)
    (reg : Register) :
    Runs g p (g.weight u.block u.index + 1) (Defined u.op.site reg)
      fun k => define settings g k u reg := by
  have leave : Runs g p (g.weight u.block u.index + 1) (Defined u.op.site reg)
      fun _ => leaveOp settings g u reg :=
    leaveOp_runs hs hu (fun site spared => (hp site spared).2) reg
  have behind : ∀ site, g.Spares site p → g.Spares site ⟨u.block, u.index⟩ :=
    fun site spared => (hp site spared).1
  refine .bind ((enterOp_runs hf reg).weaken (Nat.le_refl _) behind) fun entered => ?_
  cases entered with
  | false => exact leave
  | true =>
    exact .bind ((sliceSources_runs hs hw _).weaken (Nat.le_refl _) behind) fun _ => leave

include hs in
theorem sliceStored_runs (hw : WalksAct settings g ⟨u.block, u.index⟩) :
    Runs g ⟨u.block, u.index⟩ (g.weight u.block u.index + 1) anything
      fun k => (slicer settings g).sliceStored ((slicer settings g).walk g k) u := by
  have slice : ∀ reg, Runs g ⟨u.block, u.index⟩ (g.weight u.block u.index + 1) anything fun k => (do
      (slicer settings g).sliceWith ((slicer settings g).walk g k) ⟨u.block, u.index⟩ reg ⟨u.op.pc, 0⟩
      return some reg) := by
    intro reg
    exact .bind (.bind (.ok ()) fun _ => hw.runs reg rfl) fun _ => .ok _
  have constant : ∀ v : Int, Runs g ⟨u.block, u.index⟩ (g.weight u.block u.index + 1) anything
      fun _ => (do
        push (.temporary Slicer.storedConstant u.op.width) (.constant v)
        return some (.temporary Slicer.storedConstant u.op.width) : M (Option Register)) :=
    fun v => .bind (.push _ _) fun _ => .ok _
  unfold Slicer.sliceStored
  dsimp only
  split
  · exact slice _
  · split
    · exact constant _
    · split
      · exact .bind (.report hs rfl) fun _ => slice _
      · exact slice _
  · exact constant _
  · exact .bind (.report hs rfl) fun _ => .ok none
  · exact .bind (.report hs rfl) fun _ => .ok none

end Operations

section Blocks

variable {p : Position} {n : Nat}

theorem enterBlock_acts {b : Nat} {block : Block} (hb : g.block? b = some block) (reg : Register) :
    (∀ c, Acts (enterBlock g b reg) c true c) ∨
      ∃ site, ∀ c, Acts (enterBlock g b reg) c false
        { c with values := c.values.push reg (.register site reg) } := by
  by_cases hstart : block.start ≤ 0
  · refine .inr ⟨⟨0, 0⟩, fun c => .bind (.require hb) (.read fun w _ hstop => ?_)⟩
    rw [hstop]
    dsimp only
    rw [if_pos hstart]
    exact .bind (.modifyClient _) (.ok false)
  · by_cases hentry : block.isEntry = true
    · refine .inr ⟨⟨block.start, 0⟩, fun c => .bind (.require hb) (.read fun w _ hstop => ?_)⟩
      rw [hstop]
      dsimp only
      rw [if_neg hstart, if_pos hentry]
      exact .bind (.modifyClient _) (.ok false)
    · refine .inl fun c => .bind (.require hb) (.read fun w _ hstop => ?_)
      rw [hstop]
      dsimp only
      rw [if_neg hstart, if_neg hentry]
      exact .ok true

theorem enterBlock_runs {block : Block} (hb : g.block? p.block = some block) {reg : Register}
    {next : Nat → M α} {a : α} (hnext : Runs g p n anything next) :
    Runs g p n anything fun k => do
      if ← enterBlock g p.block reg then next k else return a := by
  intro c settled
  obtain enters | ⟨site, stays⟩ := enterBlock_acts hb reg
  · obtain ⟨a, c', acts, rest⟩ := hnext c settled
    refine ⟨a, c', ?_, rest⟩
    intro k hk
    exact .bind (enters c) (acts k hk)
  · exact ⟨a, _, fun k _ => .bind (stays c) (.ok a), .of_same rfl rfl, trivial⟩

theorem renews_unknown {reg : Register} {site : Site} {m : Nat → M Unit}
    (hm : ∀ k c, Acts (m k) c () { c with values := c.values.push reg (.register site reg) }) :
    Renews g p n reg m := by
  intro c _
  refine ⟨(), _, fun k _ => hm k c, .of_same rfl rfl, fun bit => ?_⟩
  exact .of_push rfl bit (Formula.overflow_ofTerm _ _ _) fun c' _ k _ => hm k c'

theorem enterBlock_renews {block : Block} (hb : g.block? p.block = some block) {reg : Register}
    {next : Nat → M Unit} (hnext : Renews g p n reg next) :
    Renews g p n reg fun k => (do
      if ← enterBlock g p.block reg then next k) := by
  obtain enters | ⟨site, stays⟩ := enterBlock_acts hb reg
  · exact hnext.imp fun k c c' acts => .bind (enters c) acts
  · exact renews_unknown fun k c => .bind (stays c) (.ok ())

theorem leaveBlock_acts {b : Nat} {block : Block} (hb : g.block? b = some block) (reg : Register)
    (c : BaseState) :
    Acts (leaveBlock g b reg) c ()
      { c with values := c.values.push reg (.register ⟨block.start, 0⟩ reg) } :=
  .bind (.require hb) (.modifyClient _)

variable (hp : p.block < g.blocks.length)
  (earlier : ∀ q : Position, q.block < g.blocks.length →
    g.weight q.block q.before < g.weight p.block p.before →
      WalksRenew settings g q ∧ FollowsAct settings g q)

include earlier in
theorem walkAcross_renews (hwf : g.WellFormed) (ha : g.ForwardAcyclic) {e : Nat} {edge : Edge}
    (he : g.edge? e = some edge) (forward : g.Forward edge.source p.block) (reg : Register) :
    Renews g p (g.weight p.block p.before) reg
      fun k => Slicer.walkAcross g ((slicer settings g).walk g k) e reg := by
  have inside := hwf.source_lt e edge he
  have hsource : g.block? edge.source = some g.blocks[edge.source] := List.getElem?_eq_getElem _
  have lighter := Graph.weight_lt_of_forward ha hsource forward p.before
  have across : ∀ c c', Walks settings g ⟨edge.source, g.blocks[edge.source].ops.length⟩ reg c c' →
      Goes (g.weight p.block p.before)
        (fun k => Slicer.walkAcross g ((slicer settings g).walk g k) e reg) c c' := by
    intro c c' walks k hk
    refine .bind (.require he) (.bind (.require hsource) (.read fun w _ hstop => ?_))
    exact walks k w.bounds (lighter.trans_le hk) hstop
  intro c settled
  obtain ⟨c', walks, keeps, renewed⟩ := (earlier ⟨edge.source, _⟩ inside lighter).1 reg c settled
  exact ⟨(), c', across c c' walks, keeps.of_behind fun _ spared => spared.behind forward _,
    fun bit => (renewed bit).imp across⟩

include earlier in
theorem followAcross_runs (hwf : g.WellFormed) (ha : g.ForwardAcyclic) {e : Nat} {edge : Edge}
    (he : g.edge? e = some edge) (forward : g.Forward edge.source p.block) (address : Formula) :
    Runs g p (g.weight p.block p.before) anything
      fun k => Slicer.followAcross g ((slicer settings g).follow g k) e address := by
  have inside := hwf.source_lt e edge he
  have hsource : g.block? edge.source = some g.blocks[edge.source] := List.getElem?_eq_getElem _
  have lighter := Graph.weight_lt_of_forward ha hsource forward p.before
  intro c settled
  obtain ⟨r?, c', acts, keeps, _⟩ := (earlier ⟨edge.source, _⟩ inside lighter).2 address c settled
  refine ⟨r?, c', ?_, keeps.of_behind fun _ spared => spared.behind forward _, trivial⟩
  intro k hk
  exact .bind (.require he) (.bind (.require hsource) (acts k (lighter.trans_le hk)))

include earlier in
theorem walkEdges_renews (hwf : g.WellFormed) (ha : g.ForwardAcyclic) {block : Block}
    (hb : g.block? p.block = some block) (reg : Register) {edges : List Nat}
    (hedges : ∀ e ∈ edges, ∃ edge, g.edge? e = some edge ∧ edge.sink = p.block) :
    Renews g p (g.weight p.block p.before) reg
      fun k => (slicer settings g).walkEdges g ((slicer settings g).walk g k) p.block reg edges := by
  obtain taken | ⟨e, edge, source, he, _, forward, taken⟩ := edgeTaken_cases settings hwf hedges
  · have last := leaveBlock_acts hb reg
    exact renews_unknown fun _ c => (last c).congr fun w hw => taken.walkEdges hw _ _ reg
  · refine (walkAcross_renews earlier hwf ha he forward reg).imp fun _ c _ acts => ?_
    exact acts.congr fun w hw => taken.walkEdges hw _ _ reg

include earlier in
theorem followEdges_runs (hwf : g.WellFormed) (ha : g.ForwardAcyclic) {block : Block}
    (hb : g.block? p.block = some block) (address : Formula) {edges : List Nat}
    (hedges : ∀ e ∈ edges, ∃ edge, g.edge? e = some edge ∧ edge.sink = p.block) :
    Runs g p (g.weight p.block p.before) anything
      fun k => (slicer settings g).followEdges g ((slicer settings g).follow g k) p.block address edges := by
  obtain taken | ⟨e, edge, source, he, _, forward, taken⟩ := edgeTaken_cases settings hwf hedges
  · intro c _
    have last : Acts (leaveBlock g p.block .absent >>= fun _ => pure (none : Option Register)) c none _ :=
      .bind (leaveBlock_acts hb .absent c) (.ok none)
    refine ⟨none, _, fun _ _ => ?_, .of_same rfl rfl, trivial⟩
    exact last.congr fun w hw => taken.followEdges hw _ _ address
  · intro c settled
    obtain ⟨r?, c', acts, result⟩ := followAcross_runs earlier hwf ha he forward address c settled
    exact ⟨r?, c', fun k hk => (acts k hk).congr fun w hw => taken.followEdges hw _ _ address, result⟩

theorem setBounds_acts {bounds : Bounds} (hb : bounds.stop = 0) (c : BaseState) :
    Acts ((slicer settings g).setBounds bounds) c () c :=
  fun _ hc _ => ⟨rfl, hc, hb⟩

include hp earlier in
theorem walk_renews (hs : settings.strict = false) (hwf : g.WellFormed) (ha : g.ForwardAcyclic) :
    WalksRenew settings g p := by
  intro reg c settled
  have hb : g.block? p.block = some g.blocks[p.block] := List.getElem?_eq_getElem hp
  -- without a definition in the block the walk goes on along the edges, else it ends there
  cases hdef : g.blocks[p.block].definition? p.before reg with
  | none =>
    have next : Renews g p (g.weight p.block p.before) reg
        fun k => (slicer settings g).walkNext g ((slicer settings g).walk g k) p.block reg := by
      have edges : Renews g p (g.weight p.block p.before) reg fun k =>
          (slicer settings g).walkEdges g ((slicer settings g).walk g k) p.block reg
            (g.incomingByRank g.blocks[p.block]) :=
        walkEdges_renews earlier hwf ha hb reg
          fun e he => hwf.mem_incoming hb ((mem_sortBy _ e _).mp he)
      exact enterBlock_renews hb (edges.imp fun _ _ _ acts => .bind (.require hb) acts)
    have walks : ∀ c c', Goes (g.weight p.block p.before)
        (fun k => (slicer settings g).walkNext g ((slicer settings g).walk g k) p.block reg) c c' →
        Walks settings g p reg c c' := by
      intro c c' goes k bounds hk hbounds
      obtain ⟨k, rfl⟩ : ∃ j, k = j + 1 := ⟨k - 1, by omega⟩
      refine .bind (setBounds_acts hbounds c) (.bind (.require hb) ?_)
      rw [hdef]
      exact goes k (by omega)
    obtain ⟨_, c', goes, keeps, renewed⟩ := next c settled
    exact ⟨c', walks c c' goes, keeps, fun bit => (renewed bit).imp walks⟩
  | some found =>
    obtain ⟨i, op, written⟩ := found
    obtain ⟨hi, hop, hdefines, _⟩ := Block.definition?_eq_some hb hdef
    have lighter : g.weight p.block i < g.weight p.block p.before := Graph.weight_lt_of_lt hi
    obtain ⟨hw, hf⟩ := earlier ⟨p.block, i⟩ hp lighter
    have apart : ∀ site, g.Spares site p → g.Spares site ⟨p.block, i⟩ ∧ site ≠ op.site := by
      intro site spared
      refine ⟨spared.earlier hi, ?_⟩
      rintro rfl
      exact (spared p.block i op hop rfl).1 ⟨rfl, hi⟩
    have walks : ∀ c c', Goes (g.weight p.block i + 1)
        (fun k => define settings g k ⟨p.block, i, op⟩ written) c c' → Walks settings g p reg c c' := by
      intro c c' goes k bounds hk hbounds
      obtain ⟨k, rfl⟩ : ∃ j, k = j + 1 := ⟨k - 1, by omega⟩
      refine .bind (setBounds_acts hbounds c) (.bind (.require hb) ?_)
      rw [hdef]
      exact .bind (.tell _) (goes k (lighter.trans_le (by omega)))
    obtain ⟨_, c', goes, keeps, f, values, put, plain, known⟩ :=
      define_runs hs (u := ⟨p.block, i, op⟩) hop apart hw.act hf written c settled
    refine ⟨c', walks c c' goes, keeps, fun _ => ?_⟩
    refine .of_push put (MicroOp.defines?_eq_some hdefines).2 plain fun c'' same => ?_
    exact walks _ _ fun k _ => define_acts_known (by rw [same]; exact known) written k

include hp earlier in
theorem follow_acts (hs : settings.strict = false) (hwf : g.WellFormed) (ha : g.ForwardAcyclic) :
    FollowsAct settings g p := by
  intro address
  have hb : g.block? p.block = some g.blocks[p.block] := List.getElem?_eq_getElem hp
  have body : Runs g p (g.weight p.block p.before) anything
      fun k => (slicer settings g).followStep g ((slicer settings g).walk g k)
        ((slicer settings g).follow g k) p address := by
    refine .require hb (.bind .client fun c => ?_)
    dsimp only
    cases hstore : lastBefore? g.blocks[p.block].ops
        (fun u => if Slicer.storesTo ((slicer settings g).bases c) address u then some () else none)
        (min p.before g.blocks[p.block].ops.length) with
    | none =>
      refine enterBlock_runs hb ?_
      exact followEdges_runs earlier hwf ha hb address fun e he => hwf.mem_incoming hb he
    | some found =>
      obtain ⟨i, op, _⟩ := found
      obtain ⟨hi, _⟩ := lastBefore?_eq_some hstore
      have hi : i < p.before := by omega
      have lighter : g.weight p.block i < g.weight p.block p.before := Graph.weight_lt_of_lt hi
      refine .bind (.tell _) fun _ => ?_
      have stored := sliceStored_runs hs (u := ⟨p.block, i, op⟩) (earlier ⟨p.block, i⟩ hp lighter).1.act
      exact stored.weaken lighter fun _ spared => spared.earlier hi
  intro c settled
  obtain ⟨r?, c', acts, rest⟩ := body c settled
  refine ⟨r?, c', ?_, rest⟩
  intro k hk
  obtain ⟨k, rfl⟩ : ∃ j, k = j + 1 := ⟨k - 1, by omega⟩
  exact acts k (by omega)

end Blocks

/-- Walks and searches for stores come to an end, what they come to depends on the state of the slicer
alone, and a walk that is repeated comes to the same value again. -/
theorem walks_renew_and_follows_act (hs : settings.strict = false) (hwf : g.WellFormed)
    (ha : g.ForwardAcyclic) (n : Nat) (p : Position) (hp : p.block < g.blocks.length)
    (hn : g.weight p.block p.before < n) : WalksRenew settings g p ∧ FollowsAct settings g p := by
  induction n generalizing p with
  | zero => omega
  | succ n ih =>
    have earlier : ∀ q : Position, q.block < g.blocks.length →
        g.weight q.block q.before < g.weight p.block p.before →
        WalksRenew settings g q ∧ FollowsAct settings g q :=
      fun q hq hlt => ih q hq (by omega)
    exact ⟨walk_renews hp earlier hs hwf ha, follow_acts hp earlier hs hwf ha⟩

theorem walks_and_follows_act (hs : settings.strict = false) (hwf : g.WellFormed)
    (ha : g.ForwardAcyclic) (n : Nat) (p : Position) (hp : p.block < g.blocks.length)
    (hn : g.weight p.block p.before < n) : WalksAct settings g p ∧ FollowsAct settings g p :=
  (walks_renew_and_follows_act hs hwf ha n p hp hn).imp_left WalksRenew.act

end Base

end AddressFormulas
