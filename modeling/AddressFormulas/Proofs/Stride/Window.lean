import AddressFormulas.Proofs.Stride.Skeleton

namespace AddressFormulas.Stride.Skeleton

variable {g : Graph} {p : CyclicPath} {marker low top : Nat} {sk : Skeleton} {reg : Register}
  {b before : Nat}

/-- Micro-ops in progress were entered behind fewer back edges, or they are not before the place
`before` of block `b`. -/
def Behind (g : Graph) (p : CyclicPath) (sk : Skeleton) (b before : Nat) : Prop :=
  ∀ s, sk.InProgress s → sk.loopCount s ≤ sk.backEdges + 1 ∧ (sk.loopCount s = sk.backEdges + 1 →
    ∃ c i u, g.op? c i = some u ∧ u.site = s ∧ c ∈ p.blocks ∧
      (p.rank b < p.rank c ∨ b = c ∧ before ≤ i))

structure BeganAt (g : Graph) (p : CyclicPath) (sk : Skeleton) (b i : Nat) (first : MicroOp) :
    Prop where
  mem : b ∈ p.blocks
  rank : p.rank b = sk.startRank
  op : g.op? b i = some first
  bound : sk.boundStart = first.pc

inductive Walking (g : Graph) (p : CyclicPath) (low : Nat) (sk : Skeleton) (reg : Register)
    (b before : Nat) : Prop
  | start {first : MicroOp} : BeganAt g p sk b before first →
      sk.backEdges = sk.startBackEdges → Walking g p low sk reg b before
  | near {s i : Nat} {first : MicroOp} : BeganAt g p sk s i first →
      sk.backEdges = sk.startBackEdges → g.Undefined reg s i → (∀ j u, g.op? b j = some u → j < before) →
      (sk.startRank ≤ low → p.rank b < sk.startRank ∧ ∀ c ∈ p.blocks, p.rank b < p.rank c →
        p.rank c < sk.startRank → ∀ k, g.Undefined reg c k) → Walking g p low sk reg b before
  | far {s i : Nat} {first : MicroOp} : BeganAt g p sk s i first →
      sk.backEdges = sk.startBackEdges + 1 → g.Undefined reg s i →
      (sk.startRank ≤ low → ∀ c ∈ p.blocks, p.rank c < sk.startRank → ∀ k, g.Undefined reg c k) →
      (sk.startRank ≤ p.rank b ∨ ∀ k, g.Undefined reg b k) → Walking g p low sk reg b before

theorem Walking.inside (hp : p.IsCircuit g marker low top) (ho : ∀ b ∈ p.blocks, g.OrderedIn b)
    (h : Walking g p low sk reg b before) (hb : b ∈ p.blocks) {i : Nat} {u : MicroOp}
    (hu : g.op? b i = some u) (hd : u.defines? reg ≠ none) :
    ¬sk.outside (p.rank b) (u.pc < sk.boundStart) := by
  unfold outside
  cases h with
  | start _ he => omega
  | near _ he => omega
  | @far s j first began he hstart _ habove =>
    obtain habove | hclear := habove
    · intro hout
      have hlow : p.rank b = sk.startRank ∧ u.pc < sk.boundStart := by omega
      obtain rfl : b = s := hp.rank_inj b hb s began.mem (by rw [hlow.1, began.rank])
      have : j ≤ i := by
        by_contra hlt
        exact hd (hstart i u (by omega) hu)
      have := (ho b hb).pc_le began.op hu this
      rw [began.bound] at hlow
      omega
    · exact absurd (hclear (i + 1) i u (by omega) hu) hd

def cross (sk : Skeleton) (count : Nat) : Skeleton := { sk with backEdges := sk.backEdges + count }

def uncross (sk : Skeleton) (count : Nat) : Skeleton :=
  { sk with backEdges := sk.backEdges - count }

theorem Frame.uncross {count : Nat} {sk' : Skeleton} (h : Frame (sk.cross count) sk') :
    Frame sk (sk'.uncross count) := by
  refine ⟨h.path, h.clean, ?_, h.loopCount, h.visit⟩
  have : sk'.backEdges = sk.backEdges + count := h.backEdges
  change sk'.backEdges - count = sk.backEdges
  omega

theorem Inv.uncross (h : sk.Inv p) (count : Nat) :
    (sk.uncross count).Inv p :=
  ⟨h.path, h.visit_le, h.visit_inj, h.cycles_open, h.cycles_sorted⟩

theorem Inv.cross (h : sk.Inv p) (count : Nat) :
    (sk.cross count).Inv p :=
  ⟨h.path, h.visit_le, h.visit_inj, h.cycles_open, h.cycles_sorted⟩

/-- Where one step backward along the path leads from block `b`: around the loop by its back edge, and
otherwise down to the next rank, or from the loop to what comes before it. -/
def StepsTo (p : CyclicPath) (low top : Nat) (back : Bool) (b source : Nat) : Prop :=
  if back then p.rank b = 1 ∧ (low < top → p.rank source = top)
  else (p.rank b ≠ low + 1 → p.rank source + 1 = p.rank b) ∧
    (p.rank b = low + 1 → p.rank source ≤ low)

theorem StepsTo.lower {source : Nat} (h : StepsTo p low top false b source) :
    p.rank source < p.rank b := by
  obtain ⟨down, jump⟩ : (p.rank b ≠ low + 1 → p.rank source + 1 = p.rank b) ∧
    (p.rank b = low + 1 → p.rank source ≤ low) := h
  by_cases hat : p.rank b = low + 1
  · have := jump hat
    omega
  · have := down hat
    omega

namespace BeganAt

variable {s i : Nat} {first : MicroOp} (began : BeganAt g p sk s i first)

include began

theorem cross (count : Nat) : BeganAt g p (sk.cross count) s i first :=
  ⟨began.mem, began.rank, began.op, began.bound⟩

theorem startRank_pos (hp : p.IsCircuit g marker low top) : 0 < sk.startRank := by
  rw [← began.rank]
  exact hp.rank_pos s began.mem

theorem startRank_le (hp : p.IsCircuit g marker low top) : sk.startRank ≤ top := by
  rw [← began.rank]
  exact hp.rank_le s began.mem

theorem lt_rank (hp : p.IsCircuit g marker low top) (hg : g.WellFormed)
    (ho : ∀ b ∈ p.blocks, g.OrderedIn b) (hb : b ∈ p.blocks) {block : Block}
    (hblock : g.block? b = some block) (he : sk.backEdges = sk.startBackEdges + 1)
    (hin : ¬sk.outside (p.rank b) (block.start ≤ sk.boundStart)) : sk.startRank < p.rank b := by
  by_contra hle
  refine hin (.inl ⟨by omega, ?_⟩)
  by_cases heq : p.rank b = sk.startRank
  · obtain rfl := hp.rank_inj b hb s began.mem (heq.trans began.rank.symm)
    have := Graph.start_le hg (ho b hb) hblock began.op
    exact .inr ⟨heq, by rw [began.bound]; exact this⟩
  · exact .inl (by omega)

end BeganAt

theorem Walking.passed (hp : p.IsCircuit g marker low top) (h : Walking g p low sk reg b before)
    (hb : b ∈ p.blocks) (hclear : g.Undefined reg b before)
    (near : sk.backEdges = sk.startBackEdges) :
    ∃ s i first, BeganAt g p sk s i first ∧ g.Undefined reg s i ∧
      (sk.startRank ≤ low → p.rank b ≤ sk.startRank ∧ ∀ c ∈ p.blocks, p.rank b ≤ p.rank c →
        p.rank c < sk.startRank → ∀ k, g.Undefined reg c k) := by
  cases h with
  | @start first began _ =>
    refine ⟨b, before, first, began, hclear, fun _ => ⟨Nat.le_of_eq began.rank, ?_⟩⟩
    intro c _ hle hlt
    have := began.rank
    omega
  | @near s i first began _ hstart hbelow hpassed =>
    refine ⟨s, i, first, began, hstart, fun hlow => ?_⟩
    obtain ⟨hrank, hpassed⟩ := hpassed hlow
    refine ⟨Nat.le_of_lt hrank, fun c hc hle hlt k => ?_⟩
    by_cases heq : p.rank b = p.rank c
    · obtain rfl := hp.rank_inj b hb c hc heq
      exact fun j u _ hu => hclear j u (hbelow j u hu) hu
    · exact hpassed c hc (by omega) hlt k
  | far _ he' => omega

section Step

variable (hp : p.IsCircuit g marker low top) (hg : g.WellFormed) (ho : ∀ b ∈ p.blocks, g.OrderedIn b)
  (h : Walking g p low sk reg b before) (hb : b ∈ p.blocks) {block : Block}
  (hblock : g.block? b = some block) (hclear : g.Undefined reg b before)
  (hin : ¬sk.outside (p.rank b) (block.start ≤ sk.boundStart)) {source before' : Nat}
  (hsource : source ∈ p.blocks)

include hp hg ho h hb hblock hclear hin hsource

theorem Walking.around (hstep : StepsTo p low top true b source) :
    Walking g p low (sk.cross 1) reg source before' := by
  obtain ⟨first_rank, to_top⟩ : p.rank b = 1 ∧ (low < top → p.rank source = top) := hstep
  have near : sk.backEdges = sk.startBackEdges := by
    cases h with
    | start _ he => exact he
    | near _ he => exact he
    | far began he =>
      have above := began.lt_rank hp hg ho hb hblock he hin
      have := began.startRank_pos hp
      omega
  obtain ⟨s, i, first, began, hstart, hpassed⟩ := h.passed hp hb hclear near
  have le_top := began.startRank_le hp
  have below : sk.startRank ≤ low → ∀ c ∈ p.blocks, p.rank c < sk.startRank →
      ∀ k, g.Undefined reg c k := by
    intro hlow c hc hlt
    have := hp.rank_pos c hc
    exact (hpassed hlow).2 c hc (by omega) hlt
  refine .far (began.cross 1) (congrArg (· + 1) near) hstart below ?_
  change sk.startRank ≤ _ ∨ _
  by_cases hlt : low < top
  · exact .inl (by rw [to_top hlt]; exact le_top)
  · by_cases habove : sk.startRank ≤ p.rank source
    · exact .inl habove
    · exact .inr (below (by omega) source hsource (by omega))

theorem Walking.onward (hfull : ∀ j u, g.op? source j = some u → j < before')
    (hstep : StepsTo p low top false b source) :
    Walking g p low (sk.cross 0) reg source before' := by
  obtain ⟨down, _⟩ : (p.rank b ≠ low + 1 → p.rank source + 1 = p.rank b) ∧
    (p.rank b = low + 1 → p.rank source ≤ low) := hstep
  by_cases near : sk.backEdges = sk.startBackEdges
  · obtain ⟨s, i, first, began, hstart, hpassed⟩ := h.passed hp hb hclear near
    refine .near (began.cross 0) near hstart hfull fun hlow => ?_
    change sk.startRank ≤ low at hlow
    obtain ⟨hle, hpassed⟩ := hpassed hlow
    have := down (by omega)
    refine ⟨?_, fun c hc hlt hlt' => hpassed c hc (by omega) hlt'⟩
    change _ < sk.startRank
    omega
  · cases h with
    | start _ he => exact absurd he near
    | near _ he => exact absurd he near
    | far began he hstart hbelow _ =>
      refine .far (began.cross 0) he hstart hbelow ?_
      have above := began.lt_rank hp hg ho hb hblock he hin
      change sk.startRank ≤ _ ∨ _
      by_cases hat : p.rank b = low + 1
      · by_cases habove : sk.startRank ≤ p.rank source
        · exact .inl habove
        · exact .inr (hbelow (by omega) source hsource (by omega))
      · have := down hat
        exact .inl (by omega)

theorem Walking.step (hfull : ∀ j u, g.op? source j = some u → j < before') {back : Bool}
    (hstep : StepsTo p low top back b source) :
    Walking g p low (sk.cross (if back then 1 else 0)) reg source before' := by
  cases back with
  | true => exact h.around hp hg ho hb hblock hclear hin hsource hstep
  | false => exact h.onward hp hg ho hb hblock hclear hin hsource hfull hstep

end Step

theorem Behind.step (h : sk.Behind g p b before) {back : Bool} {source before' : Nat}
    (hstep : StepsTo p low top back b source) :
    (sk.cross (if back then 1 else 0)).Behind g p source before' := by
  intro s hs
  obtain ⟨hle, hpos⟩ := h s hs
  change sk.loopCount s ≤ sk.backEdges + _ + 1 ∧ (sk.loopCount s = sk.backEdges + _ + 1 → _)
  cases back with
  | true =>
    simp only [if_true]
    exact ⟨by omega, by omega⟩
  | false =>
    refine ⟨hle, fun he => ?_⟩
    obtain ⟨c, i, u, hu, hsite, hc, hplace⟩ := hpos he
    have lower := hstep.lower
    refine ⟨c, i, u, hu, hsite, hc, .inl ?_⟩
    obtain hlt | ⟨rfl, _⟩ := hplace
    · omega
    · exact lower

theorem Behind.enter {u : Placed} (h : sk.Behind g p u.block before) (hi : u.index < before)
    (hu : g.op? u.block u.index = some u.op) (hb : u.block ∈ p.blocks) :
    (sk.enter u.op.site).Behind g p u.block u.index := by
  intro s hs
  change Function.update sk.loopCount u.op.site (sk.backEdges + 1) s ≤ sk.backEdges + 1 ∧
    (Function.update sk.loopCount u.op.site (sk.backEdges + 1) s = sk.backEdges + 1 → _)
  by_cases hsite : s = u.op.site
  · subst hsite
    simp only [Function.update_self]
    exact ⟨Nat.le_refl _, fun _ => ⟨u.block, u.index, u.op, hu, rfl, hb, .inr ⟨rfl, Nat.le_refl _⟩⟩⟩
  · rw [Function.update_of_ne hsite]
    obtain ⟨hle, hpos⟩ := h s ((inProgress_enter.mp hs).resolve_left hsite)
    refine ⟨hle, fun he => ?_⟩
    obtain ⟨c, j, v, hv, hs', hc, hplace⟩ := hpos he
    exact ⟨c, j, v, hv, hs', hc, hplace.imp id fun h => ⟨h.1, by omega⟩⟩

/-- How far a walk can still go: the back edges it may cross, then the rank of its block. -/
def distance (size : Nat) (sk : Skeleton) (rank : Nat) : Nat :=
  (sk.startBackEdges + 2 - sk.backEdges) * (size + 1) + rank

theorem distance_cross {size rank rank' : Nat} (hr : rank' ≤ size)
    (hin : sk.backEdges ≤ sk.startBackEdges + 1) :
    (sk.cross 1).distance size rank' < sk.distance size rank := by
  unfold distance cross
  dsimp only
  obtain ⟨k, hk⟩ : ∃ k, sk.startBackEdges + 2 - sk.backEdges = k + 1 :=
    ⟨sk.startBackEdges + 1 - sk.backEdges, by omega⟩
  rw [hk, show sk.startBackEdges + 2 - (sk.backEdges + 1) = k by omega, Nat.add_mul]
  omega

theorem distance_step {size source : Nat} (hp : p.IsCircuit g marker low top)
    (hsize : top ≤ size) (hsource : source ∈ p.blocks)
    (hin : sk.backEdges ≤ sk.startBackEdges + 1) {back : Bool}
    (hstep : StepsTo p low top back b source) :
    (sk.cross (if back then 1 else 0)).distance size (p.rank source) <
      sk.distance size (p.rank b) := by
  have le := hp.rank_le source hsource
  cases back with
  | true => exact distance_cross (by omega) hin
  | false => exact Nat.add_lt_add_left hstep.lower _

theorem distance_le {size rank : Nat} (hr : rank ≤ size)
    (hin : sk.startBackEdges ≤ sk.backEdges) : sk.distance size rank ≤ 3 * (size + 1) := by
  unfold distance
  have : (sk.startBackEdges + 2 - sk.backEdges) * (size + 1) ≤ 2 * (size + 1) :=
    Nat.mul_le_mul_right _ (by omega)
  omega

def idle (g : Graph) (sk : Skeleton) : Nat :=
  (g.blocks.flatMap Block.ops).countP fun u => sk.loopCount u.site = 0

theorem idle_enter {i : Nat} {u : MicroOp} (hu : g.op? b i = some u)
    (hs : ¬sk.InProgress u.site) : idle g (sk.enter u.site) < idle g sk := by
  have zero : sk.loopCount u.site = 0 := by unfold InProgress at hs; omega
  obtain ⟨block, hb, hu⟩ := Graph.op?_eq_some.mp hu
  have mem : u ∈ g.blocks.flatMap Block.ops :=
    List.mem_flatMap.mpr ⟨block, List.mem_of_getElem? hb, List.mem_of_getElem? hu⟩
  unfold idle
  generalize g.blocks.flatMap Block.ops = ops at mem
  obtain ⟨front, back, rfl⟩ := List.append_of_mem mem
  have mono : ∀ us : List MicroOp, us.countP (fun v => (sk.enter u.site).loopCount v.site = 0) ≤
      us.countP (fun v => sk.loopCount v.site = 0) := by
    intro us
    refine List.countP_mono_left fun v _ hv => ?_
    by_cases hsite : v.site = u.site
    · simp [enter, hsite] at hv
    · simpa [enter, hsite] using hv
  have := mono front
  have := mono back
  rw [List.countP_append, List.countP_append, List.countP_cons, List.countP_cons]
  simp only [enter, Function.update_self, zero, decide_true, if_true] at *
  simp only [Nat.add_one_ne_zero, decide_false, Bool.false_eq_true, if_false]
  omega

end AddressFormulas.Stride.Skeleton
