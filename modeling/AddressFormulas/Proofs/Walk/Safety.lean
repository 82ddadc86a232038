import AddressFormulas.Proofs.Data.Sorting
import AddressFormulas.Proofs.Routine.WellFormed
import AddressFormulas.Proofs.Walk.Congruence
import AddressFormulas.Proofs.Walk.Edges
import AddressFormulas.Proofs.Walk.Rules

namespace AddressFormulas

variable {σ τ α β : Type}

/-- Whatever the state, `m` ends early only for a reason in `E`, and otherwise leaves what `keep`
sees of the state. -/
def WalkM.StopsOnly (E : Stop → Prop) (keep : Walk σ → τ) (m : WalkM σ α) : Prop :=
  ∀ w, wp m (fun _ w' => keep w' = keep w) (fun stop _ => E stop) w

def Tolerates (E : Stop → Prop) (strict : Bool) : Prop :=
  strict = true → ∀ f : Failure, f.isCoverageGap = true → E (.failed f)

theorem tolerates_of_lax {E : Stop → Prop} {strict : Bool} (h : strict = false) :
    Tolerates E strict := by
  rintro rfl
  cases h

def Stop.IsExhausted (stop : Stop) : Prop := stop = .exhausted

namespace WalkM

abbrev Safe (m : WalkM σ α) (keep : Walk σ → τ) : Prop := m.StopsOnly Stop.IsExhausted keep

def Unheard (keep : Walk σ → τ) (e : Event) : Prop :=
  ∀ w, keep { w with journal := e :: w.journal } = keep w

namespace StopsOnly

variable {E E' : Stop → Prop} {keep : Walk σ → τ} {m : WalkM σ α}

theorem weaken (h : m.StopsOnly E keep) (he : ∀ stop, E stop → E' stop) : m.StopsOnly E' keep :=
  fun w => wp_mono (h w) (fun _ _ h => h) (fun stop _ => he stop)

theorem bind {f : α → WalkM σ β} (h : m.StopsOnly E keep) (hf : ∀ a, (f a).StopsOnly E keep) :
    (m >>= f).StopsOnly E keep := by
  intro w
  refine wp_bind.mpr (wp_imp (h w) fun a t ht => ?_)
  exact wp_imp (hf a t) fun _ _ h => h.trans ht

theorem ok (a : α) : (pure a : WalkM σ α).StopsOnly E keep := fun _ => rfl

theorem ite {c : Prop} [Decidable c] {m' : WalkM σ α} (ht : m.StopsOnly E keep)
    (hf : m'.StopsOnly E keep) : (if c then m else m').StopsOnly E keep :=
  fun w => wp_ite (fun _ => ht w) (fun _ => hf w)

theorem read : (get : WalkM σ (Walk σ)).StopsOnly E keep := fun _ => rfl

theorem change (f : Walk σ → Walk σ) (hf : ∀ w, keep (f w) = keep w) :
    (modify f : WalkM σ Unit).StopsOnly E keep := hf

theorem client : (WalkM.client : WalkM σ σ).StopsOnly E keep := fun _ => rfl

theorem modifyClient (f : σ → σ)
    (hf : ∀ w, keep { w with client := f w.client } = keep w) :
    (WalkM.modifyClient f : WalkM σ Unit).StopsOnly E keep := hf

theorem tell (e : Event) (he : Unheard keep e) :
    (WalkM.tell e : WalkM σ Unit).StopsOnly E keep := he

theorem tellAll (es : List Event) (he : ∀ e ∈ es, Unheard keep e) :
    (WalkM.tellAll es : WalkM σ Unit).StopsOnly E keep := by
  induction es with
  | nil => exact .ok _
  | cons e es ih =>
    exact .bind (.tell e (he e List.mem_cons_self)) fun _ =>
      ih fun e' h => he e' (List.mem_cons_of_mem e h)

theorem classify (u : MicroOp) (he : ∀ e ∈ u.effectEvents, Unheard keep e) :
    (WalkM.classify u : WalkM σ Effect).StopsOnly E keep :=
  .bind (.tellAll _ he) fun _ => .ok _

theorem require {a? : Option α} (h : a?.isSome) :
    (WalkM.require a? : WalkM σ α).StopsOnly E keep := by
  obtain ⟨a, rfl⟩ := Option.isSome_iff_exists.mp h
  exact .ok a

theorem require_or {a? : Option α} (h : a?.isSome ∨ E .missing) :
    (WalkM.require a? : WalkM σ α).StopsOnly E keep := by
  cases a? with
  | none => exact fun _ => h.resolve_left (by simp)
  | some a => exact .ok a

theorem require_bind {a? : Option α} {a : α} {f : α → WalkM σ β} (h : a? = some a)
    (hf : (f a).StopsOnly E keep) : (WalkM.require a? >>= f).StopsOnly E keep := by
  subst h
  exact hf

theorem report {strict : Bool} (hs : strict = false) {f : Failure} (hf : f.isCoverageGap = true)
    (he : Unheard keep (.failure f)) :
    (WalkM.report strict f : WalkM σ Unit).StopsOnly E keep := by
  subst hs
  exact fun w => (wp_report hf).mpr (he w)

theorem report_gap {strict : Bool} (hs : Tolerates E strict) {f : Failure}
    (hf : f.isCoverageGap = true) (he : Unheard keep (.failure f)) :
    (WalkM.report strict f : WalkM σ Unit).StopsOnly E keep := by
  cases strict with
  | true => exact fun _ => hs rfl f hf
  | false => exact .report rfl hf he

theorem claim (values : σ → Pending α) (setValues : Pending α → σ → σ) (reg : Register)
    (hv : ∀ p w, keep { w with client := setValues p w.client } = keep w)
    (he : ∀ r, Unheard keep (.partialClaim r reg)) :
    (WalkM.claim values setValues reg).StopsOnly E keep := by
  refine .bind .client fun st => ?_
  split
  · exact .ok _
  · next c _ =>
    refine .bind (.modifyClient _ (hv _)) fun _ => .bind (.tellAll _ ?_) fun _ => .ok _
    unfold Claim.events
    split
    · split
      · simp
      · simpa using he _
    · simp

end StopsOnly

end WalkM

namespace Slicer

open WalkM

def SafeWalks (g : Graph) (keep : Walk σ → τ) (walk : WalkFor σ) : Prop :=
  ∀ p reg bounds, (g.block? p.block).isSome → (walk p reg bounds).Safe keep

def SafeFollows (g : Graph) (keep : Walk σ → τ) (follow : FollowFor σ) : Prop :=
  ∀ p address, (g.block? p.block).isSome → (follow p address).Safe keep

structure IsSafe (s : Slicer σ) (g : Graph) (keep : Walk σ → τ) : Prop where
  lax : s.strict = false
  unheard : ∀ e, Unheard keep e
  unbounded : ∀ w bounds, keep { w with bounds } = keep w
  bound : ∀ bounds, (s.bound bounds).Safe keep
  start : ∀ p reg, (g.block? p.block).isSome → (s.start p reg).Safe keep
  enterOp : ∀ follow : FollowFor σ, SafeFollows g keep follow →
    ∀ u reg, (g.block? u.block).isSome → (s.enterOp follow u reg).Safe keep
  leaveOp : ∀ u reg, (g.block? u.block).isSome → (s.leaveOp u reg).Safe keep
  enterEdge : ∀ e reg edge, g.edge? e = some edge → (g.block? edge.source).isSome →
    (s.enterEdge e reg).Safe keep
  leaveEdge : ∀ e reg, (s.leaveEdge e reg).Safe keep
  enterBlock : ∀ b reg, (g.block? b).isSome → (s.enterBlock b reg).Safe keep
  leaveBlock : ∀ b reg, (g.block? b).isSome → (s.leaveBlock b reg).Safe keep
  tryOthers : ∀ e reg, (s.tryOthers e reg).Safe keep
  fixedValue : ∀ reg u v, (s.fixedValue reg u v).Safe keep

end Slicer

namespace Graph

variable {g : Graph}

theorem WellFormed.source_of_incoming (hg : g.WellFormed) {b e : Nat} {block : Block}
    (hb : g.block? b = some block) (he : e ∈ block.incoming) :
    ∃ edge, g.edge? e = some edge ∧ edge.sink = b ∧ (g.block? edge.source).isSome := by
  obtain ⟨edge, h, hs⟩ := hg.mem_incoming hb he
  refine ⟨edge, h, hs, ?_⟩
  simpa [block?] using hg.source_lt e edge h

end Graph

namespace Slicer

open WalkM

variable {s : Slicer σ} {g : Graph} {keep : Walk σ → τ}

namespace IsSafe

theorem sliceWith (hs : s.IsSafe g keep) {walk : WalkFor σ} (hw : SafeWalks g keep walk) (p : Position)
    (reg : Register) (bounds : Bounds) (hp : (g.block? p.block).isSome) :
    (s.sliceWith walk p reg bounds).Safe keep :=
  .bind (hs.start p reg hp) fun _ => hw p reg bounds hp

theorem congruence (hs : s.IsSafe g keep) {walk : WalkFor σ} (hw : SafeWalks g keep walk) {u : Placed}
    (hu : (g.block? u.block).isSome) : SourceCongruence s s walk walk u fun _ m _ => m.Safe keep where
  ok := .ok
  answer a hm := .bind hm fun _ => .ok a
  reported hf hm :=
    .bind (.report hs.lax (Failure.isCoverageGap_of_isAboutSources hf) (hs.unheard _)) fun _ => hm
  slice reg := hs.sliceWith hw _ reg _ hu
  fixedValue reg v _ := hs.fixedValue reg u.op v

theorem sliceSources (hs : s.IsSafe g keep) {walk : WalkFor σ} (hw : SafeWalks g keep walk) (u : Placed)
    (sources : List Register) (hu : (g.block? u.block).isSome) :
    (s.sliceSources walk u sources).Safe keep := by
  induction sources with
  | nil => exact .ok _
  | cons source rest ih => exact .bind ((hs.congruence hw hu).sliceSource source) fun _ => ih

theorem alongEdges (hs : s.IsSafe g keep) {reg : Register} {across : Nat → WalkM σ α}
    {enough : α → Bool} {last : WalkM σ α} (hlast : last.Safe keep) {edges : List Nat}
    (he : ∀ e ∈ edges, ∃ edge, g.edge? e = some edge ∧ (g.block? edge.source).isSome)
    (hacross : ∀ e edge, g.edge? e = some edge → (g.block? edge.source).isSome →
      (across e).Safe keep) :
    (s.alongEdges reg across enough last edges).Safe keep := by
  induction edges with
  | nil => exact hlast
  | cons e rest ih =>
    obtain ⟨edge, h, hsource⟩ := he e List.mem_cons_self
    have others := ih fun e' h' => he e' (List.mem_cons_of_mem e h')
    refine .bind (hs.enterEdge e reg edge h hsource) fun enter => ?_
    split
    · refine .bind (hacross e edge h hsource) fun a => .bind (hs.leaveEdge e reg) fun _ => ?_
      split
      · exact .ok _
      · refine .bind (hs.tryOthers e reg) fun again => ?_
        split
        · exact others
        · exact .ok _
    · exact others

theorem walkEdges (hs : s.IsSafe g keep) {walk : WalkFor σ} (hw : SafeWalks g keep walk) (b : Nat)
    (reg : Register) (edges : List Nat) (hb : (g.block? b).isSome)
    (he : ∀ e ∈ edges, ∃ edge, g.edge? e = some edge ∧ (g.block? edge.source).isSome) :
    (s.walkEdges g walk b reg edges).Safe keep := by
  rw [walkEdges_eq]
  refine hs.alongEdges (hs.leaveBlock b reg hb) he fun e edge h hsource => ?_
  exact .require_bind h (.bind (.require hsource) fun source => .bind .read fun w =>
    hw _ reg w.bounds hsource)

theorem walkNext (hs : s.IsSafe g keep) (hg : g.WellFormed) {walk : WalkFor σ} (hw : SafeWalks g keep walk)
    (b : Nat) (reg : Register) (hb : (g.block? b).isSome) : (s.walkNext g walk b reg).Safe keep := by
  refine .bind (hs.enterBlock b reg hb) fun enter => ?_
  split
  · obtain ⟨block, h⟩ := Option.isSome_iff_exists.mp hb
    refine .require_bind h (hs.walkEdges hw b reg _ hb fun e he => ?_)
    obtain ⟨edge, h', _, hsource⟩ := hg.source_of_incoming h ((mem_sortBy _ e _).mp he)
    exact ⟨edge, h', hsource⟩
  · exact .ok _

theorem walkStep (hs : s.IsSafe g keep) (hg : g.WellFormed) {walk : WalkFor σ} {follow : FollowFor σ}
    (hw : SafeWalks g keep walk) (hf : SafeFollows g keep follow) :
    SafeWalks g keep (s.walkStep g walk follow) := by
  intro p reg bounds hp
  refine .bind (.bind (.change _ fun _ => hs.unbounded _ _) fun _ => hs.bound bounds) fun _ => ?_
  refine .bind (.require hp) fun block => ?_
  split
  · exact hs.walkNext hg hw p.block reg hp
  · refine .bind (.tell _ (hs.unheard _)) fun _ => .bind (hs.enterOp follow hf _ _ hp) fun enter => ?_
    have leave := hs.leaveOp
    split
    · exact .bind (hs.sliceSources hw _ _ hp) fun _ => leave _ _ hp
    · exact leave _ _ hp

theorem followEdges (hs : s.IsSafe g keep) {follow : FollowFor σ} (hf : SafeFollows g keep follow) (b : Nat)
    (address : Formula) (edges : List Nat) (hb : (g.block? b).isSome)
    (he : ∀ e ∈ edges, ∃ edge, g.edge? e = some edge ∧ (g.block? edge.source).isSome) :
    (s.followEdges g follow b address edges).Safe keep := by
  rw [followEdges_eq]
  refine hs.alongEdges (.bind (hs.leaveBlock b _ hb) fun _ => .ok _) he fun e edge h hsource => ?_
  exact .require_bind h (.bind (.require hsource) fun source => hf _ address hsource)

theorem followStep (hs : s.IsSafe g keep) (hg : g.WellFormed) {walk : WalkFor σ} {follow : FollowFor σ}
    (hw : SafeWalks g keep walk) (hf : SafeFollows g keep follow) :
    SafeFollows g keep (s.followStep g walk follow) := by
  intro p address hp
  obtain ⟨block, h⟩ := Option.isSome_iff_exists.mp hp
  refine .require_bind h (.bind .client fun st => ?_)
  dsimp only
  split
  · exact .bind (.tell _ (hs.unheard _)) fun _ => (hs.congruence hw hp).sliceStored
  · refine .bind (hs.enterBlock _ _ hp) fun enter => ?_
    split
    · refine hs.followEdges hf _ address _ hp fun e he => ?_
      obtain ⟨edge, h', _, hsource⟩ := hg.source_of_incoming h he
      exact ⟨edge, h', hsource⟩
    · exact .ok _

theorem walk_and_follow (hs : s.IsSafe g keep) (hg : g.WellFormed) (n : Nat) :
    SafeWalks g keep (s.walk g n) ∧ SafeFollows g keep (s.follow g n) := by
  induction n with
  | zero => exact ⟨fun _ _ _ _ _ => rfl, fun _ _ _ _ => rfl⟩
  | succ n ih => exact ⟨hs.walkStep hg ih.1 ih.2, hs.followStep hg ih.1 ih.2⟩

end IsSafe

end Slicer

end AddressFormulas
