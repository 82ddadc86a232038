import AddressFormulas.Proofs.Stride.Bookkeeping

namespace AddressFormulas.Stride

open Formula Loop

section Statement

variable (ops : List MicroOp) (dest : Nat → Register) (st : Nat → Nat → Registers)
  (ρ : TermKey → BitVec 64)

def OpensOnly (l l' : Ledger) (T : Nat → Prop) : Prop :=
  ∀ s t, Pends ops l s t → ¬Opens ops l s t → Opens ops l' s t → T t

def Sliced (closed : Finset Nat) (l : Ledger) (i : Nat) (r : Register) (l' : Ledger) : Prop :=
  ∃ closed' source, closed ⊆ closed' ∧ Faithful ops dest st ρ closed' l' ∧
    l'.values = (.register r, source) :: l.values ∧ ComesFrom ops i r source ∧
    OpensOnly ops l l' (· = source.target)

structure Ordered (l : Ledger) : Prop where
  unique : ∀ s s' t, Pends ops l s t → Pends ops l s' t → s = s'
  bounded : ∀ s t, Pends ops l s t → t ≤ l.visits
  open' : ∀ c ∈ l.cycles, 0 < (l.notes c.site).loopCount

end Statement

variable {ops : List MicroOp} {dest : Nat → Register} {st : Nat → Nat → Registers}
  {ρ : TermKey → BitVec 64} {closed closed' : Finset Nat} {l l' l₁ l₂ : Ledger} {i j d : Nat}
  {u : MicroOp} {reg : Register} {pr : Progress} {T T' : Nat → Prop}

theorem OpensOnly.refl (l : Ledger) (T : Nat → Prop) : OpensOnly ops l l T :=
  fun _ _ _ closed opens => absurd opens closed

theorem OpensOnly.trans (h : OpensOnly ops l l₁ T) (h' : OpensOnly ops l₁ l₂ T')
    (hpends : ∀ s t, Pends ops l s t → Pends ops l₁ s t) :
    OpensOnly ops l l₂ (fun t => T t ∨ T' t) := by
  intro s t pends unopened opens
  by_cases hs : Opens ops l₁ s t
  · exact .inl (h s t pends unopened hs)
  · exact .inr (h' s t (hpends s t pends) hs opens)

theorem OpensOnly.mono (h : OpensOnly ops l l' T) (hT : ∀ t, T t → T' t) : OpensOnly ops l l' T' :=
  fun s t pends unopened opens => hT t (h s t pends unopened opens)

theorem Faithful.visit_pos (h : Faithful ops dest st ρ closed l) {s t : Nat}
    (hs : Pends ops l s t) : 0 < t := by
  obtain ⟨v, hv, progress, rfl⟩ := hs
  cases h.status s v hv with
  | entered _ visit => exact visit
  | seeded _ visit => exact visit
  | blank idle => omega
  | added idle => omega
  | settled idle => omega

theorem Opens.of_change {s t : Nat} (hc : Changes l l' u.site) (h : Opens ops l' s t)
    (hleft : (l'.notes u.site).loopCount = 0) : Opens ops l s t := by
  obtain ⟨v, hv, progress, visit, formula⟩ := h
  have other : v.site ≠ u.site := by
    intro he
    rw [he, hleft] at progress
    omega
  rw [hc.notes _ other] at progress visit formula
  exact ⟨v, hv, progress, visit, formula⟩

theorem Faithful.sliced_outside (h : Faithful ops dest st ρ closed l)
    (horigin : origin? ops i reg = none) :
    Sliced ops dest st ρ closed l i reg (l.put reg .outside) := by
  refine ⟨closed, .outside, Finset.Subset.refl _, h.pending fun e he => ?_, rfl, horigin,
    fun _ _ _ unopened opens => absurd opens unopened⟩
  obtain rfl | he := List.mem_cons.mp he
  · trivial
  · exact h.backed e he

section Definition

variable (distinct : ∀ (i j : Nat) (u v : MicroOp), ops[i]? = some u → ops[j]? = some v →
  u.site = v.site → i = j) (hu : ops[j]? = some u) (horigin : origin? ops i reg = some (j, d))
  (h : Faithful ops dest st ρ closed l)

include distinct hu horigin h

theorem Faithful.sliced_seed (hprogress : 0 < (l.notes u.site).loopCount) :
    Sliced ops dest st ρ closed l i reg (l.seed u.site reg) := by
  refine ⟨closed, .definition u.site (l.notes u.site).visit, Finset.Subset.refl _,
    h.seed distinct hu hprogress, rfl, ⟨j, d, u, horigin, hu, rfl⟩, ?_⟩
  rintro s t ⟨v, hv, progress, rfl⟩ unopened ⟨v', hv', _, _, formula⟩
  obtain rfl := Option.some.inj (hv.symm.trans hv')
  by_cases he : v.site = u.site
  · rw [he]
    rfl
  · rw [(changes_seed l u.site reg).notes _ he] at formula
    exact absurd ⟨v, hv, progress, rfl, formula⟩ unopened

theorem Faithful.sliced_pass (hidle : (l.notes u.site).loopCount = 0) (hpr : pr.loopCount = 0)
    (hsub : closed ⊆ closed') (hnew : ∀ i ∈ closed', i ∈ closed ∨ i = j)
    (hstatus : Status ops dest st ρ closed' (l.pass u.site reg pr) j u)
    (hback : Backed ops closed' (l.pass u.site reg pr) (.definition u.site pr.target))
    (hsame : ¬l.reusable u.site ∨ pr.formula = (l.notes u.site).formula ∧
      pr.kind = (l.notes u.site).kind ∧ pr.target = (l.notes u.site).target) :
    Sliced ops dest st ρ closed l i reg (l.pass u.site reg pr) := by
  refine ⟨closed', .definition u.site pr.target, hsub,
    h.pass distinct hu hidle hpr hsub hnew hstatus hback hsame, rfl, ⟨j, d, u, horigin, hu, rfl⟩, ?_⟩
  intro s t _ unopened opens
  refine absurd (opens.of_change (changes_pass l hpr) ?_) unopened
  simpa [Ledger.pass, Ledger.note, Ledger.put] using hpr

theorem Faithful.sliced_again (hidle : (l.notes u.site).loopCount = 0)
    (hreusable : l.reusable u.site) (hpr : pr.loopCount = 0)
    (hsame : pr.formula = (l.notes u.site).formula ∧ pr.kind = (l.notes u.site).kind ∧
      pr.target = (l.notes u.site).target ∧ pr.slice = (l.notes u.site).slice) :
    Sliced ops dest st ρ closed l i reg (l.pass u.site reg pr) := by
  obtain ⟨formula, kind, target, slice⟩ := hsame
  have changes : Changes l (l.pass u.site reg pr) u.site := changes_pass l hpr
  have note : (l.pass u.site reg pr).notes u.site = pr := by
    simp [Ledger.pass, Ledger.note, Ledger.put]
  -- the pass only counts visits, and a status bounds its targets by that count
  have status : Status ops dest st ρ closed (l.pass u.site reg pr) j u := by
    cases h.status j u hu with
    | blank _ none => exact absurd none hreusable.1
    | entered progress => omega
    | seeded progress => omega
    | added _ some overflow kind' load target' slice' fresh adds =>
      rw [← formula] at some
      rw [← kind] at kind'
      rw [← target] at target' adds
      rw [← slice] at slice'
      refine .added ?_ ?_ overflow ?_ load ?_ ?_ fresh ?_ <;> rw [note]
      · exact hpr
      · exact some
      · exact kind'
      · exact Nat.le_trans target' (Nat.le_succ _)
      · exact slice'
      · intro s pends
        obtain pends | later := pends.of_change changes
        · exact adds s pends
        · omega
    | settled _ some overflow kind' target' mem describes =>
      rw [← formula] at some
      rw [← kind] at kind' describes
      rw [← target] at target'
      refine .settled ?_ ?_ overflow ?_ ?_ mem ?_ <;> rw [note]
      · exact hpr
      · exact some
      · exact kind'
      · exact target'
      · exact describes
  have backed : Backed ops closed (l.pass u.site reg pr) (.definition u.site pr.target) := by
    rw [target]
    refine (h.backed_of_reusable hu hidle hreusable).change changes (Finset.Subset.refl _)
      (fun t ht nonzero some => ?_) fun progress => by omega
    rw [note, formula, kind, target]
    obtain ⟨_, _, _, _, ⟨zero, _⟩ | ⟨_, some, kind, _⟩⟩ := h.backed_of_reusable hu hidle hreusable
    · cases ht
      exact absurd zero nonzero
    · exact ⟨some, kind, rfl⟩
  exact h.sliced_pass distinct hu horigin hidle hpr (Finset.Subset.refl _) (fun i hi => .inl hi) status
    backed (.inr ⟨formula, kind, target⟩)

theorem Faithful.sliced_settled (hidle : (l.notes u.site).loopCount = 0)
    (hfresh : ¬l.reusable u.site) (hpr : pr.loopCount = 0) {f : Formula}
    (hformula : pr.formula = some f) (hoverflow : f.overflow = false) (hkind : pr.kind = .invariant)
    (htarget : pr.target = 0)
    (hdescribes : ∀ n y e, Describes ρ n y e .invariant f (result dest st j)) :
    Sliced ops dest st ρ closed l i reg (l.pass u.site reg pr) := by
  obtain ⟨unsettled, _⟩ := h.fresh distinct hu hidle hfresh
  have note : (l.pass u.site reg pr).notes u.site = pr := by
    simp [Ledger.pass, Ledger.note, Ledger.put]
  have mem : j ∈ insert j closed := Finset.mem_insert_self j closed
  refine h.sliced_pass distinct hu horigin hidle hpr (Finset.subset_insert j closed)
    (fun i hi => (Finset.mem_insert.mp hi).symm) ?_ ⟨j, u, hu, rfl, .inl ⟨htarget, mem⟩⟩ (.inl hfresh)
  refine .settled ?_ ?_ hoverflow ?_ ?_ mem ?_ <;> rw [note]
  · exact hpr
  · exact hformula
  · simp [hkind]
  · exact htarget
  · rw [hkind]
    exact hdescribes _ _ _

end Definition

theorem Describes.settled {n e : Nat} {y x : Nat → BitVec 64} {kind : StrideKind} {v : StrideValue}
    (h : Describes ρ n y e kind v.formula x) (u : MicroOp) (reg : Register) :
    Describes ρ n y e kind (settledFormula u reg v) x := by
  unfold settledFormula
  split
  · refine ⟨⟨(plain_register u.site reg).ascending, (plain_register u.site reg).integral⟩,
      fun clean => ?_⟩
    have := clean.unmarked
    simp [markIrregular] at this
  · exact h

theorem overflow_settledFormula (u : MicroOp) (reg : Register) (v : StrideValue) :
    (settledFormula u reg v).overflow = false := by
  unfold settledFormula
  split
  · exact overflow_ofTerm _ _ _
  · next h => simpa using h

theorem Pends.enter {s t count : Nat} (h : Pends ops l s t)
    (hidle : (l.notes u.site).loopCount = 0) : Pends ops (l.enter u.site count) s t := by
  obtain ⟨v, hv, progress, visit⟩ := h
  have other : v.site ≠ u.site := by
    intro he
    rw [he, hidle] at progress
    omega
  refine ⟨v, hv, ?_, ?_⟩ <;> rw [(changes_enter l u.site count).notes _ other]
  · exact progress
  · exact visit

theorem Opens.of_enter {s t count : Nat} (h : Opens ops (l.enter u.site count) s t) :
    Opens ops l s t := by
  obtain ⟨v, hv, progress, visit, formula⟩ := h
  have other : v.site ≠ u.site := by
    intro he
    rw [he] at formula
    simp [Ledger.enter, Ledger.note] at formula
  rw [(changes_enter l u.site count).notes _ other] at progress visit formula
  exact ⟨v, hv, progress, visit, formula⟩

section Settle

structure Prepared (ops : List MicroOp) (dest : Nat → Register) (st : Nat → Nat → Registers)
    (ρ : TermKey → BitVec 64) (closed closed' : Finset Nat) (l l₁ : Ledger) (j : Nat) (u : MicroOp)
    (top : List (Register × ValueSource)) : Prop where
  op : ops[j]? = some u
  before : Faithful ops dest st ρ closed l
  ordered : Ordered ops l
  idle : (l.notes u.site).loopCount = 0
  fresh : ¬l.reusable u.site
  subset : closed ⊆ closed'
  faithful : Faithful ops dest st ρ closed' l₁
  ordered' : Ordered ops l₁
  values : l₁.values = puts top ++ l.values
  progress : 0 < (l₁.notes u.site).loopCount
  visit : (l₁.notes u.site).visit = l.visits + 1
  frame : ∀ s t, Pends ops l s t → Pends ops l₁ s t
  opens : ∃ count, 0 < count ∧
    OpensOnly ops (l.enter u.site count) l₁ fun t => ∃ e ∈ top, e.2.target = t

variable {top : List (Register × ValueSource)} {v : StrideValue} {closing : Bool} {L : Nat}
  {R : Register} (S : Scene ops dest st ρ)
  (hp : Prepared ops dest st ρ closed closed' l l₁ j u top)

include hp

theorem Prepared.unsettled : j ∉ closed' := by
  have progress := hp.progress
  cases hp.faithful.status j u hp.op with
  | entered _ _ _ _ fresh => exact fresh
  | seeded _ _ _ _ _ _ fresh => exact fresh
  | blank idle => omega
  | added idle => omega
  | settled idle => omega

theorem Prepared.not_pends : ¬∃ t, Pends ops l j t := by
  rintro ⟨t, w, hw, progress, _⟩
  obtain rfl := Option.some.inj (hp.op.symm.trans hw)
  have := hp.idle
  omega

include S

theorem Prepared.older (e : Slot × ValueSource) (he : e ∈ l.values) :
    (∀ target, e.2 ≠ .definition u.site target) ∧ e.2.target ≠ (l₁.notes u.site).visit := by
  refine ⟨(hp.before.fresh S.distinct hp.op hp.idle hp.fresh).2 e he, ?_⟩
  rw [hp.visit]
  have backed := hp.before.backed e he
  cases hsource : e.2 with
  | outside => exact (Nat.succ_ne_zero _).symm
  | definition site target =>
    rw [hsource] at backed
    obtain ⟨_, _, _, _, ⟨rfl, _⟩ | ⟨_, _, _, _, s, opens⟩⟩ := backed
    · exact (Nat.succ_ne_zero _).symm
    · have := hp.ordered.bounded s target opens.pends
      change target ≠ _
      omega

variable (htargets : ∀ e ∈ top, e.2.target ≠ 0 → v.target = e.2.target)

include htargets

omit S in
theorem Prepared.target_of_opens {s t : Nat} (hs : Opens ops l₁ s t)
    (hclosed : ¬Opens ops l s t) (hpends : Pends ops l s t ∨ s = j) : v.target = t := by
  obtain ⟨count, positive, opens⟩ := hp.opens
  have pends : Pends ops (l.enter u.site count) s t := by
    obtain pends | rfl := hpends
    · exact pends.enter hp.idle
    · obtain ⟨w, hw, _, visit, _⟩ := hs
      obtain rfl := Option.some.inj (hp.op.symm.trans hw)
      refine ⟨u, hp.op, ?_, ?_⟩
      · simpa [Ledger.enter, Ledger.note] using positive
      · simp [Ledger.enter, Ledger.note, ← visit, hp.visit]
  obtain ⟨e, he, rfl⟩ := opens s t pends (fun h => hclosed h.of_enter) hs
  exact htargets e he (Nat.pos_iff_ne_zero.mp (hp.faithful.visit_pos hs.pends))

theorem Prepared.sliced (horigin : origin? ops i reg = some (j, d)) {kind : StrideKind}
    {target : Nat} {closed'' : Finset Nat} (hsub : closed' ⊆ closed'')
    (hnew : ∀ i ∈ closed'', i ∈ closed' ∨ i = j)
    (hstatus : Status ops dest st ρ closed'' ({ l₁ with values := l.values }.settle u.site reg closing
      (settledFormula u reg v) kind target) j u)
    (hback : Backed ops closed'' ({ l₁ with values := l.values }.settle u.site reg closing
      (settledFormula u reg v) kind target) (.definition u.site target))
    (hpart : ∀ s, Pends ops l s v.target → v.target = target) :
    Sliced ops dest st ρ closed l i reg ({ l₁ with values := l.values }.settle u.site reg closing
      (settledFormula u reg v) kind target) := by
  have faithful : Faithful ops dest st ρ closed' { l₁ with values := l.values } :=
    hp.faithful.pending fun e he => hp.faithful.backed e <| by
      rw [hp.values]
      exact List.mem_append_right _ he
  have older : ∀ e ∈ l.values, (∀ target, e.2 ≠ .definition u.site target) ∧
      e.2.target ≠ (l₁.notes u.site).visit := hp.older S
  have changes := changes_settle { l₁ with values := l.values } u.site reg closing
    (settledFormula u reg v) kind target
  refine ⟨closed'', .definition u.site target, hp.subset.trans hsub,
    faithful.settle S.distinct hp.op hsub hnew older hstatus hback, rfl,
    ⟨j, d, u, horigin, hp.op, rfl⟩, fun s t pends unopened opens => ?_⟩
  have opens₁ : Opens ops l₁ s t :=
    opens.of_change (l := { l₁ with values := l.values }) changes
      (by simp [Ledger.settle, Ledger.note, Ledger.put])
  obtain rfl := hp.target_of_opens htargets opens₁ unopened (.inl pends)
  exact hpart s pends

theorem Prepared.sliced_closing (horigin : origin? ops i reg = some (j, d))
    (hturn : ∀ {k a d e : Nat}, feed? ops j k = some (a, d) → Reaches ops j a e → d + e = 1)
    (hv : Contributes ops dest st ρ closed' l₁ j [0, 1] v (result dest st j))
    (hopen : (l₁.notes u.site).formula ≠ none) :
    v.target = (l₁.notes u.site).visit ∧
      Sliced ops dest st ρ closed l i reg ({ l₁ with values := l.values }.settle u.site reg closing
        (settledFormula u reg v) .stride 0) := by
  have opens : Opens ops l₁ j (l₁.notes u.site).visit :=
    ⟨u, hp.op, hp.progress, rfl, hopen⟩
  have before : ¬Opens ops l j (l₁.notes u.site).visit := fun h => hp.not_pends ⟨_, h.pends⟩
  have target := hp.target_of_opens htargets opens before (.inr rfl)
  refine ⟨target, ?_⟩
  have stride : Describes ρ closed'.card (fun _ => 0) 0 .stride (settledFormula u reg v)
      (result dest st j) := by
    cases hv with
    | fixed zero => rw [zero, hp.visit] at target; omega
    | @part s k a d e _ _ kind opens' hf reaches describes =>
      obtain rfl := hp.ordered'.unique j s v.target (target ▸ opens.pends) opens'.pends
      have one := hturn hf reaches
      rw [one] at describes
      have changed : Describes ρ closed'.card (fun _ => 0) 0 .stride v.formula (result dest st j) :=
        ⟨describes.plain, fun clean t ht => describes.holds clean t ht⟩
      exact changed.settled u reg
  have mem : j ∈ insert j closed' := Finset.mem_insert_self j closed'
  refine hp.sliced S htargets horigin (Finset.subset_insert j closed')
    (fun i hi => (Finset.mem_insert.mp hi).symm) ?_ ⟨j, u, hp.op, rfl, .inl ⟨rfl, mem⟩⟩ fun s pends => ?_
  · refine .settled (f := settledFormula u reg v) ?_ ?_ (overflow_settledFormula u reg v) ?_ ?_ mem ?_
    iterate 4 simp [Ledger.settle, Ledger.note, Ledger.put]
    rw [Finset.card_insert_of_notMem hp.unsettled]
    simpa [Ledger.settle, Ledger.note, Ledger.put] using stride
  · have := hp.ordered.bounded s _ pends
    rw [target, hp.visit] at this
    omega

theorem Prepared.sliced_passing (horigin : origin? ops i reg = some (j, d)) (hload : u.isLoad = false)
    (hv : Contributes ops dest st ρ closed' l₁ j [0, 1] v (result dest st j))
    (hopen : (l₁.notes u.site).formula = none) :
    Sliced ops dest st ρ closed l i reg ({ l₁ with values := l.values }.settle u.site reg closing
      (settledFormula u reg v) v.kind v.target) := by
  -- a fixed value settles the definition; a part of a sum waits for the open definition `s`
  cases hv with
  | fixed zero kind describes =>
    have mem : j ∈ insert j closed' := Finset.mem_insert_self j closed'
    refine hp.sliced S htargets horigin (Finset.subset_insert j closed')
      (fun i hi => (Finset.mem_insert.mp hi).symm) ?_ ⟨j, u, hp.op, rfl, .inl ⟨zero, mem⟩⟩ fun _ _ => rfl
    refine .settled (f := settledFormula u reg v) ?_ ?_ (overflow_settledFormula u reg v) ?_ ?_ mem ?_
    iterate 2 simp [Ledger.settle, Ledger.note, Ledger.put]
    iterate 2 simpa [Ledger.settle, Ledger.note, Ledger.put]
    rw [Finset.card_insert_of_notMem hp.unsettled]
    simpa [Ledger.settle, Ledger.note, Ledger.put] using (describes (fun _ => 0) 0).settled u reg
  | @part s k a d e mem nonzero kind opens hf reaches describes =>
    have apart : j ≠ s := by
      rintro rfl
      obtain ⟨w, hw, _, _, formula⟩ := opens
      obtain rfl := Option.some.inj (hp.op.symm.trans hw)
      exact formula hopen
    have changes := changes_settle { l₁ with values := l.values } u.site reg closing
      (settledFormula u reg v) v.kind v.target
    have kept : Opens ops ({ l₁ with values := l.values }.settle u.site reg closing
        (settledFormula u reg v) v.kind v.target) s v.target := by
      obtain ⟨w, hw, progress, visit, formula⟩ := opens
      have other : w.site ≠ u.site := fun he => apart (S.distinct j s u w hp.op hw he.symm)
      refine ⟨w, hw, ?_, ?_, ?_⟩ <;> rw [changes.notes _ other]
      · exact progress
      · exact visit
      · exact formula
    refine hp.sliced S htargets horigin (Finset.Subset.refl _) (fun i hi => .inl hi) ?_ ?_ fun _ _ => rfl
    · refine .added (f := settledFormula u reg v) ?_ ?_ (overflow_settledFormula u reg v) ?_ hload ?_ ?_
        hp.unsettled fun s' pends => ?_
      iterate 2 simp [Ledger.settle, Ledger.note, Ledger.put]
      · simpa [Ledger.settle, Ledger.note, Ledger.put] using kind
      · simpa [Ledger.settle, Ledger.note, Ledger.put] using
          hp.ordered'.bounded s v.target opens.pends
      · simp [Ledger.settle, Ledger.note, Ledger.put]
      · have target : ((({ l₁ with values := l.values } : Ledger).settle u.site reg closing
            (settledFormula u reg v) v.kind v.target).notes u.site).target = v.target := by
          simp [Ledger.settle, Ledger.note, Ledger.put]
        rw [target] at pends
        obtain pends | later := pends.of_change changes
        · obtain rfl := hp.ordered'.unique s s' v.target opens.pends pends
          exact ⟨d + e, .step apart hf reaches, describes.settled u reg⟩
        · have := hp.ordered'.bounded s v.target opens.pends
          change l₁.visits < _ at later
          omega
    · refine ⟨j, u, hp.op, rfl, .inr ⟨nonzero, ?_, ?_, ?_, s, kept⟩⟩ <;>
        simp [Ledger.settle, Ledger.note, Ledger.put, kind]

end Settle

end AddressFormulas.Stride
