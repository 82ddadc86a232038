import AddressFormulas.Proofs.Loop.Dependence
import AddressFormulas.Proofs.Stride.Meaning
import AddressFormulas.Proofs.Stride.Skeleton
import Mathlib.Data.Finset.Card
import Mathlib.Data.List.TakeWhile

/-!
What a slice through a loop of one block has noted about its micro-ops, and what the notes say about
a run of the loop. A settled formula describes what its micro-op computes from some iteration on,
and an open sum relates it to the micro-op in progress at the start of the cycle.
-/

namespace AddressFormulas.Stride

open Formula Loop

/-- The state of a slice without its window. -/
structure Ledger where
  values : List (Slot × ValueSource)
  notes : Site → Progress
  cycles : List OpenCycle
  visits : Nat
  slice : Nat

def ledger (w : Walk StrideState) : Ledger where
  values := w.client.values.newestFirst
  notes site := { w.client.progressAt site with tracked := none }
  cycles := w.client.cycles
  visits := w.client.session.visits
  slice := w.client.session.slices

namespace Ledger

def note (l : Ledger) (site : Site) (f : Progress → Progress) : Ledger :=
  { l with notes := Function.update l.notes site (f (l.notes site)) }

theorem note_eq_self {l : Ledger} {site : Site} {f : Progress → Progress}
    (hf : f (l.notes site) = l.notes site) : l.note site f = l := by
  unfold note
  rw [hf, Function.update_eq_self]

def put (l : Ledger) (reg : Register) (source : ValueSource) : Ledger :=
  { l with values := (.register reg, source) :: l.values }

def enter (l : Ledger) (site : Site) (count : Nat) : Ledger :=
  { l with visits := l.visits + 1 }.note site fun pr =>
    { pr with loopCount := count, visit := l.visits + 1, reuse := false, formula := none }

def pass (l : Ledger) (site : Site) (reg : Register) (pr : Progress) : Ledger :=
  ({ l with visits := l.visits + 1 }.note site fun _ => pr).put reg (.definition site pr.target)

def seed (l : Ledger) (site : Site) (reg : Register) : Ledger :=
  ({ l with cycles := StrideState.insertCycle ⟨(l.notes site).visit, site⟩ l.cycles }.note site
    fun pr => { pr with
      formula := some .zero
      kind := .partialSum
      slice := l.slice
      target := pr.visit }).put reg (.definition site (l.notes site).visit)

def settle (l : Ledger) (site : Site) (reg : Register) (closing : Bool) (formula : Formula)
    (kind : StrideKind) (target : Nat) : Ledger :=
  ({ l with
      cycles := if closing then l.cycles.dropWhile (·.site = site) else l.cycles }.note site
    fun pr => { pr with
      formula := some formula
      slice := l.slice
      kind
      target
      loopCount := 0 }).put reg (.definition site target)

def reusable (l : Ledger) (site : Site) : Prop :=
  (l.notes site).formula ≠ none ∧ ((l.notes site).kind ≠ .partialSum ∨
    (l.notes site).slice = l.slice ∧ (l.notes site).target ≠ 0 ∧
      ∃ e ∈ l.values, e.2.target = (l.notes site).target)

end Ledger

theorem ledger_modifyProgress {w : Walk StrideState} {site : Site} {f : Progress → Progress}
    (hf : ∀ pr, { f pr with tracked := none } = f { pr with tracked := none }) :
    ledger { w with client := w.client.modifyProgress site f } = (ledger w).note site f := by
  have same : ∀ s, { (w.client.modifyProgress site f).progressAt s with tracked := none } =
      Function.update (ledger w).notes site (f ((ledger w).notes site)) s := by
    intro s
    rw [progressAt_modifyProgress]
    by_cases h : s = site
    · simp only [h, if_true, Function.update_self]
      exact hf _
    · simp [h, ledger]
  simp only [ledger, same]
  rfl

/-- Unknowns stand for what they name in a run of a loop: the last value of a source, or of a result
that depends on no register. -/
structure Scene (ops : List MicroOp) (dest : Nat → Register) (st : Nat → Nat → Registers)
    (ρ : TermKey → BitVec 64) : Prop where
  body : Body ops dest
  run : IsLoopRun ops st
  distinct : ∀ (i j : Nat) (u v : MicroOp), ops[i]? = some u → ops[j]? = some v →
    u.site = v.site → i = j
  constant : ρ .constant = 1
  reads : ∀ (i : Nat) (u : MicroOp) (r : Register) (idx : Int), ops[i]? = some u →
    u.sourceRegisters ≠ [] → ρ (.register ⟨u.pc, idx⟩ r) = (st ops.length i).read r
  results : ∀ (i : Nat) (u : MicroOp) (r : Register) (idx : Int), ops[i]? = some u →
    u.sourceRegisters = [] → ρ (.register ⟨u.pc, idx⟩ r) = (st ops.length (i + 1)).read r

section Faithful

variable (ops : List MicroOp) (dest : Nat → Register) (st : Nat → Nat → Registers)
  (ρ : TermKey → BitVec 64)

def Pends (l : Ledger) (s target : Nat) : Prop :=
  ∃ v : MicroOp, ops[s]? = some v ∧ 0 < (l.notes v.site).loopCount ∧
    (l.notes v.site).visit = target

/-- A cycle is open at the micro-op at place `s`, which is in progress since visit `target`. -/
def Opens (l : Ledger) (s target : Nat) : Prop :=
  ∃ v : MicroOp, ops[s]? = some v ∧ 0 < (l.notes v.site).loopCount ∧
    (l.notes v.site).visit = target ∧ (l.notes v.site).formula ≠ none

/-- The micro-op at place `i` adds `f` to what the one at place `s` computed before, in the
iterations from `n` on. -/
def Adds (n s i : Nat) (f : Formula) : Prop :=
  ∃ e, Reaches ops s i e ∧
    Describes ρ n (result dest st s) e .partialSum f (result dest st i)

/-- How far the micro-op `u` at place `i` is, with the places in `closed` settled. Every settled
micro-op may have to wait for one more iteration. -/
inductive Status (closed : Finset Nat) (l : Ledger) (i : Nat) (u : MicroOp) : Prop
  | blank : (l.notes u.site).loopCount = 0 → (l.notes u.site).formula = none →
      (l.notes u.site).target = 0 → i ∉ closed → Status closed l i u
  | entered : 0 < (l.notes u.site).loopCount → 0 < (l.notes u.site).visit →
      (l.notes u.site).formula = none → (∀ c ∈ l.cycles, c.site ≠ u.site) → i ∉ closed →
      Status closed l i u
  | seeded : 0 < (l.notes u.site).loopCount → 0 < (l.notes u.site).visit →
      (l.notes u.site).formula = some .zero → (l.notes u.site).kind = .partialSum →
      (l.notes u.site).target = (l.notes u.site).visit → (∃ c ∈ l.cycles, c.site = u.site) →
      i ∉ closed → Status closed l i u
  | added {f : Formula} : (l.notes u.site).loopCount = 0 → (l.notes u.site).formula = some f →
      f.overflow = false → (l.notes u.site).kind = .partialSum → u.isLoad = false →
      (l.notes u.site).target ≤ l.visits → (l.notes u.site).slice = l.slice → i ∉ closed →
      (∀ s, Pends ops l s (l.notes u.site).target → Adds ops dest st ρ closed.card s i f) →
      Status closed l i u
  | settled {f : Formula} : (l.notes u.site).loopCount = 0 → (l.notes u.site).formula = some f →
      f.overflow = false → (l.notes u.site).kind ≠ .partialSum → (l.notes u.site).target = 0 →
      i ∈ closed → Describes ρ (closed.card - 1) (fun _ => 0) 0 (l.notes u.site).kind f
        (result dest st i) → Status closed l i u

def Backed (closed : Finset Nat) (l : Ledger) : ValueSource → Prop
  | .outside => True
  | .definition site target => ∃ (i : Nat) (u : MicroOp), ops[i]? = some u ∧ u.site = site ∧
      (target = 0 ∧ i ∈ closed ∨
        target ≠ 0 ∧ (l.notes site).formula ≠ none ∧ (l.notes site).kind = .partialSum ∧
          (l.notes site).target = target ∧ ∃ s, Opens ops l s target)

structure Faithful (closed : Finset Nat) (l : Ledger) : Prop where
  bounded : ∀ i ∈ closed, i < ops.length
  status : ∀ (i : Nat) (u : MicroOp), ops[i]? = some u → Status ops dest st ρ closed l i u
  backed : ∀ e ∈ l.values, Backed ops closed l e.2

def ComesFrom (i : Nat) (r : Register) : ValueSource → Prop
  | .outside => origin? ops i r = none
  | .definition site _ => ∃ (a d : Nat) (u : MicroOp), origin? ops i r = some (a, d) ∧
      ops[a]? = some u ∧ u.site = site

end Faithful

structure Changes (l l' : Ledger) (site : Site) : Prop where
  notes : ∀ s, s ≠ site → l'.notes s = l.notes s
  cycles : ∀ s, s ≠ site → ((∃ c ∈ l'.cycles, c.site = s) ↔ ∃ c ∈ l.cycles, c.site = s)
  visits : l.visits ≤ l'.visits
  slice : l'.slice = l.slice
  begun : 0 < (l'.notes site).loopCount →
    0 < (l.notes site).loopCount ∧ (l'.notes site).visit = (l.notes site).visit ∨
      l.visits < (l'.notes site).visit

section Change

variable {ops : List MicroOp} {dest : Nat → Register} {st : Nat → Nat → Registers}
  {ρ : TermKey → BitVec 64} {closed closed' : Finset Nat} {l l' : Ledger} {j : Nat} {u : MicroOp}

theorem Adds.mono {n n' s i : Nat} {f : Formula} (h : Adds ops dest st ρ n s i f) (hn : n ≤ n') :
    Adds ops dest st ρ n' s i f := by
  obtain ⟨e, reaches, plain, holds⟩ := h
  exact ⟨e, reaches, plain, fun clean t ht => holds clean t (Nat.le_trans hn ht)⟩

theorem Describes.mono {n n' e : Nat} {x y : Nat → BitVec 64} {kind : StrideKind} {f : Formula}
    (h : Describes ρ n y e kind f x) (hn : n ≤ n') : Describes ρ n' y e kind f x :=
  ⟨h.plain, fun clean t ht => h.holds clean t (Nat.le_trans hn ht)⟩

theorem Opens.pends {s target : Nat} (h : Opens ops l s target) : Pends ops l s target := by
  obtain ⟨v, hv, progress, visit, _⟩ := h
  exact ⟨v, hv, progress, visit⟩

section

variable (hc : Changes l l' u.site)

include hc

theorem Pends.of_change {s target : Nat} (h : Pends ops l' s target) :
    Pends ops l s target ∨ l.visits < target := by
  obtain ⟨v, hv, progress, rfl⟩ := h
  by_cases hs : v.site = u.site
  · rw [hs] at progress ⊢
    obtain ⟨progress', visit⟩ | later := hc.begun progress
    · exact .inl ⟨v, hv, by rwa [hs], by rw [hs, visit]⟩
    · exact .inr later
  · rw [hc.notes _ hs] at progress ⊢
    exact .inl ⟨v, hv, progress, rfl⟩

theorem Backed.change (hsub : closed ⊆ closed') {source : ValueSource}
    (h : Backed ops closed l source)
    (hsame : ∀ target, source = .definition u.site target → target ≠ 0 →
      (l.notes u.site).formula ≠ none → (l'.notes u.site).formula ≠ none ∧
        (l'.notes u.site).kind = .partialSum ∧ (l'.notes u.site).target = (l.notes u.site).target)
    (hstart : 0 < (l.notes u.site).loopCount → (l.notes u.site).visit = source.target →
      0 < (l'.notes u.site).loopCount ∧ (l'.notes u.site).visit = (l.notes u.site).visit ∧
        (l'.notes u.site).formula ≠ none) : Backed ops closed' l' source := by
  cases source with
  | outside => trivial
  | definition site target =>
    obtain ⟨i, v, hv, rfl, ⟨zero, mem⟩ | ⟨nonzero, formula, kind, same, s, start, hs, progress, visit, opened⟩⟩ := h
    · exact ⟨i, v, hv, rfl, .inl ⟨zero, hsub mem⟩⟩
    have notes : (l'.notes v.site).formula ≠ none ∧ (l'.notes v.site).kind = .partialSum ∧
        (l'.notes v.site).target = target := by
      by_cases he : v.site = u.site
      · rw [he] at formula same ⊢
        obtain ⟨formula', kind', target'⟩ := hsame target (by rw [he]) nonzero formula
        exact ⟨formula', kind', target'.trans same⟩
      · rw [hc.notes _ he]
        exact ⟨formula, kind, same⟩
    refine ⟨i, v, hv, rfl, .inr ⟨nonzero, notes.1, notes.2.1, notes.2.2, s, start, hs, ?_⟩⟩
    by_cases he : start.site = u.site
    · rw [he] at progress visit ⊢
      obtain ⟨progress', visit', opened'⟩ := hstart progress visit
      exact ⟨progress', visit'.trans visit, opened'⟩
    · rw [hc.notes _ he]
      exact ⟨progress, visit, opened⟩

end

variable (distinct : ∀ (i j : Nat) (u v : MicroOp), ops[i]? = some u → ops[j]? = some v →
  u.site = v.site → i = j) (hu : ops[j]? = some u) (hc : Changes l l' u.site)
  (hsub : closed ⊆ closed')

include distinct hu hc hsub

theorem Status.change {i : Nat} {v : MicroOp} (hv : ops[i]? = some v) (hi : i ≠ j)
    (hnew : i ∈ closed' → i ∈ closed) (h : Status ops dest st ρ closed l i v) :
    Status ops dest st ρ closed' l' i v := by
  have other : v.site ≠ u.site := fun he => hi (distinct i j v u hv hu he)
  have same := hc.notes _ other
  have card := Finset.card_le_card hsub
  cases h with
  | blank idle none target fresh =>
    rw [← same] at idle none target
    exact .blank idle none target fun hm => fresh (hnew hm)
  | entered progress visit none calm fresh =>
    rw [← same] at progress visit none
    refine .entered progress visit none (fun c hcm he => ?_) fun hm => fresh (hnew hm)
    obtain ⟨d, hd, hd'⟩ := (hc.cycles _ other).mp ⟨c, hcm, he⟩
    exact calm d hd hd'
  | seeded progress visit zero kind target cycle fresh =>
    rw [← same] at progress visit zero kind target
    exact .seeded progress visit zero kind target ((hc.cycles _ other).mpr cycle)
      fun hm => fresh (hnew hm)
  | added idle formula overflow kind load target slice fresh adds =>
    rw [← same] at idle formula kind target slice adds
    refine .added idle formula overflow kind load (Nat.le_trans target hc.visits)
      (slice.trans hc.slice.symm) (fun hm => fresh (hnew hm)) fun s pends => ?_
    obtain pends | later := pends.of_change hc
    · exact (adds s pends).mono card
    · omega
  | settled idle formula overflow kind target mem describes =>
    rw [← same] at idle formula kind target describes
    exact .settled idle formula overflow kind target (hsub mem)
      (describes.mono (Nat.sub_le_sub_right card 1))

theorem Faithful.change (h : Faithful ops dest st ρ closed l)
    (hnew : ∀ i ∈ closed', i ∈ closed ∨ i = j) (hstatus : Status ops dest st ρ closed' l' j u)
    (hbacked : ∀ e ∈ l'.values, Backed ops closed' l' e.2) : Faithful ops dest st ρ closed' l' where
  bounded i hi := by
    obtain hi | rfl := hnew i hi
    · exact h.bounded i hi
    · exact (List.getElem?_eq_some_iff.mp hu).1
  status i v hv := by
    by_cases hi : i = j
    · subst hi
      cases hu.symm.trans hv
      exact hstatus
    · exact (h.status i v hv).change distinct hu hc hsub hv hi fun hm => (hnew i hm).resolve_right hi
  backed := hbacked

end Change

section Steps

variable {ops : List MicroOp} {dest : Nat → Register} {st : Nat → Nat → Registers}
  {ρ : TermKey → BitVec 64} {closed closed' : Finset Nat} {l l' : Ledger} {j : Nat} {u : MicroOp}
  {reg : Register} {pr : Progress} {site : Site}

theorem changes_enter (l : Ledger) (site : Site) (count : Nat) :
    Changes l (l.enter site count) site where
  notes s hs := Function.update_of_ne hs _ _
  cycles _ _ := Iff.rfl
  visits := Nat.le_succ _
  slice := rfl
  begun _ := .inr (by simp [Ledger.enter, Ledger.note])

theorem changes_pass (l : Ledger) (hpr : pr.loopCount = 0) :
    Changes l (l.pass site reg pr) site where
  notes s hs := Function.update_of_ne hs _ _
  cycles _ _ := Iff.rfl
  visits := Nat.le_succ _
  slice := rfl
  begun h := by simp [Ledger.pass, Ledger.note, Ledger.put, hpr] at h

theorem changes_seed (l : Ledger) (site : Site) (reg : Register) :
    Changes l (l.seed site reg) site where
  notes s hs := Function.update_of_ne hs _ _
  cycles s hs := by
    simp only [Ledger.seed, Ledger.put, Ledger.note, Skeleton.mem_insertCycle]
    constructor
    · rintro ⟨c, rfl | hc, rfl⟩
      · exact absurd rfl hs
      · exact ⟨c, hc, rfl⟩
    · rintro ⟨c, hc, rfl⟩
      exact ⟨c, .inr hc, rfl⟩
  visits := Nat.le_refl _
  slice := rfl
  begun h := by
    simp only [Ledger.seed, Ledger.put, Ledger.note, Function.update_self] at h ⊢
    exact .inl ⟨h, trivial⟩

theorem changes_settle (l : Ledger) (site : Site) (reg : Register) (closing : Bool)
    (formula : Formula) (kind : StrideKind) (target : Nat) :
    Changes l (l.settle site reg closing formula kind target) site where
  notes s hs := Function.update_of_ne hs _ _
  cycles s hs := by
    simp only [Ledger.settle, Ledger.put, Ledger.note]
    cases closing with
    | false => simp
    | true =>
      simp only [if_true]
      constructor
      · rintro ⟨c, hc, rfl⟩
        exact ⟨c, (List.dropWhile_sublist _).subset hc, rfl⟩
      · rintro ⟨c, hc, rfl⟩
        refine ⟨c, ?_, rfl⟩
        rw [← List.takeWhile_append_dropWhile (p := (·.site = site)) (l := l.cycles)] at hc
        obtain hc | hc := List.mem_append.mp hc
        · exact absurd (by simpa using List.mem_takeWhile_imp hc) hs
        · exact hc
  visits := Nat.le_refl _
  slice := rfl
  begun h := by simp [Ledger.settle, Ledger.note, Ledger.put] at h

variable (distinct : ∀ (i j : Nat) (u v : MicroOp), ops[i]? = some u → ops[j]? = some v →
  u.site = v.site → i = j) (hu : ops[j]? = some u) (h : Faithful ops dest st ρ closed l)

include distinct hu h

theorem Faithful.fresh (hidle : (l.notes u.site).loopCount = 0) (hfresh : ¬l.reusable u.site) :
    j ∉ closed ∧ ∀ e ∈ l.values, ∀ target, e.2 ≠ .definition u.site target := by
  have status := h.status j u hu
  have unsettled : j ∉ closed := by
    intro hj
    cases status with
    | blank _ _ _ fresh => exact fresh hj
    | entered _ _ _ _ fresh => exact fresh hj
    | seeded _ _ _ _ _ _ fresh => exact fresh hj
    | added _ _ _ _ _ _ _ fresh => exact fresh hj
    | settled _ formula _ kind => exact hfresh ⟨by simp [formula], .inl kind⟩
  refine ⟨unsettled, fun e he target hsource => ?_⟩
  have backed := h.backed e he
  rw [hsource] at backed
  obtain ⟨i, v, hv, hsite, hback⟩ := backed
  obtain rfl := distinct i j v u hv hu hsite
  obtain ⟨_, mem⟩ | ⟨nonzero, formula, kind, same, _⟩ := hback
  · exact unsettled mem
  · refine hfresh ⟨formula, .inr ⟨?_, by rw [same]; exact nonzero, e, he, by rw [same, hsource]; rfl⟩⟩
    cases status with
    | blank _ none => exact absurd none formula
    | entered progress => omega
    | seeded progress => omega
    | added _ _ _ _ _ _ slice => exact slice
    | settled _ _ _ kind' => exact absurd kind kind'

omit distinct in
theorem Faithful.backed_of_reusable (hidle : (l.notes u.site).loopCount = 0)
    (hreusable : l.reusable u.site) :
    Backed ops closed l (.definition u.site (l.notes u.site).target) := by
  obtain ⟨formula, hkind⟩ := hreusable
  cases h.status j u hu with
  | blank _ none => exact absurd none formula
  | entered progress => omega
  | seeded progress => omega
  | added _ _ _ kind =>
    obtain hkind | ⟨_, nonzero, e, he, target⟩ := hkind
    · exact absurd kind hkind
    · have backed := h.backed e he
      cases hsource : e.2 with
      | outside =>
        rw [hsource] at target
        exact absurd target.symm nonzero
      | definition site target' =>
        rw [hsource] at backed target
        obtain rfl : target' = _ := target
        obtain ⟨_, _, _, _, ⟨zero, _⟩ | ⟨_, _, _, _, opens⟩⟩ := backed
        · exact absurd zero nonzero
        · exact ⟨j, u, hu, rfl, .inr ⟨nonzero, formula, kind, rfl, opens⟩⟩
  | settled _ _ _ _ target mem => exact ⟨j, u, hu, rfl, .inl ⟨target, mem⟩⟩

theorem Faithful.enter {count : Nat} (hcount : 0 < count)
    (hidle : (l.notes u.site).loopCount = 0) (hfresh : ¬l.reusable u.site)
    (hcalm : ∀ c ∈ l.cycles, c.site ≠ u.site) :
    Faithful ops dest st ρ closed (l.enter u.site count) := by
  obtain ⟨unsettled, unused⟩ := h.fresh distinct hu hidle hfresh
  have changes := changes_enter l u.site count
  refine h.change distinct hu changes (Finset.Subset.refl _) (fun i hi => .inl hi) ?_ fun e he => ?_
  · refine .entered ?_ ?_ ?_ hcalm unsettled <;> simp [Ledger.enter, Ledger.note, hcount]
  · refine (h.backed e he).change changes (Finset.Subset.refl _)
      (fun target hsource => absurd hsource (unused e he target)) fun progress => ?_
    omega

theorem Faithful.seed (hprogress : 0 < (l.notes u.site).loopCount) :
    Faithful ops dest st ρ closed (l.seed u.site reg) := by
  have changes := changes_seed l u.site reg
  have visit : 0 < (l.notes u.site).visit ∧ j ∉ closed := by
    cases h.status j u hu with
    | entered _ visit _ _ fresh => exact ⟨visit, fresh⟩
    | seeded _ visit _ _ _ _ fresh => exact ⟨visit, fresh⟩
    | blank idle => omega
    | added idle => omega
    | settled idle => omega
  have note : (l.seed u.site reg).notes u.site = { l.notes u.site with
      formula := some .zero, kind := .partialSum, slice := l.slice,
      target := (l.notes u.site).visit } := by
    simp [Ledger.seed, Ledger.note, Ledger.put]
  have status : Status ops dest st ρ closed (l.seed u.site reg) j u := by
    have cycle : ∃ c ∈ (l.seed u.site reg).cycles, c.site = u.site :=
      ⟨_, Skeleton.mem_insertCycle.mpr (.inl rfl), rfl⟩
    refine .seeded ?_ ?_ ?_ ?_ ?_ cycle visit.2 <;> rw [note]
    · exact hprogress
    · exact visit.1
  refine h.change distinct hu changes (Finset.Subset.refl _) (fun i hi => .inl hi) status ?_
  intro e he
  obtain rfl | he := List.mem_cons.mp he
  · refine ⟨j, u, hu, rfl, .inr ⟨by omega, ?_, ?_, ?_, j, u, hu, ?_⟩⟩ <;> rw [note]
    · simp
    · exact ⟨hprogress, rfl, by simp⟩
  · refine (h.backed e he).change changes (Finset.Subset.refl _) (fun target _ _ formula => ?_) ?_
    · -- a micro-op in progress with a formula was seeded before
      rw [note]
      refine ⟨by simp, rfl, ?_⟩
      cases h.status j u hu with
      | entered _ _ none => exact absurd none formula
      | seeded _ _ _ _ target => exact target.symm
      | blank idle => omega
      | added idle => omega
      | settled idle => omega
    · intro _ _
      rw [note]
      exact ⟨hprogress, rfl, by simp⟩

theorem Faithful.pass (hidle : (l.notes u.site).loopCount = 0) (hpr : pr.loopCount = 0)
    (hsub : closed ⊆ closed') (hnew : ∀ i ∈ closed', i ∈ closed ∨ i = j)
    (hstatus : Status ops dest st ρ closed' (l.pass u.site reg pr) j u)
    (hback : Backed ops closed' (l.pass u.site reg pr) (.definition u.site pr.target))
    (hsame : ¬l.reusable u.site ∨ pr.formula = (l.notes u.site).formula ∧
      pr.kind = (l.notes u.site).kind ∧ pr.target = (l.notes u.site).target) :
    Faithful ops dest st ρ closed' (l.pass u.site reg pr) := by
  have changes : Changes l (l.pass u.site reg pr) u.site := changes_pass l hpr
  have note : (l.pass u.site reg pr).notes u.site = pr := by
    simp [Ledger.pass, Ledger.note, Ledger.put]
  refine h.change distinct hu changes hsub hnew hstatus fun e he => ?_
  obtain rfl | he := List.mem_cons.mp he
  · exact hback
  · refine (h.backed e he).change changes hsub (fun target hsource nonzero formula => ?_) fun progress => ?_
    · obtain hfresh | ⟨formula', kind, target'⟩ := hsame
      · exact absurd hsource ((h.fresh distinct hu hidle hfresh).2 e he target)
      · rw [note, formula', kind, target']
        have backed := h.backed e he
        rw [hsource] at backed
        obtain ⟨_, _, _, _, ⟨zero, _⟩ | ⟨_, _, kind, _⟩⟩ := backed
        · exact absurd zero nonzero
        · exact ⟨formula, kind, rfl⟩
    · omega

theorem Faithful.settle {closing : Bool} {formula : Formula} {kind : StrideKind} {target : Nat}
    (hsub : closed ⊆ closed') (hnew : ∀ i ∈ closed', i ∈ closed ∨ i = j)
    (holder : ∀ e ∈ l.values, (∀ target, e.2 ≠ .definition u.site target) ∧
      e.2.target ≠ (l.notes u.site).visit)
    (hstatus : Status ops dest st ρ closed' (l.settle u.site reg closing formula kind target) j u)
    (hback : Backed ops closed' (l.settle u.site reg closing formula kind target)
      (.definition u.site target)) :
    Faithful ops dest st ρ closed' (l.settle u.site reg closing formula kind target) := by
  have changes := changes_settle l u.site reg closing formula kind target
  refine h.change distinct hu changes hsub hnew hstatus fun e he => ?_
  obtain rfl | he := List.mem_cons.mp he
  · exact hback
  · obtain ⟨other, later⟩ := holder e he
    exact (h.backed e he).change changes hsub (fun target hsource => absurd hsource (other target))
      fun _ visit => absurd visit.symm later

omit distinct hu in
theorem Faithful.pending {vs : List (Slot × ValueSource)} (hvs : ∀ e ∈ vs, Backed ops closed l e.2) :
    Faithful ops dest st ρ closed { l with values := vs } where
  bounded := h.bounded
  status i v hv := by
    cases h.status i v hv with
    | blank idle none target fresh => exact .blank idle none target fresh
    | entered progress visit none calm fresh => exact .entered progress visit none calm fresh
    | seeded progress visit zero kind target cycle fresh =>
      exact .seeded progress visit zero kind target cycle fresh
    | added idle formula overflow kind load target slice fresh adds =>
      exact .added idle formula overflow kind load target slice fresh adds
    | settled idle formula overflow kind target mem describes =>
      exact .settled idle formula overflow kind target mem describes
  backed := hvs

end Steps

end AddressFormulas.Stride
