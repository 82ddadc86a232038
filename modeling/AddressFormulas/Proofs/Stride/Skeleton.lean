import AddressFormulas.Proofs.Data.Table
import AddressFormulas.Proofs.Formula.KeyOrder
import AddressFormulas.Proofs.Loop.Circuit
import AddressFormulas.Proofs.Routine.Definitions
import AddressFormulas.Proofs.Stride.Values
import Mathlib.Logic.Function.Basic

/-!
What decides the course of a stride slice, as opposed to the formulas that it computes: the window,
the micro-ops in progress and the open cycles. Micro-ops in progress lie behind the walk, so that it
can come back to one of them only around a back edge, and a definition that the walk finds is never
outside of its window.
-/

namespace AddressFormulas.Stride

/-- The state of a stride slice without values and formulas. -/
structure Skeleton where
  path : Option CyclicPath
  cycles : List OpenCycle
  backEdges : Nat
  startBackEdges : Nat
  startRank : Nat
  boundStart : Nat
  visits : Nat
  loopCount : Site → Nat
  visit : Site → Nat
  clean : Prop

def skeleton (w : Walk StrideState) : Skeleton where
  path := w.client.path
  cycles := w.client.cycles
  backEdges := w.client.backEdges
  startBackEdges := w.client.startBackEdges
  startRank := w.client.startRank
  boundStart := w.bounds.start
  visits := w.client.session.visits
  loopCount site := (w.client.progressAt site).loopCount
  visit site := (w.client.progressAt site).visit
  clean := ∀ e ∈ w.journal, e.isWindowFailure = false

theorem unconcerned_skeleton : Unconcerned skeleton where
  values _ _ := rfl
  unheard e he w := by simp [skeleton, he]

theorem progressAt_modifyProgress (st : StrideState) (site s : Site) (f : Progress → Progress) :
    (st.modifyProgress site f).progressAt s =
      if s = site then f (st.progressAt site) else st.progressAt s :=
  Table.getD_update st.progress site s {} f

theorem skeleton_modifyProgress (w : Walk StrideState) (site : Site) (f : Progress → Progress) :
    skeleton { w with client := w.client.modifyProgress site f } = { skeleton w with
      loopCount := Function.update (skeleton w).loopCount site
        (f (w.client.progressAt site)).loopCount
      visit := Function.update (skeleton w).visit site (f (w.client.progressAt site)).visit } := by
  have same : ∀ s, ((w.client.modifyProgress site f).progressAt s).loopCount =
      Function.update (skeleton w).loopCount site (f (w.client.progressAt site)).loopCount s ∧
      ((w.client.modifyProgress site f).progressAt s).visit =
      Function.update (skeleton w).visit site (f (w.client.progressAt site)).visit s := by
    intro s
    rw [progressAt_modifyProgress]
    by_cases h : s = site
    · simp [h]
    · simp [h, skeleton]
  simp only [skeleton, same]
  rfl

theorem skeleton_modifyProgress_eq {w : Walk StrideState} {site : Site} {f : Progress → Progress}
    (hf : ∀ pr, (f pr).loopCount = pr.loopCount ∧ (f pr).visit = pr.visit) :
    skeleton { w with client := w.client.modifyProgress site f } = skeleton w := by
  have loop : (f (w.client.progressAt site)).loopCount = (skeleton w).loopCount site := (hf _).1
  have visit : (f (w.client.progressAt site)).visit = (skeleton w).visit site := (hf _).2
  rw [skeleton_modifyProgress, loop, visit, Function.update_eq_self, Function.update_eq_self]

namespace Skeleton

def InProgress (sk : Skeleton) (site : Site) : Prop := 0 < sk.loopCount site

def outside (sk : Skeleton) (rank : Nat) (early : Prop) : Prop :=
  sk.startBackEdges < sk.backEdges ∧ (rank < sk.startRank ∨ rank = sk.startRank ∧ early) ∨
    sk.startBackEdges + 1 < sk.backEdges

structure Inv (p : CyclicPath) (sk : Skeleton) : Prop where
  path : sk.path = some p
  visit_le : ∀ s, sk.InProgress s → sk.visit s ≤ sk.visits
  visit_inj : ∀ s t, sk.InProgress s → sk.InProgress t → sk.visit s = sk.visit t → s = t
  cycles_open : ∀ c ∈ sk.cycles, sk.InProgress c.site ∧ sk.visit c.site = c.visit
  cycles_sorted : sk.cycles.Pairwise fun c d => d.visit ≤ c.visit

/-- What a part of a slice leaves as it was: the path, where the walk is, and the micro-ops in
progress. It reaches no micro-op outside of the window. -/
structure Frame (sk sk' : Skeleton) : Prop where
  path : sk'.path = sk.path
  clean : sk.clean → sk'.clean
  backEdges : sk'.backEdges = sk.backEdges
  loopCount : sk'.loopCount = sk.loopCount
  visit : ∀ s, sk.InProgress s → sk'.visit s = sk.visit s

theorem Frame.refl (sk : Skeleton) : Frame sk sk :=
  ⟨rfl, id, rfl, rfl, fun _ _ => rfl⟩

theorem Frame.trans {a b c : Skeleton} (h : Frame a b) (h' : Frame b c) : Frame a c where
  path := h'.path.trans h.path
  clean := h'.clean ∘ h.clean
  backEdges := h'.backEdges.trans h.backEdges
  loopCount := h'.loopCount.trans h.loopCount
  visit s hs := by
    have : b.InProgress s := by
      unfold InProgress
      rw [h.loopCount]
      exact hs
    rw [h'.visit s this, h.visit s hs]

def enter (sk : Skeleton) (site : Site) : Skeleton :=
  { sk with
    visits := sk.visits + 1
    loopCount := Function.update sk.loopCount site (sk.backEdges + 1)
    visit := Function.update sk.visit site (sk.visits + 1) }

def leave (sk : Skeleton) (site : Site) : Skeleton :=
  { sk with
    loopCount := Function.update sk.loopCount site 0
    cycles :=
      if sk.cycles.head?.any (·.site = site) then sk.cycles.dropWhile (·.site = site)
      else sk.cycles }

def seed (sk : Skeleton) (site : Site) : Skeleton :=
  { sk with cycles := StrideState.insertCycle ⟨sk.visit site, site⟩ sk.cycles }

theorem inProgress_enter {sk : Skeleton} {site s : Site} :
    (sk.enter site).InProgress s ↔ s = site ∨ sk.InProgress s := by
  unfold InProgress enter
  by_cases hs : s = site
  · simp [hs]
  · simp [hs]

theorem inProgress_leave {sk : Skeleton} {site s : Site} :
    (sk.leave site).InProgress s ↔ s ≠ site ∧ sk.InProgress s := by
  unfold InProgress leave
  by_cases hs : s = site
  · simp [hs]
  · simp [hs]

variable {p : CyclicPath} {sk : Skeleton} {site : Site}

theorem Inv.enter (h : sk.Inv p) (hs : ¬sk.InProgress site) : (sk.enter site).Inv p where
  path := h.path
  visit_le s hp := by
    change Function.update sk.visit site (sk.visits + 1) s ≤ sk.visits + 1
    obtain rfl | hold := inProgress_enter.mp hp
    · simp
    · have : s ≠ site := by rintro rfl; exact hs hold
      rw [Function.update_of_ne this]
      exact Nat.le_succ_of_le (h.visit_le s hold)
  visit_inj s t hp hp' he := by
    change Function.update sk.visit site (sk.visits + 1) s =
      Function.update sk.visit site (sk.visits + 1) t at he
    by_cases h₁ : s = site <;> by_cases h₂ : t = site
    · rw [h₁, h₂]
    · have := h.visit_le t ((inProgress_enter.mp hp').resolve_left h₂)
      rw [h₁, Function.update_self, Function.update_of_ne h₂] at he
      omega
    · have := h.visit_le s ((inProgress_enter.mp hp).resolve_left h₁)
      rw [h₂, Function.update_self, Function.update_of_ne h₁] at he
      omega
    · rw [Function.update_of_ne h₁, Function.update_of_ne h₂] at he
      exact h.visit_inj s t ((inProgress_enter.mp hp).resolve_left h₁)
        ((inProgress_enter.mp hp').resolve_left h₂) he
  cycles_open c hc := by
    obtain ⟨hp, hv⟩ := h.cycles_open c hc
    refine ⟨inProgress_enter.mpr (.inr hp), ?_⟩
    have : c.site ≠ site := by rintro rfl; exact hs hp
    change Function.update sk.visit site (sk.visits + 1) c.site = c.visit
    rw [Function.update_of_ne this]
    exact hv
  cycles_sorted := h.cycles_sorted

theorem mem_insertCycle {c d : OpenCycle} {cs : List OpenCycle} :
    d ∈ StrideState.insertCycle c cs ↔ d = c ∨ d ∈ cs := by
  fun_induction StrideState.insertCycle c cs with
  | case1 => simp
  | case2 => simp
  | case3 e es _ ih =>
    simp only [List.mem_cons, ih]
    tauto

theorem pairwise_insertCycle {c : OpenCycle} {cs : List OpenCycle}
    (h : cs.Pairwise fun c d => d.visit ≤ c.visit) :
    (StrideState.insertCycle c cs).Pairwise fun c d => d.visit ≤ c.visit := by
  fun_induction StrideState.insertCycle c cs with
  | case1 => exact List.pairwise_singleton _ _
  | case2 d ds hlt =>
    refine List.pairwise_cons.mpr ⟨fun e he => ?_, h⟩
    obtain rfl | he := List.mem_cons.mp he
    · omega
    · have := (List.pairwise_cons.mp h).1 e he
      omega
  | case3 d ds hge ih =>
    obtain ⟨hd, hds⟩ := List.pairwise_cons.mp h
    refine List.pairwise_cons.mpr ⟨fun e he => ?_, ih hds⟩
    obtain rfl | he := mem_insertCycle.mp he
    · omega
    · exact hd e he

theorem Inv.seed (h : sk.Inv p) (hs : sk.InProgress site) : (sk.seed site).Inv p where
  path := h.path
  visit_le := h.visit_le
  visit_inj := h.visit_inj
  cycles_open c hc := by
    obtain rfl | hc := mem_insertCycle.mp hc
    · exact ⟨hs, rfl⟩
    · exact h.cycles_open c hc
  cycles_sorted := pairwise_insertCycle h.cycles_sorted

theorem cycles_leave (sk : Skeleton) (site : Site) :
    (sk.leave site).cycles = sk.cycles.dropWhile (·.site = site) := by
  unfold Skeleton.leave
  cases sk.cycles with
  | nil => rfl
  | cons c cs => by_cases h : c.site = site <;> simp [h]

section Last

variable (h : sk.Inv p) (hlast : ∀ s, sk.InProgress s → s ≠ site → sk.visit s < sk.visit site)

include h hlast

theorem Inv.last_first : sk.cycles.Pairwise fun c d => d.site = site → c.site = site := by
  refine h.cycles_sorted.imp_of_mem fun {c d} hc hd hle hs => ?_
  by_contra hne
  obtain ⟨progress, visit⟩ := h.cycles_open c hc
  obtain ⟨_, visit'⟩ := h.cycles_open d hd
  have := hlast c.site progress hne
  rw [hs] at visit'
  omega

theorem Inv.any_head?_iff :
    sk.cycles.head?.any (·.site = site) = true ↔ ∃ c ∈ sk.cycles, c.site = site := by
  have first := h.last_first hlast
  cases hcs : sk.cycles with
  | nil => simp
  | cons c cs =>
    rw [hcs, List.pairwise_cons] at first
    simp only [List.head?_cons, Option.any_some, decide_eq_true_eq]
    constructor
    · exact fun hc => ⟨c, List.mem_cons_self, hc⟩
    · rintro ⟨d, hd, hs⟩
      obtain rfl | hd := List.mem_cons.mp hd
      · exact hs
      · exact first.1 d hd hs

theorem Inv.of_mem_leave {c : OpenCycle} (hc : c ∈ (sk.leave site).cycles) :
    c ∈ sk.cycles ∧ c.site ≠ site := by
  have first := h.last_first hlast
  rw [cycles_leave] at hc
  refine ⟨(List.dropWhile_sublist _).subset hc, ?_⟩
  generalize sk.cycles = cycles at first hc
  induction cycles with
  | nil => simp at hc
  | cons d ds ih =>
    obtain ⟨hd, hds⟩ := List.pairwise_cons.mp first
    by_cases hs : d.site = site
    · exact ih hds (by simpa [List.dropWhile_cons, hs] using hc)
    · rw [List.dropWhile_cons_of_neg (by simpa using hs)] at hc
      obtain rfl | hc := List.mem_cons.mp hc
      · exact hs
      · exact mt (hd c hc) hs

theorem Inv.leave : (sk.leave site).Inv p where
  path := h.path
  visit_le s hs := h.visit_le s (inProgress_leave.mp hs).2
  visit_inj s t hs ht := h.visit_inj s t (inProgress_leave.mp hs).2 (inProgress_leave.mp ht).2
  cycles_open c hc := by
    obtain ⟨hm, hne⟩ := h.of_mem_leave hlast hc
    obtain ⟨progress, visit⟩ := h.cycles_open c hm
    exact ⟨inProgress_leave.mpr ⟨hne, progress⟩, visit⟩
  cycles_sorted := by
    rw [cycles_leave]
    exact h.cycles_sorted.sublist (List.dropWhile_sublist _)

end Last

end Skeleton

end AddressFormulas.Stride
