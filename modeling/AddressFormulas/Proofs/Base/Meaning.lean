import AddressFormulas.Proofs.Base.Claims
import AddressFormulas.Proofs.Routine.Route

namespace AddressFormulas

namespace MicroOp

def leavesUnknown (u : MicroOp) (d : Register) : Prop :=
  Base.settled u d.canonical ((Base.claimed u).map (Formula.register u.site)) =
    .register u.site d.canonical

def keepsGeneral (u : MicroOp) : Prop := ∀ r : Register, r.isWhole = true → u.writes? r = none

theorem exists_step {u : MicroOp} (h : u.keepsGeneral ∨ ∃ d, u.Computes d) (st : Registers) :
    ∃ st', u.Step st st' := by
  obtain hkeeps | ⟨d, hc⟩ := h
  · exact ⟨st, fun _ _ _ => rfl, fun r hr hwrites => absurd (hkeeps r hr) hwrites⟩
  · obtain ⟨v, hv⟩ := hc.result?_eq st
    have whole := hc.writes.whole
    refine ⟨fun name => if name = d.name.parent then v else st name, fun r hr hnone => ?_,
      fun r hr hwrites v' hv' => ?_⟩
    · refine if_neg fun he => ?_
      rw [hc.writes.writes?_eq hr, if_pos ((Register.canonical_eq_iff hr whole).mpr he)] at hnone
      cases hnone
    · obtain rfl := Option.some.inj (hv.symm.trans hv')
      refine if_pos ((Register.canonical_eq_iff hr whole).mp ?_)
      by_contra hne
      exact hwrites (by rw [hc.writes.writes?_eq hr, if_neg hne])

theorem exists_run {ops : List MicroOp} (h : ∀ u ∈ ops, u.keepsGeneral ∨ ∃ d, u.Computes d)
    (st₀ : Registers) : ∃ st, st 0 = st₀ ∧ IsRun ops st := by
  induction ops generalizing st₀ with
  | nil => exact ⟨fun _ => st₀, rfl, fun k u hu => by simp at hu⟩
  | cons u us ih =>
    obtain ⟨st₁, hstep⟩ := exists_step (h u List.mem_cons_self) st₀
    obtain ⟨st, hst, hrun⟩ := ih (fun v hv => h v (List.mem_cons_of_mem u hv)) st₁
    refine ⟨fun k => k.casesOn st₀ st, rfl, fun k v hv => ?_⟩
    cases k with
    | zero =>
      cases hv
      rw [← hst] at hstep
      exact hstep
    | succ k => exact hrun k v hv

theorem Computes.canonical_eq {u : MicroOp} {d d' : Register} (h : u.Computes d)
    (h' : u.Computes d') : d.canonical = d'.canonical := by
  have written : u.writes? d = some d.canonical := by
    rw [h.writes.writes?_eq h.writes.whole, if_pos rfl]
  rw [h'.writes.writes?_eq h.writes.whole] at written
  split at written
  · next he => exact he
  · cases written

end MicroOp

namespace Base

open Formula

variable {g : Graph} {first : Nat} {ops : List MicroOp} {st : Nat → Registers}
  {ρ : TermKey → BitVec 64}

def Renamed (first : Nat) (ops : List MicroOp) (r : Register) : Prop :=
  ∃ u d, ops[0]? = some u ∧ u.site = ⟨first, 0⟩ ∧ u.Computes d ∧ u.leavesUnknown d ∧
    r.canonical = d.canonical

/-- Terms stand for what they name in a run of the given micro-ops from the entry at `first`. -/
structure Reads (first : Nat) (ops : List MicroOp) (st : Nat → Registers)
    (ρ : TermKey → BitVec 64) : Prop where
  constant : ρ .constant = 1
  initial : ∀ r : Register, r.isWhole = true → ¬Renamed first ops r →
    ρ (.register ⟨first, 0⟩ r.canonical) = (st 0).read r
  written : ∀ k (u : MicroOp) d, ops[k]? = some u → u.Computes d →
    (u.site = ⟨first, 0⟩ → u.leavesUnknown d) →
      ρ (.register u.site d.canonical) = (st (k + 1)).read d

def Sees (u : MicroOp) (st : Registers) (ρ : TermKey → BitVec 64) : Prop :=
  ∀ r : Register, ρ (.register u.site r.canonical) = u.registerBits st r

theorem exists_reading {u : MicroOp}
    (hentry : ∀ k (v : MicroOp), (ops ++ [u])[k]? = some v → v.site = ⟨first, 0⟩ → k = 0)
    (hdistinct : ∀ (k k' : Nat) (v v' : MicroOp), (ops ++ [u])[k]? = some v →
      (ops ++ [u])[k']? = some v' → v.site = v'.site → k = k') (st : Nat → Registers) :
    ∃ z : TermKey → ℤ, Reads first ops st (fun key => BitVec.ofInt 64 (z key)) ∧
      Sees u (st ops.length) fun key => BitVec.ofInt 64 (z key) := by
  classical
  -- a name means what its micro-op left unknown, else what is seen where the run ends or begins
  let Leaves (k : Nat) (site : Site) (r : Register) : Prop := ∃ v d, ops[k]? = some v ∧
    v.Computes d ∧ (v.site = ⟨first, 0⟩ → v.leavesUnknown d) ∧ v.site = site ∧ d.canonical = r
  let ρ : TermKey → BitVec 64
    | .constant => 1
    | .register site r =>
      if h : ∃ k, Leaves k site r then (st (h.choose + 1)).read r
      else if site = u.site then u.registerBits (st ops.length) r
      else (st 0).read r
    | _ => 0
  refine ⟨fun key => (ρ key).toInt, ?_⟩
  simp only [BitVec.ofInt_toInt]
  have inner : ∀ {k : Nat} {v : MicroOp}, ops[k]? = some v → (ops ++ [u])[k]? = some v := by
    intro k v hv
    rw [List.getElem?_append_left (List.getElem?_eq_some_iff.mp hv).1]
    exact hv
  have last : (ops ++ [u])[ops.length]? = some u := by simp
  refine ⟨⟨rfl, fun r hr hnot => ?_, fun k v d hv hc hleaves => ?_⟩, fun r => ?_⟩
  · have none : ¬∃ k, Leaves k ⟨first, 0⟩ r.canonical := by
      rintro ⟨k, v, d, hv, hc, hleaves, hsite, hr⟩
      obtain rfl := hentry k v (inner hv) hsite
      exact hnot ⟨v, d, hv, hsite, hc, hleaves hsite, hr.symm⟩
    change (if h : ∃ k, Leaves k ⟨first, 0⟩ r.canonical then _ else _) = _
    rw [dif_neg none]
    split
    · next hsite =>
      rw [hentry _ u last hsite.symm, MicroOp.registerBits,
        hardwired?_of_whole (Register.isWhole_canonical (Register.isWhole_canonical hr))]
      exact Registers.read_canonical _ r
    · exact Registers.read_canonical _ r
  · have some : ∃ k, Leaves k v.site d.canonical := ⟨k, v, d, hv, hc, hleaves, rfl, rfl⟩
    change (if h : ∃ k, Leaves k v.site d.canonical then _ else _) = _
    rw [dif_pos some]
    obtain ⟨v', d', hv', -, -, hsite, -⟩ := some.choose_spec
    rw [hdistinct _ _ v' v (inner hv') (inner hv) hsite]
    exact Registers.read_canonical _ d
  · have none : ¬∃ k, Leaves k u.site r.canonical := by
      rintro ⟨k, v, d, hv, -, -, hsite, -⟩
      have hk := (List.getElem?_eq_some_iff.mp hv).1
      exact absurd (hdistinct _ _ v u (inner hv) last hsite) (by omega)
    change (if h : ∃ k, Leaves k u.site r.canonical then _ else _) = _
    rw [dif_neg none, if_pos rfl, MicroOp.registerBits_canonical]

structure Scene (g : Graph) (first : Nat) (ops : List MicroOp) (st : Nat → Registers)
    (ρ : TermKey → BitVec 64) : Prop where
  wellFormed : g.WellFormed
  joinFree : g.JoinFree
  modelled : ∀ u ∈ ops, u.keepsGeneral ∨ ∃ d, u.Computes d ∧ ¬u.movesComplement
  entry : ∀ k (u : MicroOp), ops[k]? = some u → u.site = ⟨first, 0⟩ → k = 0
  distinct : ∀ (k k' : Nat) (u u' : MicroOp), ops[k]? = some u → ops[k']? = some u' → u.site = u'.site → k = k'
  run : IsRun ops st
  reads : Reads first ops st ρ

structure Holds (first : Nat) (ops : List MicroOp) (st : Nat → Registers) (ρ : TermKey → BitVec 64)
    (k : Nat) (r : Register) (f : Formula) : Prop where
  unread : k = 0 → f = .register ⟨first, 0⟩ r
  stands : (k = 0 → ¬Renamed first ops r) → Stands ρ (st k) r f

def Known (first : Nat) (ops : List MicroOp) (st : Nat → Registers) (ρ : TermKey → BitVec 64)
    (defs : Table Site Formula) : Prop :=
  ∀ k u d f, ops[k]? = some u → u.Computes d → defs.get? u.site = some f →
    Holds first ops st ρ (k + 1) d.canonical f

variable {k : Nat} {r : Register} {f : Formula}

theorem stands_register {site : Site} {st : Registers} (h : ρ (.register site r) = st.read r) :
    Stands ρ st r (.register site r) := by
  refine ⟨overflow_ofTerm _ _ _, ?_⟩
  rw [← h]
  exact means_register site r

theorem Scene.holds_entry (S : Scene g first ops st ρ) (hr : IsPlain r) (hk : k ≤ ops.length)
    (h : Untouched ops r 0 k) : Holds first ops st ρ k r (.register ⟨first, 0⟩ r) := by
  refine ⟨fun _ => rfl, fun hnot => stands_register ?_⟩
  have named : ¬Renamed first ops r := by
    intro hren
    by_cases h0 : k = 0
    · exact hnot h0 hren
    · obtain ⟨u, d, hu, _, hc, _, he⟩ := hren
      have writes := hc.writes.writes?_eq hr.1
      rw [if_pos he, h 0 u le_rfl (by omega) hu] at writes
      cases writes
  rw [read_untouched S.run hr.1 (Nat.zero_le k) hk h, ← S.reads.initial r hr.1 named, hr.2]

theorem Scene.holds_later (S : Scene g first ops st ρ) (hr : IsPlain r) {k' : Nat} (h0 : 0 < k)
    (hk : k ≤ k') (hk' : k' ≤ ops.length) (h : Untouched ops r k k')
    (hf : Holds first ops st ρ k r f) : Holds first ops st ρ k' r f := by
  refine ⟨fun he => by omega, fun _ => ?_⟩
  have before := hf.stands fun he => by omega
  rw [Stands] at before ⊢
  rwa [read_untouched S.run hr.1 hk hk' h]

theorem eq_map_register {rs : List Register} {fs : List Formula}
    (h : List.Forall₂ (Holds first ops st ρ 0) rs fs) :
    fs = rs.map (Formula.register ⟨first, 0⟩) := by
  induction h with
  | nil => rfl
  | cons hf _ ih => rw [List.map_cons, ← ih, hf.unread rfl]

variable {u : MicroOp} {d : Register} {fs : List Formula}

theorem stands_claimed (hu : ops[k]? = some u) (hc : u.Computes d)
    (hset : settled u d.canonical fs ≠ .register u.site d.canonical)
    (hfs : List.Forall₂ (Holds first ops st ρ k) (claimed u) fs) :
    List.Forall₂ (Stands ρ (st k)) (claimed u) fs := by
  refine hfs.imp fun r f hf => hf.stands fun h0 => ?_
  subst h0
  rintro ⟨u', d', hu', hsite, hc', hleaves, -⟩
  obtain rfl := Option.some.inj (hu.symm.trans hu')
  refine hset ?_
  rw [eq_map_register hfs, hc.canonical_eq hc', ← hsite]
  exact hleaves

theorem Scene.holds_defined (S : Scene g first ops st ρ) (hu : ops[k]? = some u)
    (hc : u.Computes d) (hnot : ¬u.movesComplement)
    (hfs : List.Forall₂ (Holds first ops st ρ k) (claimed u) fs) :
    Holds first ops st ρ (k + 1) d.canonical (settled u d.canonical fs) := by
  refine ⟨fun h0 => by omega, fun _ => ?_⟩
  by_cases hset : settled u d.canonical fs = .register u.site d.canonical
  · rw [hset]
    refine stands_register ?_
    rw [Registers.read_canonical]
    refine S.reads.written k u d hu hc fun hsite => ?_
    obtain rfl := S.entry k u hu hsite
    rw [eq_map_register hfs, ← hsite] at hset
    exact hset
  · have operands := stands_claimed hu hc hset hfs
    obtain ⟨v, hv⟩ := hc.result?_eq (st k)
    have value : (st (k + 1)).read d.canonical = v := by
      rw [Registers.read_canonical]
      refine (S.run k u hu).written d hc.writes.whole ?_ v hv
      rw [hc.writes.writes?_eq hc.writes.whole, if_pos rfl]
      simp
    have fits : (folded u d.canonical fs).overflow = false := by
      by_contra ho
      exact hset (if_pos (by simpa using ho))
    have folds : settled u d.canonical fs = folded u d.canonical fs := if_neg (by simp [fits])
    rw [folds] at hset ⊢
    rw [Stands, value]
    exact ⟨fits, (hc.folded_sound S.reads.constant hnot operands hv _).resolve_left hset⟩

end Base

end AddressFormulas
