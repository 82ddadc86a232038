import AddressFormulas.Proofs.Loop.Trail
import Mathlib.Data.List.Perm.Subperm

namespace AddressFormulas

namespace LoopTree

inductive Climbs (tree : List Nat) : Nat → Nat → Nat → Prop
  | same (m : Nat) : Climbs tree m m m
  | left {m k c : Nat} : k < m → Climbs tree (tree.getD m 0) k c → Climbs tree m k c
  | right {m k c : Nat} : m < k → Climbs tree m (tree.getD k 0) c → Climbs tree m k c

section Climb

variable {tree : List Nat} (parent_lt : ∀ m parent, 0 < m → tree[m]? = some parent → parent < m)

include parent_lt in
theorem climbs_climb {n m k : Nat} (hm : m < tree.length) (hk : k < tree.length)
    (hn : m + k ≤ n) : Climbs tree m k (climb tree n m k) := by
  have parent : ∀ x, 0 < x → x < tree.length → tree.getD x 0 < x := by
    intro x hx hl
    apply parent_lt x _ hx
    simp [List.getD, hl]
  induction n generalizing m k with
  | zero =>
    obtain ⟨rfl, rfl⟩ : m = 0 ∧ k = 0 := by omega
    exact .same 0
  | succ n ih =>
    unfold climb
    split
    · next h => exact h ▸ .same m
    · split
      · next h =>
        have := parent m (by omega) hm
        exact .left h (ih (by omega) hk (by omega))
      · have := parent k (by omega) hk
        exact .right (by omega) (ih hm (by omega) (by omega))

include parent_lt in
theorem climbs_meet {m k : Nat} (hm : m < tree.length) (hk : k < tree.length) :
    Climbs tree m k (meet tree m k) := by
  apply climbs_climb parent_lt hm hk
  obtain ⟨n, hn⟩ : ∃ n, tree.length = n + 1 := ⟨tree.length - 1, by omega⟩
  rw [hn]
  calc m + k ≤ n + n := by omega
    _ ≤ (n + 1) * (n + 1) := by
      have := Nat.le_mul_self n
      rw [Nat.succ_mul, Nat.mul_succ]
      omega

end Climb

end LoopTree

section Agreement

variable {σ α β : Type} {s : σ}

theorem run_bind_congr {m m' : StateM σ α} {f f' : α → StateM σ β} (h : m.run s = m'.run s)
    (hf : post m' (fun a t => (f a).run t = (f' a).run t) s) :
    (m >>= f).run s = (m' >>= f').run s := by
  rw [StateT.run_bind, StateT.run_bind, h]
  exact hf

end Agreement

namespace CyclicPath

def searchStep (g : Graph) (start marker : Nat) (next : Nat → Nat → StateM Search Bool)
    (b backEdges : Nat) : StateM Search Bool := do
  let s ← get
  match decided? g start marker s b backEdges, g.block? b with
  | some answer, _ => return answer
  | none, none => return false
  | none, some block =>
    if 0 < backEdges ∧ block.rank ≤ s.startRank then return false
    set (s.enter marker b backEdges block)
    let found ← tryEdges g start marker backEdges block next (g.incomingByRank block)
    if found then return true
    modify fun t => t.leave b backEdges s.startRank
    return false

def searchOver (g : Graph) (start marker : Nat) (bottom : Nat → Nat → StateM Search Bool) :
    Nat → Nat → Nat → StateM Search Bool
  | 0 => bottom
  | depth + 1 => searchStep g start marker (searchOver g start marker bottom depth)

variable {g : Graph} {start marker : Nat}

theorem Trail.length_le (hg : g.WellFormed) {blocks edges : List Nat} {last : Nat}
    (h : Trail g start marker blocks edges last) (hn : blocks.Nodup) :
    blocks.length ≤ g.blocks.length := by
  have sub : blocks ⊆ List.range g.blocks.length := by
    clear hn
    induction h with
    | nil => simp
    | @cons blocks edges b e edge _ _ he hs _ _ ih =>
      apply List.cons_subset.mpr ⟨_, ih⟩
      exact List.mem_range.mpr (hs ▸ hg.sink_lt e edge he)
  simpa using (List.subperm_of_subset hn sub).length_le

theorem tryEdges_congr {b backEdges : Nat} {block : Block} {blocks : List Nat}
    {next next' : Nat → Nat → StateM Search Bool}
    (hnext : ∀ c k s, s.Sound → Trail g start marker s.blocks s.edges c →
      post (next' c k) (Outcome g start marker s) s)
    (hrun : ∀ c k s, s.Sound → Trail g start marker s.blocks s.edges c → s.blocks = b :: blocks →
      (next c k).run s = (next' c k).run s)
    {edges : List Nat} (he : ∀ e ∈ edges, ∃ edge, g.edge? e = some edge ∧ edge.sink = b)
    {s : Search} (hs : s.Sound) (hb : s.blocks = b :: blocks)
    (ht : Trail g start marker blocks s.edges b) :
    (tryEdges g start marker backEdges block next edges).run s =
      (tryEdges g start marker backEdges block next' edges).run s := by
  -- an edge that fails leaves the path as it was, so the next one starts alike on both sides
  induction edges generalizing s with
  | nil => rfl
  | cons e rest ih =>
    obtain ⟨edge, hedge, hsink⟩ := he e List.mem_cons_self
    have later : ∀ t : Search, t.Sound → t.blocks = s.blocks → t.edges = s.edges →
        (tryEdges g start marker backEdges block next rest).run t =
          (tryEdges g start marker backEdges block next' rest).run t := by
      intro t hts htb hte
      exact ih (fun e' h => he e' (List.mem_cons_of_mem e h)) hts (htb.trans hb) (hte ▸ ht)
    unfold tryEdges
    rw [hedge]
    dsimp only
    cases hsource : g.block? edge.source with
    | none => exact later s hs rfl rfl
    | some source =>
      dsimp only
      split
      · next hfollow =>
        have trail := hb ▸ ht.follow hedge hsink hsource hfollow
        have hs' : ({ s with edges := e :: s.edges } : Search).Sound := ⟨hs.nodup, hs.onPath⟩
        apply run_bind_congr rfl
        rw [post_modify]
        apply run_bind_congr (hrun _ _ _ hs' trail hb)
        apply post_imp (hnext _ _ { s with edges := e :: s.edges } hs' trail)
        intro found t h
        cases found with
        | true => rfl
        | false =>
          obtain ⟨hblocks, hedges⟩ := h.kept rfl
          exact later _ ⟨h.sound.nodup, h.sound.onPath⟩ hblocks (by simp [hedges])
      · exact later s hs rfl rfl

theorem search_succ (depth b backEdges : Nat) :
    search g start marker (depth + 1) b backEdges =
      searchStep g start marker (search g start marker depth) b backEdges := rfl

/-- With more levels than there are blocks off the path, what lies below them does not matter. -/
theorem searchOver_run (hg : g.WellFormed) (bottom : Nat → Nat → StateM Search Bool)
    {depth fuel : Nat} (b backEdges : Nat) {s : Search} (hs : s.Sound)
    (ht : Trail g start marker s.blocks s.edges b)
    (hd : g.blocks.length < depth + s.blocks.length)
    (hf : g.blocks.length < fuel + s.blocks.length) :
    (searchOver g start marker bottom depth b backEdges).run s =
      (search g start marker fuel b backEdges).run s := by
  have room := ht.length_le hg hs.nodup
  -- each level puts a new block on the path, so the sums in `hd` and `hf` do not fall
  induction depth generalizing fuel b backEdges s with
  | zero => omega
  | succ depth ih =>
    obtain ⟨fuel, rfl⟩ : ∃ n, fuel = n + 1 := ⟨fuel - 1, by omega⟩
    rw [search_succ, searchOver]
    unfold searchStep
    apply run_bind_congr rfl
    rw [post_get]
    cases hdecided : decided? g start marker s b backEdges with
    | some answer => rfl
    | none =>
      cases hb : g.block? b with
      | none => rfl
      | some block =>
        have new : b ∉ s.blocks := by
          intro hm
          simp [decided?, (hs.onPath b).mpr hm] at hdecided
        have sinks : ∀ e ∈ g.incomingByRank block, ∃ edge,
            g.edge? e = some edge ∧ edge.sink = b :=
          fun e he => hg.mem_incoming hb ((mem_sortBy _ e _).mp he)
        have deeper : ∀ c k t, t.Sound → Trail g start marker t.blocks t.edges c →
            t.blocks = b :: s.blocks → (searchOver g start marker bottom depth c k).run t =
              (search g start marker fuel c k).run t := by
          intro c k t hts htt htb
          have length : t.blocks.length = s.blocks.length + 1 := by simp [htb]
          exact ih c k hts htt (by omega) (by omega) (htt.length_le hg hts.nodup)
        dsimp only
        split
        · rfl
        · apply run_bind_congr rfl
          rw [post_set]
          have entered : (s.enter marker b backEdges block).Sound := hs.enter new backEdges block
          apply run_bind_congr _ rfl
          exact tryEdges_congr (fun c k _ hs' ht' => search_outcome hg fuel c k hs' ht') deeper
            sinks entered rfl ht

/-- The search for a path ends: the depth to which it may go is never reached, and each climb
through the loop tree comes to one loop. -/
structure Ends (g : Graph) (start marker : Nat) : Prop where
  depth : ∀ (bottom : Nat → Nat → StateM Search Bool) (depth : Nat) (startRank : Int),
    g.blocks.length < depth →
      (searchOver g start marker bottom depth start 0).run { startRank } =
        (search g start marker (g.blocks.length + 1) start 0).run { startRank }
  climb : ∀ m k, m < g.loopTree.length → k < g.loopTree.length →
    LoopTree.Climbs g.loopTree m k (LoopTree.meet g.loopTree m k)

theorem ends (hg : g.WellFormed) (start marker : Nat) : Ends g start marker where
  depth bottom depth startRank h := by
    apply searchOver_run hg bottom start 0 (s := { startRank })
    · exact ⟨List.nodup_nil, by simp⟩
    · exact .nil
    · simpa using h
    · simp
  climb _ _ hm hk := LoopTree.climbs_meet hg.parent_lt hm hk

end CyclicPath

end AddressFormulas
