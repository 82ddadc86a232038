import AddressFormulas.Loop.CyclicPath
import AddressFormulas.Proofs.Data.Sorting
import AddressFormulas.Proofs.Data.Table
import AddressFormulas.Proofs.Routine.WellFormed
import Mathlib.Data.List.Nodup

/-!
The search for a cyclic path. While it runs, its blocks and edges are a trail that leads backward
from the start, and no block is on the trail twice. When it finds a path, the trail has come back to
one of its blocks.
-/

namespace AddressFormulas

section Rules

variable {σ α β : Type}

def post (m : StateM σ α) (Q : α → σ → Prop) (s : σ) : Prop := Q (m.run s).1 (m.run s).2

variable {m : StateM σ α} {s : σ}

theorem post_imp {Q Q' : α → σ → Prop} (h : post m Q s) (hq : ∀ a t, Q a t → Q' a t) :
    post m Q' s := hq _ _ h

theorem post_bind {f : α → StateM σ β} {Q : β → σ → Prop} :
    post (m >>= f) Q s ↔ post m (fun a => post (f a) Q) s := Iff.rfl

theorem post_pure {Q : α → σ → Prop} (a : α) : post (pure a) Q s ↔ Q a s := Iff.rfl

theorem post_get {Q : σ → σ → Prop} : post get Q s ↔ Q s s := Iff.rfl

theorem post_set {Q : PUnit → σ → Prop} (t : σ) : post (set t) Q s ↔ Q () t := Iff.rfl

theorem post_modify {Q : PUnit → σ → Prop} (f : σ → σ) : post (modify f) Q s ↔ Q () (f s) := Iff.rfl

end Rules

namespace CyclicPath

/-- Going backward from `start` through `blocks` along `edges`, both newest first, leads to `b`. All
blocks that an edge leads to are in loop `marker` or in a loop after it. -/
inductive Trail (g : Graph) (start marker : Nat) : List Nat → List Nat → Nat → Prop
  | nil : Trail g start marker [] [] start
  | cons {blocks edges : List Nat} {b e : Nat} {edge : Edge} {source : Block} :
      Trail g start marker blocks edges b → g.edge? e = some edge → edge.sink = b →
        g.block? edge.source = some source → marker ≤ source.marker →
          Trail g start marker (b :: blocks) (e :: edges) edge.source

structure Search.Sound (s : Search) : Prop where
  nodup : s.blocks.Nodup
  onPath : ∀ b, s.visits.get? b = some .onPath ↔ b ∈ s.blocks

/-- A search that began in the state `s` ends in the state `t`: with a trail that has come back to
one of its blocks, or with the path that it began with. -/
structure Outcome (g : Graph) (start marker : Nat) (s : Search) (found : Bool) (t : Search) :
    Prop where
  sound : t.Sound
  closed : found = true → ∃ b, Trail g start marker t.blocks t.edges b ∧ b ∈ t.blocks ∧
    (b = start ∨ backEdgeBefore g marker b (t.blocks.zip t.edges) = true)
  kept : found = false → t.blocks = s.blocks ∧ t.edges = s.edges

variable {g : Graph} {start marker : Nat}

theorem Outcome.refuse {s : Search} (hs : s.Sound) : Outcome g start marker s false s :=
  ⟨hs, by simp, fun _ => ⟨rfl, rfl⟩⟩

theorem Search.Sound.enter {s : Search} (hs : s.Sound) {b : Nat} (hb : b ∉ s.blocks)
    (backEdges : Nat) (block : Block) : (s.enter marker b backEdges block).Sound where
  nodup := List.nodup_cons.mpr ⟨hb, hs.nodup⟩
  onPath c := by
    simp only [Search.enter, Table.get?_insert, List.mem_cons]
    by_cases hc : c = b
    · simp [hc]
    · simp [hc, hs.onPath c]

theorem Search.Sound.leave {s : Search} (hs : s.Sound) {b : Nat} {blocks : List Nat}
    (hb : s.blocks = b :: blocks) (backEdges : Nat) (startRank : Int) :
    (s.leave b backEdges startRank).Sound := by
  obtain ⟨hn, hnodup⟩ := List.nodup_cons.mp (hb ▸ hs.nodup)
  refine ⟨by simpa [Search.leave, hb] using hnodup, fun c => ?_⟩
  simp only [Search.leave, Table.get?_insert, hb, List.tail_cons]
  by_cases hc : c = b
  · subst hc
    simp only [if_true, Option.some.injEq, hn, iff_false]
    split <;> simp
  · have := hs.onPath c
    simpa [hc, hb] using this

theorem Trail.follow {blocks edges : List Nat} {b e : Nat} {edge : Edge} {block source : Block}
    (h : Trail g start marker blocks edges b) (hedge : g.edge? e = some edge)
    (hsink : edge.sink = b) (hsource : g.block? edge.source = some source)
    (hf : mayFollow g start marker block edge source = true) :
    Trail g start marker (b :: blocks) (e :: edges) edge.source := by
  simp only [mayFollow, Bool.and_eq_true, decide_eq_true_eq] at hf
  exact .cons h hedge hsink hsource hf.1

theorem tryEdges_outcome {b backEdges : Nat} {block : Block}
    {next : Nat → Nat → StateM Search Bool}
    (hnext : ∀ c k s, s.Sound → Trail g start marker s.blocks s.edges c →
      post (next c k) (Outcome g start marker s) s)
    {edges : List Nat} (he : ∀ e ∈ edges, ∃ edge, g.edge? e = some edge ∧ edge.sink = b)
    {s : Search} {blocks : List Nat} (hs : s.Sound) (hb : s.blocks = b :: blocks)
    (ht : Trail g start marker blocks s.edges b) :
    post (tryEdges g start marker backEdges block next edges) (Outcome g start marker s) s := by
  -- an edge that fails leaves the path as it was, so the next one starts from the same trail
  induction edges generalizing s with
  | nil => exact .refuse hs
  | cons e rest ih =>
    obtain ⟨edge, hedge, hsink⟩ := he e List.mem_cons_self
    have later : ∀ t : Search, t.Sound → t.blocks = s.blocks → t.edges = s.edges →
        post (tryEdges g start marker backEdges block next rest) (Outcome g start marker s) t := by
      intro t hts htb hte
      have := ih (fun e' h => he e' (List.mem_cons_of_mem e h)) hts (htb.trans hb) (hte ▸ ht)
      exact post_imp this fun found t' h => ⟨h.sound, h.closed, fun hf => by
        obtain ⟨h₁, h₂⟩ := h.kept hf
        exact ⟨h₁.trans htb, h₂.trans hte⟩⟩
    unfold tryEdges
    rw [hedge]
    dsimp only
    split
    · exact later s hs rfl rfl
    · next source hsource =>
      split
      · next hfollow =>
        have trail := hb ▸ ht.follow hedge hsink hsource hfollow
        rw [post_bind, post_modify, post_bind]
        refine post_imp (hnext _ _ { s with edges := e :: s.edges } ⟨hs.nodup, hs.onPath⟩ trail) ?_
        intro found t h
        cases found with
        | true => exact ⟨h.sound, h.closed, by simp⟩
        | false =>
          obtain ⟨hblocks, hedges⟩ := h.kept rfl
          exact later _ ⟨h.sound.nodup, h.sound.onPath⟩ hblocks (by simp [hedges])
      · exact later s hs rfl rfl

theorem search_outcome (hg : g.WellFormed) (depth b backEdges : Nat) {s : Search} (hs : s.Sound)
    (ht : Trail g start marker s.blocks s.edges b) :
    post (search g start marker depth b backEdges) (Outcome g start marker s) s := by
  induction depth generalizing b backEdges s with
  | zero => exact .refuse hs
  | succ depth ih =>
    unfold search
    rw [post_bind, post_get]
    split
    · next answer hd =>
      -- only a block on the path can close the trail
      rw [post_pure]
      refine ⟨hs, fun ha => ⟨b, ht, ?_⟩, fun _ => ⟨rfl, rfl⟩⟩
      unfold decided? at hd
      split at hd
      · next hv =>
        refine ⟨(hs.onPath b).mp hv, ?_⟩
        rw [ha, Option.some.injEq] at hd
        simp only [closesCycle, Bool.or_eq_true, Bool.and_eq_true, decide_eq_true_eq] at hd
        exact hd.imp (·.1) (·.2)
      · split at hd <;> simp_all
      · split at hd <;> simp_all
      · cases hd
    · exact .refuse hs
    · next block hd hb =>
      have new : b ∉ s.blocks := by
        intro hm
        simp [decided?, (hs.onPath b).mpr hm] at hd
      split
      · exact .refuse hs
      · rw [post_bind, post_set, post_bind]
        have sinks : ∀ e ∈ g.incomingByRank block, ∃ edge, g.edge? e = some edge ∧ edge.sink = b :=
          fun e he => hg.mem_incoming hb ((mem_sortBy _ e _).mp he)
        refine post_imp (tryEdges_outcome (fun c k s' hs' ht' => ih c k hs' ht') sinks
          (hs.enter new backEdges block) rfl ht) ?_
        intro found t h
        cases found with
        | true => exact ⟨h.sound, h.closed, by simp⟩
        | false =>
          obtain ⟨hblocks, hedges⟩ := h.kept rfl
          refine ⟨h.sound.leave hblocks backEdges s.startRank, by simp, fun _ => ⟨?_, hedges⟩⟩
          exact congrArg List.tail hblocks

theorem Trail.edge_at {blocks edges : List Nat} {last : Nat} (h : Trail g start marker blocks edges last) :
    blocks.length = edges.length ∧ (blocks.reverse ++ [last])[0]? = some start ∧
      ∀ i < blocks.length, ∃ e edge, edges.reverse[i]? = some e ∧ g.edge? e = some edge ∧
        (blocks.reverse ++ [last])[i]? = some edge.sink ∧
        (blocks.reverse ++ [last])[i + 1]? = some edge.source := by
  induction h with
  | nil => simp
  | @cons blocks edges b e edge _ _ he hs _ _ ih =>
    obtain ⟨hl, hstart, ih⟩ := ih
    refine ⟨by simp [hl], ?_, fun i hi => ?_⟩
    · rw [List.reverse_cons, List.getElem?_append_left (by simp)]
      exact hstart
    · by_cases hib : i < blocks.length
      · obtain ⟨e', edge', h₁, h₂, h₃, h₄⟩ := ih i hib
        refine ⟨e', edge', ?_, h₂, ?_, ?_⟩
        · rw [List.reverse_cons, List.getElem?_append_left (by simp; omega)]
          exact h₁
        · rw [List.reverse_cons, List.getElem?_append_left (by simp; omega)]
          exact h₃
        · rw [List.reverse_cons, List.getElem?_append_left (by simp; omega)]
          exact h₄
      · obtain rfl : i = blocks.length := by simp at hi; omega
        refine ⟨e, edge, ?_, he, ?_, ?_⟩
        · simp [hl]
        · simp [hs]
        · simp

theorem Trail.inside {blocks edges : List Nat} {last : Nat}
    (h : Trail g start marker blocks edges last) :
    ∀ b ∈ (blocks.reverse ++ [last]).tail, ∃ block, g.block? b = some block ∧
      marker ≤ block.marker := by
  induction h with
  | nil => simp
  | @cons blocks edges b e edge source _ _ _ hsource hle ih =>
    intro c hc
    rw [List.reverse_cons, List.tail_append_of_ne_nil (by simp), List.mem_append] at hc
    obtain hc | hc := hc
    · exact ih c hc
    · rw [List.mem_singleton] at hc
      exact ⟨source, hc ▸ hsource, hle⟩

theorem exists_of_backEdgeBefore {b : Nat} {steps : List (Nat × Nat)}
    (h : backEdgeBefore g marker b steps = true) :
    ∃ (i : Nat) (step : Nat × Nat), steps[i]? = some step ∧ g.isLoopBackEdge marker step.2 = true ∧
      ∀ k < i, ∀ other : Nat × Nat, steps[k]? = some other → other.1 ≠ b := by
  induction steps with
  | nil => cases h
  | cons step rest ih =>
    simp only [backEdgeBefore, Bool.or_eq_true, Bool.and_eq_true, decide_eq_true_eq] at h
    obtain h | ⟨hb, h⟩ := h
    · exact ⟨0, step, rfl, h, by simp⟩
    · obtain ⟨i, step', hi, hback, hother⟩ := ih h
      refine ⟨i + 1, step', hi, hback, fun k hk other ho => ?_⟩
      cases k with
      | zero => simp at ho; exact ho ▸ hb
      | succ k => exact hother k (by omega) other ho

end CyclicPath

end AddressFormulas
