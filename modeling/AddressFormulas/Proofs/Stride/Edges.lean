import AddressFormulas.Proofs.Walk.Edges
import AddressFormulas.Proofs.Walk.Rules
import AddressFormulas.Stride.Slicer

namespace AddressFormulas.Stride

open WalkM Slicer

def turns (task : Task) (e : Nat) : Nat := if task.graph.isLoopBackEdge task.marker e then 1 else 0

def crossed (count : Nat) (w : Walk StrideState) : Walk StrideState :=
  { w with client := { w.client with backEdges := w.client.backEdges + count } }

def uncrossed (count : Nat) (w : Walk StrideState) : Walk StrideState :=
  { w with client := { w.client with backEdges := w.client.backEdges - count } }

variable {task : Task} {p : CyclicPath} {b e taken : Nat} {edge : Edge} {w : Walk StrideState}

theorem enterEdge_run (hp : w.client.path = some p) (he : task.graph.edge? e = some edge) :
    enterEdge task e w =
      if p.takesEdge task.graph e then .ok true (crossed (turns task e) w) else .ok false w := by
  change (require (task.graph.edge? e) >>= _) w = _
  rw [he]
  change (if w.client.path.any (·.takesEdge task.graph e) then _ else _ : M Bool) w = _
  rw [hp, Option.any_some]
  unfold turns
  split
  · split
    · rfl
    · rfl
  · rfl

theorem leaveEdge_run (e : Nat) (w : Walk StrideState) :
    leaveEdge task e w = .ok () (uncrossed (turns task e) w) := by
  unfold leaveEdge turns
  split
  · rfl
  · rfl

section Taken

variable (hp : w.client.path = some p) (hlookup : p.steps.lookup b = some taken) {edges : List Nat}
  (hedges : ∀ e ∈ edges, ∃ edge, task.graph.edge? e = some edge ∧ edge.sink = b)

include hp hlookup hedges

/-- What is done along edges into a block is done along the one of the path, if it is among them. -/
theorem wp_alongEdges {α : Type} {reg : Register} {across : Nat → M α} {enough : α → Bool} {last : M α}
    {Q : α → Walk StrideState → Prop} {E : Stop → Walk StrideState → Prop}
    (hlast : taken ∉ edges → wp last Q E w)
    (h : wp (across taken) (fun a w' => Q a (uncrossed (turns task taken) w')) E
      (crossed (turns task taken) w)) :
    wp ((slicer task).alongEdges reg across enough last edges) Q E w := by
  induction edges with
  | nil => exact hlast List.not_mem_nil
  | cons e rest ih =>
    obtain ⟨edge, he, hsink⟩ := hedges e List.mem_cons_self
    have takes : p.takesEdge task.graph e = true ↔ e = taken := by
      simp [CyclicPath.takesEdge, he, hsink, hlookup, eq_comm]
    by_cases hit : e = taken
    · subst hit
      have enters : enterEdge task e w = .ok true (crossed (turns task e) w) := by
        rw [enterEdge_run hp he, if_pos (takes.mpr rfl)]
      apply (wp_bind_of_run enters).mpr
      simp only [if_true]
      apply wp_bind.mpr
      apply wp_imp h
      intro a w' hw'
      apply (wp_bind_of_run (leaveEdge_run e w')).mpr
      split
      · exact hw'
      · exact hw'
    · have refuses : enterEdge task e w = .ok false w := by
        rw [enterEdge_run hp he, if_neg fun h => hit (takes.mp h)]
      apply (wp_bind_of_run refuses).mpr
      apply ih fun e' he' => hedges e' (List.mem_cons_of_mem _ he')
      intro others
      exact hlast fun found => (List.mem_cons.mp found).elim (fun h => hit h.symm) others

variable (he : task.graph.edge? taken = some edge) {source : Block}
  (hsource : task.graph.block? edge.source = some source)

include he hsource

theorem wp_walkEdges {walk : WalkFor StrideState} {reg : Register}
    {Q : Unit → Walk StrideState → Prop} {E : Stop → Walk StrideState → Prop}
    (hlast : taken ∉ edges → wp ((slicer task).leaveBlock b reg) Q E w)
    (h : wp (walk ⟨edge.source, source.ops.length⟩ reg w.bounds)
      (fun a w' => Q a (uncrossed (turns task taken) w')) E (crossed (turns task taken) w)) :
    wp ((slicer task).walkEdges task.graph walk b reg edges) Q E w := by
  rw [walkEdges_eq]
  apply wp_alongEdges hp hlookup hedges hlast
  unfold walkAcross
  simp only [wp_bind, he, wp_require_some, hsource, wp_get]
  exact h

theorem wp_followEdges {follow : FollowFor StrideState} {address : Formula}
    {Q : Option Register → Walk StrideState → Prop} {E : Stop → Walk StrideState → Prop}
    (hlast : taken ∉ edges → wp ((slicer task).leaveBlock b .absent) (fun _ => Q none) E w)
    (h : wp (follow ⟨edge.source, source.ops.length⟩ address)
      (fun found w' => Q found (uncrossed (turns task taken) w')) E (crossed (turns task taken) w)) :
    wp ((slicer task).followEdges task.graph follow b address edges) Q E w := by
  rw [followEdges_eq]
  apply wp_alongEdges hp hlookup hedges fun absent => wp_bind.mpr (hlast absent)
  unfold followAcross
  simp only [wp_bind, he, wp_require_some, hsource]
  exact h

end Taken

end AddressFormulas.Stride
