import AddressFormulas.Proofs.Base.Congruence
import AddressFormulas.Proofs.Walk.Safety

namespace AddressFormulas.Base

open WalkM

variable {settings : Settings} {g : Graph}

def knownBases (w : Walk BaseState) : OperandTable := w.client.bases

abbrev M.Safe {α : Type} (m : M α) : Prop := WalkM.Safe m knownBases

section Actions

variable {E : Stop → Prop}

abbrev M.Keeps (E : Stop → Prop) {α : Type} (m : M α) : Prop := WalkM.StopsOnly E knownBases m

theorem push_keeps (reg : Register) (f : Formula) : (push reg f).Keeps E := .modifyClient _ fun _ => rfl

theorem pushSite_keeps (site : Site) (f : Formula) : (pushSite site f).Keeps E := .modifyClient _ fun _ => rfl

theorem claim_keeps (reg : Register) : (claim reg).Keeps E := .claim _ _ _ (fun _ _ => rfl) fun _ _ => rfl

theorem claimSite_keeps (site : Site) : (claimSite site).Keeps E := by
  refine .bind .client fun st => ?_
  split
  · exact .ok _
  · exact .bind (.modifyClient _ fun _ => rfl) fun _ => .ok _

theorem congruence_keeps (hs : Tolerates E settings.strict) :
    Congruence settings settings fun _ m _ => m.Keeps E where
  ok := .ok
  bind := .bind
  tell e := .tell e fun _ => rfl
  report hf := .report_gap hs hf fun _ => rfl
  claim := claim_keeps
  claimSite := claimSite_keeps
  followSpills := rfl
  showValues := rfl
  read := .read
  setStart _ := .change _ fun _ => rfl
  push := push_keeps
  pushSite := pushSite_keeps
  define _ _ := .modifyClient _ fun _ => rfl

theorem callValue_keeps (u : Placed) (hu : (g.block? u.block).isSome ∨ E .missing) :
    (callValue g u).Keeps E :=
  .bind (.require_or hu) fun _ => .ok _

theorem enterOp_keeps (hs : Tolerates E settings.strict) {follow : Slicer.FollowFor BaseState}
    (u : Placed) (reg : Register) (hf : ∀ address, M.Keeps E (follow ⟨u.block, u.index⟩ address)) :
    (enterOp settings follow u reg).Keeps E :=
  (congruence_keeps hs).enterOp follow follow hf reg

theorem leaveOp_keeps (hs : Tolerates E settings.strict) (u : Placed) (reg : Register)
    (hu : (g.block? u.block).isSome ∨ E .missing) : (leaveOp settings g u reg).Keeps E :=
  (congruence_keeps hs).leaveOp g g (callValue_keeps u hu) reg

theorem enterBlock_keeps (b : Nat) (reg : Register) (hb : (g.block? b).isSome ∨ E .missing) :
    (enterBlock g b reg).Keeps E := by
  refine .bind (.require_or hb) fun block => .bind .read fun w => ?_
  dsimp only
  split
  · exact .bind (push_keeps _ _) fun _ => .ok _
  · split
    · exact .bind (push_keeps _ _) fun _ => .ok _
    · exact .ok _

theorem leaveBlock_keeps (b : Nat) (reg : Register) (hb : (g.block? b).isSome ∨ E .missing) :
    (leaveBlock g b reg).Keeps E :=
  .bind (.require_or hb) fun _ => push_keeps _ _

end Actions

theorem slicer_isSafe (hs : settings.strict = false) : (slicer settings g).IsSafe g knownBases where
  lax := hs
  unheard _ _ := rfl
  unbounded _ _ := rfl
  bound _ := .ok _
  start _ _ _ := .ok _
  enterOp _ hf u reg hu := enterOp_keeps (tolerates_of_lax hs) u reg fun address => hf _ address hu
  leaveOp u reg hu := leaveOp_keeps (tolerates_of_lax hs) u reg (.inl hu)
  enterEdge _ _ _ he hsource :=
    .require_bind he (.bind (.require hsource) fun _ => .bind .read fun _ => .ok _)
  leaveEdge _ _ := .ok _
  enterBlock b reg hb := enterBlock_keeps b reg (.inl hb)
  leaveBlock b reg hb := leaveBlock_keeps b reg (.inl hb)
  tryOthers _ _ := .ok _
  fixedValue _ _ _ := push_keeps _ _

theorem addressRegister_safe (hs : settings.strict = false) (hg : g.WellFormed) (u : Placed)
    (reg : Register) (hu : (g.block? u.block).isSome) :
    (addressRegister settings g u reg).Safe := by
  have walks := ((slicer_isSafe hs).walk_and_follow hg settings.depth).1
  unfold addressRegister
  split
  · exact .ok _
  · refine .bind (.modifyClient _ fun _ => rfl) fun _ => .bind ?_ fun _ => claim_keeps reg
    exact (slicer_isSafe hs).sliceWith walks _ reg _ hu

theorem addressTerms_safe (hs : settings.strict = false) (hg : g.WellFormed) (u : Placed)
    (hu : (g.block? u.block).isSome) (terms : List (TermKey × Term)) (sum : Formula) :
    (addressTerms settings g u terms sum).Safe :=
  (congruence_keeps (tolerates_of_lax hs)).addressTerms g g
    (fun reg => addressRegister_safe hs hg u reg hu) terms sum

theorem address_safe (hs : settings.strict = false) (hg : g.WellFormed) {b index : Nat}
    {opidx : Int} {block : Block} {op : MicroOp} (hb : g.block? b = some block)
    (ho : block.ops[index]? = some op) (hm : ∃ m ∈ op.memoryOperands, m.opidx = opidx) :
    (address settings g b index opidx).Safe := by
  obtain ⟨m, hm, hi⟩ := hm
  refine .require_bind hb (.require_bind ho ?_)
  split
  · next hn => exact absurd hi (by simpa using List.find?_eq_none.mp hn m hm)
  · exact .bind (addressTerms_safe hs hg _ (by simp [hb]) _ _) fun _ => .bind (.tell _ fun _ => rfl) fun _ => .ok _

end AddressFormulas.Base
