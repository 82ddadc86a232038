import AddressFormulas.Proofs.Base.Congruence
import AddressFormulas.Proofs.Walk.Agreement

namespace AddressFormulas.Base

open WalkM

def calleeBehind? (g : Graph) (block : Block) : Option Nat :=
  ((block.outgoing.head?.bind g.edge?).bind fun e => g.block? e.sink).bind fun b =>
    match b.kind with
    | .surrogate target => some target
    | .code => none

def BlockSeenAlike (g g' : Graph) (b : Nat) : Prop :=
  g.block? b = none ∧ g'.block? b = none ∨
    ∃ block block', g.block? b = some block ∧ g'.block? b = some block' ∧
      block'.start = block.start ∧ block'.isEntry = block.isEntry ∧
      calleeBehind? g' block' = calleeBehind? g block

variable {E : Stop → Prop} {B : Nat → Prop} {settings settings' : Settings} {g g' : Graph}

theorem push_agree (reg : Register) (f : Formula) : Agree E B (push reg f) (push reg f) :=
  .modifyClient _

theorem pushSite_agree (site : Site) (f : Formula) : Agree E B (pushSite site f) (pushSite site f) :=
  .modifyClient _

theorem claim_agree (reg : Register) : Agree E B (claim reg) (claim reg) := .claim _ _ _

theorem claimSite_agree (site : Site) : Agree E B (claimSite site) (claimSite site) := by
  refine .bind .client fun st => ?_
  split
  · exact .ok _
  · exact .bind (.modifyClient _) fun _ => .ok _

theorem callValue_agree {u : Placed} (hg : BlockSeenAlike g g' u.block) :
    Agree E B (callValue g u) (callValue g' u) := by
  obtain ⟨h, h'⟩ | ⟨block, block', h, h', _, _, callee⟩ := hg
  · exact .require_none h h'
  · refine .require_some h h' ?_
    change Agree E B (pure (Formula.call u.op.site ((calleeBehind? g block <|> u.op.target).getD 0)))
      (pure (Formula.call u.op.site ((calleeBehind? g' block' <|> u.op.target).getD 0)))
    rw [callee]
    exact .ok _

theorem congruence_agree (hs : settings.Agree E settings') :
    Congruence settings settings' fun _ m m' => Agree E B m m' where
  ok := .ok
  bind := .bind
  tell := .tell
  report _ := .report hs.strict _
  claim := claim_agree
  claimSite := claimSite_agree
  followSpills := hs.followSpills
  showValues := hs.showValues
  read := .read
  setStart _ := .change _ fun _ h => h
  push := push_agree
  pushSite := pushSite_agree
  define _ _ := .modifyClient _

theorem enterBlock_agree {b : Nat} (hg : BlockSeenAlike g g' b) (reg : Register) :
    Agree E B (enterBlock g b reg) (enterBlock g' b reg) := by
  obtain ⟨h, h'⟩ | ⟨block, block', h, h', start, entry, _⟩ := hg
  · exact .require_none h h'
  · refine .require_some h h' (.bind .read fun w => ?_)
    rw [start, entry]
    dsimp only
    split
    · exact .bind (push_agree _ _) fun _ => .ok _
    · split
      · exact .bind (push_agree _ _) fun _ => .ok _
      · exact .ok _

theorem leaveBlock_agree {b : Nat} (hg : BlockSeenAlike g g' b) (reg : Register) :
    Agree E B (leaveBlock g b reg) (leaveBlock g' b reg) := by
  obtain ⟨h, h'⟩ | ⟨block, block', h, h', start, _⟩ := hg
  · exact .require_none h h'
  · refine .require_some h h' ?_
    rw [start]
    exact push_agree _ _

theorem slicer_hooksAgree (hs : settings.Agree E settings') (hb : B 0) {D : Nat → Prop}
    (hg : ∀ b, D b → BlockSeenAlike g g' b) :
    (slicer settings g).HooksAgree E B D (slicer settings' g') where
  unbounded := hb
  strict := hs.strict
  bases := rfl
  bound _ := .ok _
  start _ _ := .ok _
  enterOp _ _ _ hf _ reg hu := (congruence_agree hs).enterOp _ _ (fun _ => hf _ _ hu) reg
  leaveOp _ reg hu := (congruence_agree hs).leaveOp g g' (callValue_agree (hg _ hu)) reg
  enterBlock b reg h := enterBlock_agree (hg b h) reg
  leaveBlock b reg h := leaveBlock_agree (hg b h) reg
  fixedValue _ _ _ := push_agree _ _

theorem blockSeenAlike_refl (g : Graph) (b : Nat) : BlockSeenAlike g g b := by
  cases h : g.block? b with
  | none => exact .inl ⟨h, h⟩
  | some block => exact .inr ⟨block, block, h, h, rfl, rfl, rfl⟩

theorem enterEdge_agree (e : Nat) : Agree E B (enterEdge g e) (enterEdge g e) :=
  .bind (.require _) fun _ => .bind (.require _) fun _ => .bind .read fun _ => .ok _

theorem slicer_agree (hs : settings.Agree E settings') (hb : B 0) :
    (slicer settings g).Agree E B (slicer settings' g) where
  toHooksAgree := slicer_hooksAgree hs hb fun b _ => blockSeenAlike_refl g b
  enterEdge e _ := enterEdge_agree e
  leaveEdge _ _ := .ok _
  tryOthers _ _ := .ok _

section Addresses

def AddressWalksAgree (E : Stop → Prop) (B : Nat → Prop) (settings settings' : Settings)
    (g g' : Graph) (u : Placed) : Prop :=
  ∀ reg, Agree E B
    ((slicer settings g).walk g settings.depth ⟨u.block, u.index⟩ reg ⟨u.op.pc, 0⟩)
    ((slicer settings' g').walk g' settings'.depth ⟨u.block, u.index⟩ reg ⟨u.op.pc, 0⟩)

theorem addressRegister_agree {u : Placed} (hw : AddressWalksAgree E B settings settings' g g' u)
    (reg : Register) :
    Agree E B (addressRegister settings g u reg) (addressRegister settings' g' u reg) := by
  unfold addressRegister
  split
  · exact .ok _
  · refine .bind (.modifyClient _) fun _ => .bind ?_ fun _ => claim_agree reg
    exact .bind (.ok _) fun _ => hw reg

theorem address_agree (hs : settings.Agree E settings') {b index : Nat} (opidx : Int)
    (ops : (g'.block? b).map Block.ops = (g.block? b).map Block.ops)
    (hw : ∀ op, g.op? b index = some op →
      AddressWalksAgree E B settings settings' g g' ⟨b, index, op⟩) :
    Agree E B (address settings g b index opidx) (address settings' g' b index opidx) := by
  cases hblock : g.block? b with
  | none =>
    rw [hblock] at ops
    exact .require_none hblock (by simpa using ops)
  | some block =>
    rw [hblock] at ops
    obtain ⟨block', hblock', same⟩ := Option.map_eq_some_iff.mp ops
    refine .require_some hblock hblock' ?_
    rw [same]
    refine .require_bind _ fun op hop => ?_
    split
    · exact .fail _
    · have registers := addressRegister_agree (hw op (Graph.op?_eq_some.mpr ⟨block, hblock, hop⟩))
      refine .bind ?_ fun _ => .bind (.tell _) fun _ => .ok _
      exact (congruence_agree hs).addressTerms g g' registers _ _

end Addresses

end AddressFormulas.Base
