import AddressFormulas.Walk.Engine

namespace AddressFormulas

inductive Call where
  | bound (bounds : Bounds)
  | enterOp (block index : Nat) (reg : Register) (answer : Bool)
  | leaveOp (block index : Nat) (reg : Register)
  | enterEdge (edge : Nat) (reg : Register) (answer : Bool)
  | leaveEdge (edge : Nat) (reg : Register)
  | enterBlock (block : Nat) (reg : Register) (answer : Bool)
  | leaveBlock (block : Nat) (reg : Register)
  | fixedValue (reg : Register) (site : Site) (value : Int)
  deriving DecidableEq, Repr

def Call.text : Call → String
  | bound b => "bounds " ++ Numeral.hex b.start ++ " " ++ Numeral.hex b.stop
  | enterOp b i reg _ => "in B" ++ Numeral.natural b ++ "." ++ Numeral.natural i ++ " " ++ reg.text
  | leaveOp b i reg => "out B" ++ Numeral.natural b ++ "." ++ Numeral.natural i ++ " " ++ reg.text
  | enterEdge e reg answer => "in E" ++ Numeral.natural e ++ " " ++ reg.text ++ " " ++
      (if answer then "true" else "false")
  | leaveEdge e reg => "out E" ++ Numeral.natural e ++ " " ++ reg.text
  | enterBlock b reg answer => "next-in B" ++ Numeral.natural b ++ " " ++ reg.text ++ " " ++
      (if answer then "true" else "false")
  | leaveBlock b reg => "next-out B" ++ Numeral.natural b ++ " " ++ reg.text
  | fixedValue reg s v => "value " ++ reg.text ++ " " ++ s.text ++ " " ++ Numeral.decimal v

structure Policy (μ : Type) where
  remember : Call → μ → μ := fun _ m => m
  entersOp : μ → Placed → Register → Bool := fun _ _ _ => true
  entersEdge : μ → Nat → Register → Bool := fun _ _ _ => true
  entersBlock : μ → Nat → Register → Bool := fun _ _ _ => true
  triesOthers : μ → Nat → Register → Bool := fun _ _ _ => false
  looksAt : MicroOp → List Event := fun _ => []

structure Record (μ : Type) where
  memory : μ
  calls : List Call := []

namespace Recorder

variable {μ : Type}

def note (policy : Policy μ) (c : Call) : WalkM (Record μ) Unit :=
  WalkM.modifyClient fun r => ⟨policy.remember c r.memory, c :: r.calls⟩

def answer (policy : Policy μ) (decide : μ → Bool) (call : Bool → Call) :
    WalkM (Record μ) Bool := do
  let answer := decide (← WalkM.client).memory
  note policy (call answer)
  return answer

def slicer (policy : Policy μ) (strict : Bool) (bases : OperandTable) : Slicer (Record μ) where
  strict := strict
  bases := fun _ => bases
  bound b := note policy (.bound b)
  enterOp _ u reg := do
    WalkM.tellAll (policy.looksAt u.op)
    answer policy (policy.entersOp · u reg) (.enterOp u.block u.index reg)
  leaveOp u reg := note policy (.leaveOp u.block u.index reg)
  enterEdge e reg := answer policy (policy.entersEdge · e reg) (.enterEdge e reg)
  leaveEdge e reg := note policy (.leaveEdge e reg)
  enterBlock b reg := answer policy (policy.entersBlock · b reg) (.enterBlock b reg)
  leaveBlock b reg := note policy (.leaveBlock b reg)
  tryOthers e reg := return policy.triesOthers (← WalkM.client).memory e reg
  fixedValue reg u v := note policy (.fixedValue reg u.site v)

/-- Enter micro-ops that compute from registers, or all of them, never go beyond an entry block, and
have only so many back edges open at a time: the memory is the number of those still allowed. -/
def budgeted (g : Graph) (everyOp severalPaths : Bool) : Policy Nat where
  remember
    | .enterEdge e _ true, n => if isBack e then n - 1 else n
    | .leaveEdge e _, n => if isBack e then n + 1 else n
    | _, n => n
  entersOp _ u _ := everyOp || u.op.effect = .normal
  entersEdge n e _ := !isBack e || 0 < n
  entersBlock _ b _ := !(g.block? b).any Block.isEntry
  triesOthers _ _ _ := severalPaths
  looksAt u := if everyOp then [] else u.effectEvents
where
  isBack (e : Nat) : Bool := (g.edge? e).any Edge.isBack

end Recorder

end AddressFormulas
