import AddressFormulas.Diagnostic.Event
import AddressFormulas.Formula.OperandTable
import AddressFormulas.Routine.Graph

/-!
Backward walks through a routine. A walk looks for the definition of a register and hands what it
meets to a `Slicer`, which decides what is followed and keeps the values. A walk that stops early
keeps the state that it had reached.
-/

namespace AddressFormulas

/-- The addresses of interest: where the walk was asked for, and below which it does not go. A lower
bound of zero is none. -/
structure Bounds where
  start : Nat := 0
  stop : Nat := 0
  deriving DecidableEq, Repr

/-- A place in a routine: before the micro-op `before` of a block, or at the end of the block if it
has no such micro-op. -/
structure Position where
  block : Nat
  before : Nat
  deriving DecidableEq, Repr

structure Placed where
  block : Nat
  index : Nat
  op : MicroOp
  deriving DecidableEq, Repr

inductive Stop where
  | failed (f : Failure)
  | missing
  | exhausted
  deriving DecidableEq, Repr

structure Walk (σ : Type) where
  client : σ
  bounds : Bounds := {}
  journal : Journal := []

abbrev WalkM (σ : Type) := EStateM Stop (Walk σ)

namespace WalkM

variable {σ : Type}

def tell (e : Event) : WalkM σ Unit :=
  modify fun w => { w with journal := e :: w.journal }

def tellAll : List Event → WalkM σ Unit
  | [] => pure ()
  | e :: es => do
    tell e
    tellAll es

def fail {α : Type} (f : Failure) : WalkM σ α := throw (.failed f)

def report (strict : Bool) (f : Failure) : WalkM σ Unit := do
  tell (.failure f)
  if strict || !f.isCoverageGap then fail f

def client : WalkM σ σ := return (← get).client

def modifyClient (f : σ → σ) : WalkM σ Unit :=
  modify fun w => { w with client := f w.client }

def require {α : Type} : Option α → WalkM σ α
  | some a => pure a
  | none => throw .missing

def classify (u : MicroOp) : WalkM σ Effect := do
  tellAll u.effectEvents
  return u.effect

def claim {α : Type} (values : σ → Pending α) (setValues : Pending α → σ → σ) (reg : Register) :
    WalkM σ (Option α) := do
  match (values (← client)).claim? reg with
  | none => return none
  | some c =>
    modifyClient (setValues c.rest)
    tellAll (c.events reg)
    return some c.value

end WalkM

/-- What decides about a walk and keeps its values. The defaults follow every definition and every
edge, one path at a time, and keep nothing. -/
structure Slicer (σ : Type) where
  strict : Bool := false
  bases : σ → OperandTable := fun _ => {}
  bound : Bounds → WalkM σ Unit := fun _ => pure ()
  start : Position → Register → WalkM σ Unit := fun _ _ => pure ()
  /-- A definition of a register is met; whether to walk for its sources. The first argument looks
  for a store to an address before a place. -/
  enterOp : (Position → Formula → WalkM σ (Option Register)) → Placed → Register → WalkM σ Bool :=
    fun _ _ _ => pure true
  leaveOp : Placed → Register → WalkM σ Unit := fun _ _ => pure ()
  enterEdge : Nat → Register → WalkM σ Bool := fun _ _ => pure true
  leaveEdge : Nat → Register → WalkM σ Unit := fun _ _ => pure ()
  enterBlock : Nat → Register → WalkM σ Bool := fun _ _ => pure true
  leaveBlock : Nat → Register → WalkM σ Unit := fun _ _ => pure ()
  /-- Whether to try further edges after one that was followed. -/
  tryOthers : Nat → Register → WalkM σ Bool := fun _ _ => pure false
  fixedValue : Register → MicroOp → Int → WalkM σ Unit := fun _ _ _ => pure ()

end AddressFormulas
