import AddressFormulas.Formula.Term

/-!
Pending values. Whoever computes the value of a register, or of a micro-op, puts it here; whoever
needs it claims it, which takes it away. A claim of a register gets the newest value of a register
that shares a bit with it.
-/

namespace AddressFormulas

inductive Slot where
  | register (r : Register)
  | site (s : Site)
  deriving DecidableEq, Repr

namespace Slot

def overlaps (reg : Register) : Slot → Bool
  | register r => r.overlaps reg
  | site _ => false

def text : Slot → String
  | register r => "Register(" ++ r.text ++ ")"
  | site s => "Site \x7b pc: " ++ Numeral.natural s.pc ++ ", idx: " ++ Numeral.decimal s.idx ++
      " \x7d"

end Slot

/-- The values that wait to be claimed, newest first. -/
structure Pending (α : Type) where
  newestFirst : List (Slot × α) := []
  deriving DecidableEq, Repr

structure Claim (α : Type) where
  slot : Slot
  value : α
  rest : Pending α

namespace Pending

variable {α : Type}

def size (p : Pending α) : Nat := p.newestFirst.length

def isEmpty (p : Pending α) : Bool := p.newestFirst.isEmpty

def oldestFirst (p : Pending α) : List (Slot × α) := p.newestFirst.reverse

/-- Put the value of `reg`. Nothing can claim a value of the absent register, so it is dropped. -/
def push (p : Pending α) (reg : Register) (a : α) : Pending α :=
  if reg.isAbsent then p else ⟨(.register reg, a) :: p.newestFirst⟩

def pushSite (p : Pending α) (site : Site) (a : α) : Pending α :=
  ⟨(.site site, a) :: p.newestFirst⟩

def takeFirst? (wanted : Slot → Bool) : List (Slot × α) → Option (Claim α)
  | [] => none
  | (slot, a) :: rest =>
    if wanted slot then some ⟨slot, a, ⟨rest⟩⟩
    else (takeFirst? wanted rest).map fun c => { c with rest := ⟨(slot, a) :: c.rest.newestFirst⟩ }

def claim? (p : Pending α) (reg : Register) : Option (Claim α) :=
  takeFirst? (·.overlaps reg) p.newestFirst

def claimSite? (p : Pending α) (site : Site) : Option (Claim α) :=
  takeFirst? (· = .site site) p.newestFirst

end Pending

end AddressFormulas
