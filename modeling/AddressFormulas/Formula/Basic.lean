import AddressFormulas.Formula.Access

/-!
Formulas: sums of terms with rational coefficients, together with the marks of the access they
describe. A coefficient that no longer fits in a word leaves the formula flagged as overflowed; its
terms then mean nothing.
-/

namespace AddressFormulas

/-- A sum of terms. Without terms it is the number zero. -/
structure Formula where
  terms : Table TermKey Term := {}
  access : Access := {}
  overflow : Bool := false
  deriving DecidableEq, Repr

namespace Formula

instance : Inhabited Formula := ⟨{}⟩

def zero : Formula := {}

/-- Add `coeff` times `key`; a term whose coefficient cancels is dropped. -/
def addTerm (f : Formula) (key : TermKey) (coeff : Coeff) (origin : Option Site) : Formula :=
  if coeff.isZero then f
  else
    match f.terms.get? key with
    | none => { f with terms := f.terms.insert key ⟨coeff, origin⟩ }
    | some t =>
      match t.coeff.add? coeff with
      | none => { f with overflow := true }
      | some c =>
        if c.isZero then { f with terms := f.terms.erase key }
        else { f with terms := f.terms.insert key { t with coeff := c } }

def ofTerm (key : TermKey) (coeff : Coeff) (origin : Option Site) : Formula :=
  zero.addTerm key coeff origin

def constant (v : Int) : Formula := ofTerm .constant (.ofInt v) none

def register (site : Site) (reg : Register) : Formula :=
  ofTerm (.register site reg) .one (some site)

def load (site : Site) (reg : Register) : Formula := ofTerm (.load site reg) .one (some site)

def reference (site : Site) (address : Int) : Formula :=
  ofTerm (.reference address) .one (some site)

def call (site : Site) (target : Nat) : Formula := ofTerm (.call site target) .one (some site)

def isConstant (f : Formula) : Bool := f.terms.keys.all TermKey.isConstant

def constantValue? (f : Formula) : Option Coeff :=
  if f.overflow then none
  else
    f.terms.entries.foldlM
      (fun acc (k, t) => if k.isConstant then acc.add? t.coeff else none) Coeff.zero

def isConstantValue (f : Formula) (v : Int) : Bool := f.constantValue? = some (.ofInt v)

def integral? (f : Formula) : Option Int := f.constantValue?.bind Coeff.integral?

/-- Equal keys with equal coefficients, whatever the origins and marks. -/
def sameTerms (f g : Formula) : Bool :=
  f.terms.size = g.terms.size &&
    (f.terms.entries.zip g.terms.entries).all fun (a, b) => a.1 = b.1 && a.2.coeff = b.2.coeff

/-- Some term other than the constant has a coefficient that is no integer. -/
def hasComplexDenominator (f : Formula) : Bool :=
  f.terms.entries.any fun (k, t) => !k.isConstant && t.coeff.isFractional

def definedBefore (f : Formula) (pc : Nat) : Bool :=
  f.terms.entries.any fun (k, t) => (t.definedAt? k).any (· < pc)

def markIrregular (f : Formula) : Formula := { f with access.irregular := true }

def markIndirect (f : Formula) : Formula := { f with access.indirect := .guaranteed }

def markLoad (f : Formula) (site : Site) : Formula :=
  { f with access.indirect := f.access.indirect.through site }

def markLoads (f : Formula) (sites : KeySet Site) : Formula :=
  if sites.isEmpty then f
  else { f with access.indirect := f.access.indirect.merge (.deferred sites) }

def inheritAccess (f g : Formula) : Formula := { f with access := f.access.merge g.access }

/-- Change one coefficient, or flag the formula if the result does not fit. -/
def mapEntries (op : Coeff → Option Coeff) :
    List (TermKey × Term) → List (TermKey × Term) × Bool
  | [] => ([], false)
  | (k, t) :: rest =>
    let (rest', overflow) := mapEntries op rest
    match op t.coeff with
    | some c => ((k, { t with coeff := c }) :: rest', overflow)
    | none => ((k, t) :: rest', true)

def mapCoeffs (f : Formula) (op : Coeff → Option Coeff) : Formula :=
  let (entries, overflow) := mapEntries op f.terms.entries
  { f with terms := ⟨entries⟩, overflow := f.overflow || overflow }

/-- Multiply by a rational number. Zero drops the marks along with the terms. -/
def scale (f : Formula) (c : Coeff) : Formula :=
  if c.isZero then { overflow := f.overflow } else f.mapCoeffs (·.mul? c)

def mul (f : Formula) (k : Int) : Formula := f.scale (.ofInt k)

/-- Divide every coefficient by `k`. A division by zero overflows. -/
def div (f : Formula) (k : Int) : Formula :=
  match Coeff.reduce? 1 k with
  | some inverse => f.scale inverse
  | none => { f with overflow := true }

def neg (f : Formula) : Formula := f.mapCoeffs Coeff.neg?

def add (f g : Formula) : Formula :=
  let sum := g.terms.entries.foldl (fun s (k, t) => s.addTerm k t.coeff t.origin) f
  { sum with access := sum.access.merge g.access, overflow := sum.overflow || g.overflow }

def sub (f g : Formula) : Formula := f.add g.neg

instance : Add Formula := ⟨add⟩

instance : Sub Formula := ⟨sub⟩

instance : Neg Formula := ⟨neg⟩

end Formula

end AddressFormulas
