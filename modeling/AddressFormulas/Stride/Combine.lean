import AddressFormulas.MicroOp.Basic
import AddressFormulas.Stride.Kind

namespace AddressFormulas

/-- A formula, what it describes, and the visit of the cycle start on which it still depends. -/
structure StrideValue where
  formula : Formula
  kind : StrideKind := .invariant
  target : Nat := 0
  deriving DecidableEq, Repr

namespace Stride

/-- The earlier of two visits, where zero is none. -/
def earlier (a b : Nat) : Nat := if a = 0 then b else if b = 0 then a else min a b

def operandFormula (u : MicroOp) (i : Nat) : Formula :=
  match u.sources[i]? with
  | some (.immediate v) => .constant v
  | some o =>
    match u.operandRegister? o with
    | some r => .register u.site r.canonical
    | none => .zero
  | none => .zero

structure Operands where
  f₁ : Formula
  k₁ : StrideKind
  c₁ : Option Coeff
  f₂ : Formula
  k₂ : StrideKind
  c₂ : Option Coeff
  irregular : Bool := false

/-- Settle operands of which one is a finished stride and the other an open sum: the stride is then
a value of its own, and the result is irregular unless the stride is zero. -/
def settle (u : MicroOp) (second : Nat) (o₁ o₂ : StrideValue) : Operands :=
  let c₁ := o₁.formula.constantValue?
  let c₂ := o₂.formula.constantValue?
  match o₁.kind, o₂.kind with
  | .partialSum, .stride =>
    { f₁ := o₁.formula, k₁ := .partialSum, c₁
      f₂ := o₂.formula + operandFormula u second, k₂ := .invariant, c₂
      irregular := c₂.all (!·.isZero) }
  | .stride, .partialSum =>
    { f₁ := o₁.formula + operandFormula u 0, k₁ := .invariant, c₁
      f₂ := o₂.formula, k₂ := .partialSum, c₂
      irregular := c₁.all (!·.isZero) }
  | k₁, k₂ => { f₁ := o₁.formula, k₁, c₁, f₂ := o₂.formula, k₂, c₂ }

namespace Operands

variable (o : Operands)

def joined : StrideKind := o.k₁.join o.k₂

def eitherPartial : Bool := o.k₁ = .partialSum || o.k₂ = .partialSum

/-- The sum of the operands. Beside a stride, an invariant value changes nothing. -/
def sum : Formula × StrideKind :=
  if o.eitherPartial then (o.f₁ + o.f₂, .partialSum)
  else if o.k₁ = o.k₂ then (o.f₁ + o.f₂, o.k₁)
  else if o.k₁ = .stride then (o.f₁, .stride)
  else (o.f₂, .stride)

/-- The difference of the operands. An open sum can be subtracted from zero only. -/
def difference (irregular : Formula) : Formula × StrideKind :=
  if o.k₁ = o.k₂ ∨ o.k₁ = .partialSum then (o.f₁ - o.f₂, o.k₁)
  else if o.k₂ = .partialSum then
    if o.c₁.any Coeff.isZero then (-o.f₂, .partialSum) else (irregular, .partialSum)
  else if o.k₁ = .stride then (o.f₁, .stride)
  else (-o.f₂, .stride)

/-- An unknown, which is irregular if an open sum goes into it. -/
def unknownOr (unknown irregular : Formula) : Formula × StrideKind :=
  (if o.eitherPartial then irregular else unknown, o.joined)

def quotient (k : Int) (unknown : Formula) : Formula :=
  if (o.f₁.div k).hasComplexDenominator then unknown else o.f₁.div k

def scaled (f : Formula) (k : Int) (irregular : Formula) : Formula × StrideKind :=
  if o.eitherPartial then (irregular, .partialSum) else (f.mul k, o.joined)

def shiftAmount (v : Int) : Bool := 0 ≤ v && v < 63

def withSecond? (op : Operation) (count : Nat) (v : Int) (unknown irregular : Formula) :
    Option (Formula × StrideKind) :=
  match op with
  | .sll =>
    if v = 0 ∧ o.k₂ = .invariant then some (o.f₁, o.joined)
    else if o.k₁ = .partialSum ∨ o.k₂ ≠ .invariant ∨ !shiftAmount v then
      some (irregular, o.joined)
    else some (o.f₁.mul (Word.power v.toNat), o.joined)
  | .srl | .sra =>
    if v = 0 ∧ o.k₂ = .invariant then some (o.f₁, o.joined)
    else if o.k₁ ≠ .invariant ∨ o.k₂ ≠ .invariant ∨ !shiftAmount v then
      some (irregular, o.joined)
    else some (o.quotient (Word.power v.toNat) unknown, o.joined)
  | .or | .andn => if v = 0 ∧ o.k₂ = .invariant then some (o.f₁, o.k₁) else none
  | .mul => some (o.scaled o.f₁ v irregular)
  | .div =>
    if o.k₁ = .partialSum ∨ o.k₂ ≠ .invariant then some (irregular, o.joined)
    else if count = 3 ∨ v = 0 then some (unknown, o.joined)
    else some (o.quotient v unknown, o.joined)
  | _ => none

def withFirst? (op : Operation) (v : Int) (irregular : Formula) : Option (Formula × StrideKind) :=
  match op with
  | .or => if v = 0 ∧ o.k₁ = .invariant then some (o.f₂, o.k₂) else none
  | .mul => some (o.scaled o.f₂ v irregular)
  | _ => none

def bitwise? (op : Operation) (a b : Int) : Option Int :=
  match op with
  | .not => some (Word.complement a)
  | .or => some (Word.disjunction a b)
  | .orn => some (Word.disjunction a (Word.complement b))
  | .andn => some (Word.conjunction a (Word.complement b))
  | .and => some (Word.conjunction a b)
  | .xor => some (Word.exclusive a b)
  | .xnor => some (Word.complement (Word.exclusive a b))
  | _ => none

def withBoth? (op : Operation) (a b : Int) (irregular : Formula) : Option (Formula × StrideKind) :=
  (bitwise? op a b).map fun v =>
    let varies := o.k₁ ≠ .invariant ∨ (op ≠ .not ∧ o.k₂ ≠ .invariant)
    (if varies then irregular else .constant v, if op = .not then o.k₁ else o.joined)

def other (op : Operation) (count : Nat) (unknown irregular : Formula) : Formula × StrideKind :=
  if (o.c₁.isNone && o.c₂.isNone) || (count = 3 && op = .sll) then o.unknownOr unknown irregular
  else
    let v₁? := o.c₁.map Coeff.value
    let v₂? := o.c₂.map Coeff.value
    let bySecond? := v₂?.bind fun v => o.withSecond? op count v unknown irregular
    let byFirst? := v₁?.bind fun v => o.withFirst? op v irregular
    let byBoth? := v₁?.bind fun a => v₂?.bind fun b => o.withBoth? op a b irregular
    (bySecond? <|> byFirst? <|> byBoth?).getD (o.unknownOr unknown irregular)

/-- The result of an operation. A move is a sum with nothing. -/
def result (op : Operation) (count : Nat) (unknown : Formula) : Formula × StrideKind :=
  match op with
  | .add | .mov => o.sum
  | .sub => o.difference unknown.markIrregular
  | op => o.other op count unknown unknown.markIrregular

end Operands

def operandAccess (o : Operands) (middle : Option StrideValue) : Access :=
  let both := ((Access.merge {} o.f₁.access).merge o.f₂.access)
  let all :=
    match middle with
    | some v => both.merge v.formula.access
    | none => both
  { all with irregular := all.irregular || o.irregular }

/-- The value of a micro-op with two operands, and perhaps a third between them. `count` is the
number of its sources and `second` the place of the last one. -/
def combine (u : MicroOp) (reg : Register) (count second : Nat) (o₁ : StrideValue)
    (middle : Option StrideValue) (o₂ : StrideValue) : StrideValue :=
  let settled := settle u second o₁ o₂
  let access := operandAccess settled middle
  let o :=
    match middle with
    | some v => { settled with k₁ := settled.k₁.join v.kind }
    | none => settled
  let (f, kind) := o.result u.operation count (.register u.site reg)
  { formula := { f with access := f.access.merge access }
    kind
    target := earlier o₁.target o₂.target }

end Stride

end AddressFormulas
