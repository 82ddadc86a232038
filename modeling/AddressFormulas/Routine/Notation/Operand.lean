import AddressFormulas.MicroOp.Basic
import AddressFormulas.Routine.Notation.Error
import AddressFormulas.Text.Blank

/-!
Numbers, registers and operands in the notation of routines. An operand is the name of a register, a
temporary `t7`, an immediate `#-8` or a memory operand `[base+index*scale+disp]@opidx`.
-/

namespace AddressFormulas.Notation

def readNumber (line : Nat) (text : String) : Except NotationError Int :=
  match Numeral.read? text.toList with
  | some v => .ok v
  | none => .error (.badNumber line text)

def readBetween (low high : Int) (line : Nat) (text : String) : Except NotationError Int := do
  let v ← readNumber line text
  if low ≤ v ∧ v ≤ high then .ok v else .error (.badNumber line text)

def readUpTo (high : Int) (line : Nat) (text : String) : Except NotationError Nat :=
  (readBetween 0 high line text).map Int.toNat

def readNatural : Nat → String → Except NotationError Nat := readUpTo 0xffffffffffffffff

def readCount : Nat → String → Except NotationError Nat := readUpTo 0xffffffff

def readRank : Nat → String → Except NotationError Int :=
  readBetween (-0x80000000) 0x7fffffff

def readRegister (line : Nat) (text : String) : Except NotationError Register :=
  match Register.ofName? text with
  | some r => .ok r
  | none => .error (.unknownRegister line text)

def splitAtNumber? : List Char → Option (List Char × List Char)
  | [] => none
  | c :: cs =>
    match splitAtNumber? cs with
    | some (inner, number) => some (c :: inner, number)
    | none =>
      match c, cs with
      | ']', '@' :: number => some ([], number)
      | _, _ => none

/-- The text up to the first sign, and the parts that the signs begin. A minus sign stays with its
part, a plus sign and spaces are dropped. -/
def cutAtSigns : List Char → List Char × List (List Char)
  | [] => ([], [])
  | c :: cs =>
    let (first, others) := cutAtSigns cs
    if c = '+' then ([], first :: others)
    else if c = '-' then ([], ('-' :: first) :: others)
    else if c = ' ' then (first, others)
    else (c :: first, others)

def parts (inner : List Char) : List (List Char) :=
  let (first, others) := cutAtSigns inner
  (first :: others).filter fun p => !p.isEmpty

def splitAtStar? (part : List Char) : Option (List Char × List Char) :=
  match part.dropWhile (· ≠ '*') with
  | _ :: scale => some (part.takeWhile (· ≠ '*'), scale)
  | [] => none

def startsNumber : List Char → Bool
  | c :: _ => c = '-' || c.isDigit
  | [] => false

/-- Add one part to a memory operand: a number to its displacement, as words are added, a register as
base, or as index with a scale. -/
def addPart (line : Nat) (text : String) (m : MemoryOperand) (part : List Char) :
    Except NotationError MemoryOperand := do
  if startsNumber part then
    let v ← readNumber line (String.ofList part)
    return { m with disp := Word.wrap (m.disp + v) }
  match splitAtStar? part with
  | some (reg, scale) =>
    if m.index.isSome then throw (.badOperand line text)
    let r ← readRegister line (String.ofList reg)
    let k ← readNumber line (String.ofList scale)
    return { m with index := some r, scale := k }
  | none =>
    if m.base.isNone then
      let r ← readRegister line (String.ofList part)
      return { m with base := some r }
    if m.index.isSome then throw (.badOperand line text)
    let r ← readRegister line (String.ofList part)
    return { m with index := some r }

def openMemory (line : Nat) (text : String) : Except NotationError (List Char × Int) := do
  let (bracketed, opidx) ←
    match splitAtNumber? text.toList with
    | some (inner, number) => do
      let opidx ← readRank line (String.ofList number)
      pure (inner, opidx)
    | none =>
      if text.toList.getLast? = some ']' then pure (text.toList.dropLast, 0)
      else throw (.badOperand line text)
  match bracketed with
  | '[' :: inner => return (inner, opidx)
  | _ => throw (.badOperand line text)

def readMemory (line : Nat) (text : String) : Except NotationError MemoryOperand := do
  let (inner, opidx) ← openMemory line text
  (parts inner).foldlM (addPart line text) { opidx }

def readOperand (line : Nat) (text : String) : Except NotationError Operand :=
  match text.toList with
  | '#' :: number => (readNumber line (String.ofList number)).map .immediate
  | '[' :: _ => (readMemory line text).map .memory
  | 't' :: number =>
    match (Numeral.readNatural? 10 number).filter (· ≤ 0xffffffff) with
    | some n => .ok (.temporary n)
    | none => (readRegister line text).map .register
  | _ => (readRegister line text).map .register

end AddressFormulas.Notation
