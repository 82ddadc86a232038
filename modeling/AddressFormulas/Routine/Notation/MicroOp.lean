import AddressFormulas.Routine.Notation.Operand

/-!
Micro-ops in the notation of routines: address, length, kind and operation, then the destinations,
an arrow, the sources, and marks anywhere among them.
-/

namespace AddressFormulas

def OpKind.words : List (String × OpKind) :=
  [("move", .move), ("copy", .copy), ("lea", .lea), ("load", .load), ("store", .store),
    ("branch", .branch), ("div", .div), ("alu", .alu), ("other", .other)]

def Operation.words : List (String × Operation) :=
  [("add", .add), ("sub", .sub), ("mov", .mov), ("not", .not), ("and", .and), ("or", .or),
    ("xor", .xor), ("andn", .andn), ("orn", .orn), ("xnor", .xnor), ("mul", .mul), ("div", .div),
    ("sll", .sll), ("srl", .srl), ("sra", .sra), ("invalid", .invalid)]

namespace Notation

def readKeyword {α : Type} (what : String) (meanings : List (String × α)) (line : Nat)
    (text : String) : Except NotationError α :=
  match meanings.lookup text with
  | some a => .ok a
  | none => .error (.unknownKeyword line what text)

def readWidth (line : Nat) (text : String) : Except NotationError Nat := do
  let w ← readUpTo 255 line text
  if w = 0 then throw (.badNumber line text)
  return w

def valueOf? (key : String) (word : String) : Option String :=
  (Text.after? (key.toList ++ ['=']) word.toList).map String.ofList

structure OpDraft where
  op : MicroOp
  pastArrow : Bool := false

def addWord (line : Nat) (d : OpDraft) (word : String) : Except NotationError OpDraft := do
  if word = "<-" then return { d with pastArrow := true }
  if word = "call" then return { d with op.isCall := true }
  if word = "cmov" then return { d with op.conditional := true }
  if let some text := valueOf? "target" word then
    let target ← readNatural line text
    return { d with op.target := some target }
  if let some text := valueOf? "width" word then
    let width ← readWidth line text
    return { d with op.width := width }
  let operand ← readOperand line word
  if d.pastArrow then return { d with op.sources := d.op.sources ++ [operand] }
  return { d with op.destinations := d.op.destinations ++ [operand] }

def malformed (line : Nat) (words : List String) : NotationError :=
  .malformed line (" ".intercalate words)

def readMicroOp (line : Nat) (words : List String) : Except NotationError MicroOp := do
  match words with
  | pcText :: lengthText :: kindText :: operationText :: rest =>
    let pc ← readNatural line pcText
    let length ← readCount line lengthText
    let kind ← readKeyword "micro-op kind" OpKind.words line kindText
    let operation ← readKeyword "opcode" Operation.words line operationText
    let d ← rest.foldlM (addWord line) { op := { pc, length, kind, operation } }
    if d.pastArrow then return d.op
    throw (malformed line words)
  | _ => throw (malformed line words)

end Notation

end AddressFormulas
