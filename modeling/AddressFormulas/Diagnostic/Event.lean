import AddressFormulas.Failure
import AddressFormulas.Formula.Text
import AddressFormulas.MicroOp.Effect
import AddressFormulas.Pending
import AddressFormulas.Routine.Span
import AddressFormulas.Stride.Kind
import AddressFormulas.Text.Quoted

namespace AddressFormulas

inductive Level where
  | critical
  | error
  | warning
  | info
  | debug
  | trace
  deriving DecidableEq, Repr

namespace Level

def rank : Level → Nat
  | critical => 0
  | error => 1
  | warning => 2
  | info => 3
  | debug => 4
  | trace => 5

def text : Level → String
  | critical => "CRITICAL"
  | error => "ERROR"
  | warning => "WARNING"
  | info => "INFO"
  | debug => "DEBUG"
  | trace => "TRACE"

end Level

inductive ShownValue where
  | formula (f : Formula)
  | source (v : ValueSource)
  | label (s : String)

def ShownValue.text : ShownValue → String
  | formula f => f.text
  | source v => v.text
  | label s => Text.quoted s

inductive Event where
  | repeatedBlock (id line : Nat)
  | liftedRoutine (routine : String) (blocks : Nat)
  | failure (f : Failure)
  | partialClaim (claimed wanted : Register)
  | pendingValue (slot : Slot) (value : ShownValue)
  | stackSource (pc : Nat) (reg : Register)
  | definitionFound (site : Site) (reg : Register)
  | matchingStore (pc : Nat) (address : Formula)
  | addressOverflow (pc : Nat) (reg : Register)
  | addressFormula (pc : Nat) (operand : MemoryOperand) (formula : Formula)
  | selfSubtraction (pc : Nat)
  | selfXor (pc : Nat)
  | unusableAddress (pc : Nat)
  | spilledValue (pc : Nat) (value : Formula)
  | unmodelledOperation (pc : Nat)
  | definitionOverflow (site : Site) (reg : Register)
  | definitionValue (site : Site) (reg : Register) (value : Formula)
  | noCyclicPath (routine : String) (block marker : Nat)
  | cyclicPath (marker : Nat) (path : List BlockSpan)
  | leftoverCycles (count : Nat)
  | strideOverflow (pc : Nat) (reg : Register)
  | strideFormula (pc : Nat) (operand : MemoryOperand) (marker : Nat) (stride : Formula)
  | unclaimedRegister (reg : Register)
  | openCycle (pc : Nat) (reg : Register)
  | unclaimedOperand (pc : Nat) (operand : Nat) (reg : Register)
  | unclaimedAddressRegister (pc : Nat) (reg : Register)
  | identicalRegisters (pc : Nat)
  | valueCycle (site : Site) (iterations : Nat) (reg : Option Register)
  | strideDefinitionOverflow (site : Site) (reg : Register)
  | strideDefinition (site : Site) (reg : Register) (formula : Formula) (kind : StrideKind)
      (target : Nat)
  | analyzing (routine : String) (blocks : Nat)
  | skippedLevels (operand : OperandId) (reason : Failure)

/-- Events in the order in which they happened, newest first. -/
abbrev Journal := List Event

namespace Event

def level : Event → Level
  | failure .. | noCyclicPath .. => .error
  | repeatedBlock .. | stackSource .. | addressOverflow .. | unmodelledOperation ..
  | definitionOverflow .. | leftoverCycles .. | strideOverflow .. | unclaimedRegister ..
  | openCycle .. | strideDefinitionOverflow .. | skippedLevels .. => .warning
  | cyclicPath .. | analyzing .. => .info
  | liftedRoutine .. | matchingStore .. | addressFormula .. | selfSubtraction .. | selfXor ..
  | spilledValue .. | strideFormula .. | unclaimedOperand .. | unclaimedAddressRegister ..
  | identicalRegisters .. => .debug
  | partialClaim .. | pendingValue .. | definitionFound .. | unusableAddress ..
  | definitionValue .. | valueCycle .. | strideDefinition .. => .trace

def message : Event → String
  | repeatedBlock .. => "Block declared twice"
  | liftedRoutine .. => "Lifted CFG"
  | failure f => f.message
  | partialClaim .. => "Claimed a value that only partially covers the register"
  | pendingValue .. => "Pending value"
  | stackSource .. => "Register stack input while classifying micro-op"
  | definitionFound .. => "Slicing into definition"
  | matchingStore .. => "Found matching store"
  | addressOverflow .. => "Address formula overflows, keeping the register opaque"
  | addressFormula .. => "Computed address formula"
  | selfSubtraction .. => "Subtracting a value from itself"
  | selfXor .. => "XOR of a value with itself"
  | unusableAddress .. => "No usable address formula for load"
  | spilledValue .. => "Load reads back a spilled value"
  | unmodelledOperation .. => "Micro-op with unmodeled semantics"
  | definitionOverflow .. => "Definition value overflows, keeping it opaque"
  | definitionValue .. => "Definition value"
  | noCyclicPath .. => "Could not build a single-iteration cyclic path"
  | cyclicPath .. => "Found cyclic path"
  | leftoverCycles .. => "Leftover value cycles from a previous slice"
  | strideOverflow .. => "Stride formula overflows, keeping the register opaque"
  | strideFormula .. => "Computed stride formula"
  | unclaimedRegister .. => "No pending value for register"
  | openCycle .. => "Stride taken from a cycle that was never closed"
  | unclaimedOperand .. => "No pending value for operand"
  | unclaimedAddressRegister .. => "No pending value for address register"
  | identicalRegisters .. => "Operation on identical registers yields zero"
  | valueCycle .. => "Value cycle found"
  | strideDefinitionOverflow .. => "Stride definition overflows, keeping it opaque"
  | strideDefinition .. => "Stride definition"
  | analyzing .. => "Analyzing routine"
  | skippedLevels .. => "Skipping outer loop levels"

def pcField (pc : Nat) : String × String := ("pc", Numeral.hex pc)

def regField (reg : Register) : String × String := ("reg", reg.text)

def siteFields (s : Site) (reg : Register) : List (String × String) :=
  [pcField s.pc, ("uop", Numeral.decimal s.idx), regField reg]

def optional : Option String → String
  | some s => "Some(" ++ s ++ ")"
  | none => "None"

def fields : Event → List (String × String)
  | repeatedBlock id line => [("id", Numeral.natural id), ("line", Numeral.natural line)]
  | liftedRoutine routine blocks | analyzing routine blocks =>
    [("routine", routine), ("blocks", Numeral.natural blocks)]
  | failure f => [("coverage_gap", if f.isCoverageGap then "true" else "false")]
  | partialClaim claimed wanted => [("claimed", claimed.text), ("wanted", wanted.text)]
  | pendingValue slot value => [("key", slot.text), ("value", value.text)]
  | stackSource pc reg | addressOverflow pc reg | strideOverflow pc reg | openCycle pc reg
  | unclaimedAddressRegister pc reg => [pcField pc, regField reg]
  | definitionFound s reg | definitionOverflow s reg | strideDefinitionOverflow s reg =>
    siteFields s reg
  | matchingStore pc address => [pcField pc, ("address", address.text)]
  | addressFormula pc operand formula =>
    [pcField pc, ("operand", operand.text), ("formula", formula.text)]
  | selfSubtraction pc | selfXor pc | unusableAddress pc | unmodelledOperation pc
  | identicalRegisters pc => [pcField pc]
  | spilledValue pc value => [pcField pc, ("value", value.text)]
  | definitionValue s reg value => siteFields s reg ++ [("value", value.text)]
  | noCyclicPath routine block marker =>
    [("routine", routine), ("block", Numeral.natural block), ("marker", Numeral.natural marker)]
  | cyclicPath marker path =>
    [("marker", Numeral.natural marker), ("path", " <- ".intercalate (path.map BlockSpan.text))]
  | leftoverCycles count => [("count", Numeral.natural count)]
  | strideFormula pc operand marker stride =>
    [pcField pc, ("operand", operand.text), ("marker", Numeral.natural marker),
      ("stride", stride.text)]
  | unclaimedRegister reg => [regField reg]
  | unclaimedOperand pc operand reg =>
    [pcField pc, ("operand", Numeral.natural operand), regField reg]
  | valueCycle s iterations reg =>
    [pcField s.pc, ("uop", Numeral.decimal s.idx), ("iterations", Numeral.natural iterations),
      ("reg", optional (reg.map Register.text))]
  | strideDefinition s reg formula kind target =>
    siteFields s reg ++ [("formula", optional (some formula.text)), ("kind", kind.text),
      ("target", Numeral.natural target)]
  | skippedLevels operand reason =>
    [pcField operand.pc, ("opidx", Numeral.decimal operand.opidx), ("reason", reason.message)]

end Event

namespace Pending

variable {α : Type}

def events (p : Pending α) (shown : α → ShownValue) : List Event :=
  p.newestFirst.map fun (slot, a) => .pendingValue slot (shown a)

end Pending

def Claim.events {α : Type} (c : Claim α) (wanted : Register) : List Event :=
  match c.slot with
  | .register r => if r.includesRange wanted then [] else [.partialClaim r wanted]
  | .site _ => []

def MicroOp.effectEvents (u : MicroOp) : List Event :=
  u.stackSources.map (.stackSource u.pc ·)

end AddressFormulas
