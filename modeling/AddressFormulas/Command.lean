import AddressFormulas.Analysis
import AddressFormulas.Routine.Drawing
import AddressFormulas.Routine.Notation.Reader

namespace AddressFormulas

namespace Command

def applyFlag (settings : Settings) : String → Option Settings
  | "enable-strict-invariants" => some { settings with strict := true }
  | "disable-spill-following" => some { settings with followSpills := false }
  | "enable-debug-print-value-stack" => some { settings with showValues := true }
  | "enable-debug-print-cyclic-paths" => some { settings with showPaths := true }
  | _ => none

def settings? (flags : List String) : Option Settings := flags.foldlM applyFlag {}

inductive Status where
  | success
  | unreadable
  | failed
  | usage
  deriving DecidableEq, Repr

def Status.code : Status → Nat
  | success => 0
  | unreadable => 1
  | failed => 2
  | usage => 2

structure Outcome where
  status : Status
  drawing : Option String := none
  report : Option String := none
  error : Option String := none
  journal : Journal := []

def stopText : Stop → String
  | .failed f => f.message
  | .missing => "Missing block, edge or micro-op"
  | .exhausted => "Walks are nested too deeply"

def analyze (settings : Settings) (text : String) : Outcome :=
  match Graph.readWithJournal text with
  | (.error e, journal) => { status := .unreadable, error := some e.message, journal }
  | (.ok g, journal) =>
    match g.analyzeWithJournal settings journal with
    | (.error stop, journal) =>
      { status := .failed, drawing := some g.drawing, error := some (stopText stop), journal }
    | (.ok formulas, journal) =>
      { status := .success, drawing := some g.drawing, report := some formulas.text, journal }

structure Options where
  input : Option String := none
  output : Option String := none
  drawing : Option String := none
  log : Option String := none
  quiet : Bool := false
  verbosity : Nat := 0
  flags : List String := []

def readOptions : List String → Options → Option Options
  | [], o => if o.input.isSome then some o else none
  | "--output" :: path :: rest, o => readOptions rest { o with output := some path }
  | "--debug-output-graphviz" :: path :: rest, o => readOptions rest { o with drawing := some path }
  | "--log" :: path :: rest, o => readOptions rest { o with log := some path }
  | "-Z" :: flag :: rest, o => readOptions rest { o with flags := o.flags ++ [flag] }
  | "--advanced-config" :: flag :: rest, o => readOptions rest { o with flags := o.flags ++ [flag] }
  | "--debug-disable-terminal-logging" :: rest, o => readOptions rest { o with quiet := true }
  | "--debug-forced-blocking-terminal-logging" :: rest, o => readOptions rest o
  | "--debug" :: rest, o => readOptions rest { o with verbosity := o.verbosity + 1 }
  | "-d" :: rest, o => readOptions rest { o with verbosity := o.verbosity + 1 }
  | word :: rest, o =>
    if o.input.isSome || word.toList.head? = some '-' then none
    else readOptions rest { o with input := some word }

def Options.told (o : Options) (journal : Journal) : List Event :=
  journal.reverse.filter fun e => e.level.rank ≤ Level.warning.rank + o.verbosity

def run (flags : List String) (text : String) : Outcome :=
  match settings? flags with
  | none => { status := .usage }
  | some settings => analyze settings text

end Command

end AddressFormulas
