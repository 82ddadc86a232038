import AddressFormulas.Command

namespace AddressFormulas.Command

def eventLine (e : Event) : String :=
  e.level.text ++ " " ++ e.message ++
    String.join (e.fields.map fun (k, v) => ", " ++ k ++ ": " ++ v) ++ "\n"

def tell (o : Options) (outcome : Outcome) : IO Unit := do
  let events := o.told outcome.journal
  let onTerminal : List Event :=
    match o.log with
    | some _ => events.filter fun e => e.level.rank ≤ Level.error.rank
    | none => events
  if let some path := o.log then
    IO.FS.writeFile path (String.join (events.map eventLine))
  unless o.quiet do
    IO.eprint (String.join (onTerminal.map eventLine))
    if let some message := outcome.error then IO.eprintln message

def deliver (o : Options) (outcome : Outcome) : IO Unit := do
  if let (some path, some drawing) := (o.drawing, outcome.drawing) then
    IO.FS.writeFile path drawing
  if let some report := outcome.report then
    match o.output with
    | some path => IO.FS.writeFile path report
    | none => IO.print report

end AddressFormulas.Command

open AddressFormulas in
def main (args : List String) : IO UInt32 := do
  match args with
  | "analyze" :: rest =>
    match Command.readOptions rest {} with
    | some o =>
      let some input := o.input | return 2
      if (Command.settings? o.flags).isNone then return 2
      let text ← IO.FS.readFile input
      let outcome := Command.run o.flags text
      Command.tell o outcome
      Command.deliver o outcome
      return outcome.status.code.toUInt32
    | none => return 2
  | _ => return 2
