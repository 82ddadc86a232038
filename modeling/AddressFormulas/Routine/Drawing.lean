import AddressFormulas.Routine.Graph

namespace AddressFormulas

def Block.label (b : Block) : String :=
  let head :=
    match b.kind with
    | .code => b.span.text
    | .surrogate target => "B" ++ Numeral.natural b.id ++ " call " ++ Numeral.hex target
  head ++ "\\nrank=" ++ Numeral.decimal b.rank ++ " loop=" ++ Numeral.natural b.marker

def Block.drawing (b : Block) : String :=
  let shape :=
    match b.kind with
    | .code => ""
    | .surrogate _ => "[shape=\"diamond\"]"
  "    b" ++ Numeral.natural b.id ++ "[label=\"" ++ b.label ++ "\"]" ++ shape ++ ";\n"

def Edge.drawing (e : Edge) : String :=
  let style := if e.isBack then "[label=\"back\"][style=\"dashed\"]" else "[label=\"\"]"
  "    b" ++ Numeral.natural e.source ++ " -> b" ++ Numeral.natural e.sink ++ style ++ ";\n"

def Graph.drawing (g : Graph) : String :=
  "digraph Cfg \x7b\n" ++ String.join (g.blocks.map Block.drawing) ++
    String.join (g.edges.map Edge.drawing) ++ "\x7d\n"

end AddressFormulas
