import AddressFormulas.Formula.Basic

namespace AddressFormulas.Formula

def termText (key : TermKey) (t : Term) : String :=
  if key.isConstant then t.coeff.text
  else if t.coeff = .one then key.text
  else t.coeff.text ++ "*" ++ key.text

def text (f : Formula) : String :=
  let sum :=
    if f.terms.isEmpty then "0"
    else " + ".intercalate (f.terms.entries.map fun (k, t) => termText k t)
  sum ++ (if f.access.irregular then " [irregular]" else "") ++
    (if f.overflow then " [overflow]" else "") ++ f.access.indirect.text

end AddressFormulas.Formula
