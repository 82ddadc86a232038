namespace AddressFormulas

variable {α : Type}

def insertBy (le : α → α → Bool) (x : α) : List α → List α
  | [] => [x]
  | y :: ys => if le x y then x :: y :: ys else y :: insertBy le x ys

def sortBy (le : α → α → Bool) (xs : List α) : List α :=
  xs.foldr (insertBy le) []

end AddressFormulas
