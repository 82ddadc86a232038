namespace AddressFormulas.Word

def power (n : Nat) : Nat := Nat.pow 2 n

def modulus : Nat := 0x10000000000000000

def half : Int := 0x8000000000000000

def fits (x : Int) : Bool := -half ≤ x && x < half

/-- The word congruent to `x` modulo the number of words. -/
def wrap (x : Int) : Int := x.bmod modulus

def bits (x : Int) : BitVec 64 := BitVec.ofInt 64 x

def complement (x : Int) : Int := (~~~ bits x).toInt

def conjunction (x y : Int) : Int := (bits x &&& bits y).toInt

def disjunction (x y : Int) : Int := (bits x ||| bits y).toInt

def exclusive (x y : Int) : Int := (bits x ^^^ bits y).toInt

def shiftLeft (x : Int) (n : Nat) : Int := (bits x <<< n).toInt

def shiftRight (x : Int) (n : Nat) : Int := (bits x >>> n).toInt

def shiftRightSigned (x : Int) (n : Nat) : Int := ((bits x).sshiftRight n).toInt

def product (x y : Int) : Int := wrap (x * y)

def quotient (x y : Int) : Int := wrap (x.tdiv y)

end AddressFormulas.Word
