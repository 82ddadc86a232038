import AddressFormulas.Word

namespace AddressFormulas.Numeral

def naturalChars (n : Nat) : List Char := Nat.toDigits 10 n

def decimalChars (n : Int) : List Char :=
  if n < 0 then '-' :: naturalChars n.natAbs else naturalChars n.natAbs

def decimal (n : Int) : String := String.ofList (decimalChars n)

def natural (n : Nat) : String := String.ofList (naturalChars n)

def hex (n : Nat) : String := String.ofList ('0' :: 'x' :: Nat.toDigits 16 n)

def hexWord (n : Int) : String := hex (BitVec.ofInt 64 n).toNat

def digitValue? (radix : Nat) (c : Char) : Option Nat :=
  let v? :=
    if '0' ≤ c ∧ c ≤ '9' then some (c.toNat - '0'.toNat)
    else if 'a' ≤ c ∧ c ≤ 'z' then some (c.toNat - 'a'.toNat + 10)
    else if 'A' ≤ c ∧ c ≤ 'Z' then some (c.toNat - 'A'.toNat + 10)
    else none
  v?.filter (· < radix)

def readDigits? (radix : Nat) : Nat → List Char → Option Nat
  | acc, [] => some acc
  | acc, c :: cs => (digitValue? radix c).bind fun d => readDigits? radix (acc * radix + d) cs

def readMagnitude? (radix : Nat) : List Char → Option Nat
  | [] => none
  | cs => readDigits? radix 0 cs

def readNatural? (radix : Nat) : List Char → Option Nat
  | '+' :: cs => readMagnitude? radix cs
  | cs => readMagnitude? radix cs

def readSigned? (radix : Nat) (cs : List Char) : Option Int :=
  let v? : Option Int :=
    match cs with
    | '-' :: ds => (readMagnitude? radix ds).map fun n => -(n : Int)
    | ds => (readNatural? radix ds).map Int.ofNat
  v?.filter Word.fits

def readUnnegated? : List Char → Option Int
  | '0' :: 'x' :: cs => readSigned? 16 cs
  | cs => readSigned? 10 cs

/-- A number of the routine notation: an optional minus sign, then a decimal numeral or `0x` and a
hexadecimal one. The numeral may carry a sign of its own, and the word that it stands for is negated
as a word. -/
def read? : List Char → Option Int
  | '-' :: cs => (readUnnegated? cs).map fun v => Word.wrap (-v)
  | cs => readUnnegated? cs

end AddressFormulas.Numeral
