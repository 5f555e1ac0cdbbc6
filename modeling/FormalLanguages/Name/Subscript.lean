namespace FormalLanguages.Name

/-! Numbered names carry their number as trailing subscript digits, as in `s₁₂`. -/

def isSubscript (character : Char) : Bool := '₀' ≤ character && character ≤ '₉'

def lowered (digit : Char) : Char := Char.ofNat (digit.toNat - '0'.toNat + '₀'.toNat)

def raised (digit : Char) : Char := Char.ofNat (digit.toNat - '₀'.toNat + '0'.toNat)

def subscriptDigits (number : Nat) : List Char := (Nat.toDigits 10 number).map lowered

def subscript (number : Nat) : String := String.ofList (subscriptDigits number)

def numbered (stem : String) (number : Nat) : String := stem ++ subscript number

example : numbered "q" 105 = "q₁₀₅" := by decide

/-- Numbers are limited to 64 bits: a longer run of subscripts is not a number,
so a name that ends in one is a stem as it stands. -/
def numberLimit : Nat := Nat.pow 2 64

structure Reading where
  stem : String
  number : Nat
deriving DecidableEq, Repr

def trailingSubscripts (name : String) : List Char :=
  (name.toList.reverse.takeWhile isSubscript).reverse

def leadingStem (name : String) : List Char :=
  (name.toList.reverse.dropWhile isSubscript).reverse

def read? (name : String) : Option Reading :=
  let digits := trailingSubscripts name
  let number := Nat.ofDigitChars 10 (digits.map raised) 0
  if digits.isEmpty || number ≥ numberLimit then none
  else some ⟨String.ofList (leadingStem name), number⟩

example : read? "q₁₀₅" = some ⟨"q", 105⟩ := by decide
example : read? "q" = none := by decide

/-- A supply hands out `stem₀`, `stem₁`, … and never the same name twice. -/
structure Supply where
  stem : String
  next : Nat := 0
deriving DecidableEq, Repr

namespace Supply

def fresh (supply : Supply) : String := numbered supply.stem supply.next

def advance (supply : Supply) : Supply := { supply with next := supply.next + 1 }

def take (supply : Supply) : Nat → List String
  | 0 => []
  | count + 1 => supply.fresh :: supply.advance.take count

end Supply

end FormalLanguages.Name
