namespace FormalLanguages.Text

/-! The characters that separate words are those with the White_Space property
of Unicode. -/

def isBlank (character : Char) : Bool :=
  let code := character.toNat
  (0x09 ≤ code && code ≤ 0x0D) || code == 0x20 || code == 0x85 || code == 0xA0 ||
    code == 0x1680 || (0x2000 ≤ code && code ≤ 0x200A) || code == 0x2028 || code == 0x2029 ||
    code == 0x202F || code == 0x205F || code == 0x3000

def trimStart (text : List Char) : List Char := text.dropWhile isBlank

def trimEnd (text : List Char) : List Char := (text.reverse.dropWhile isBlank).reverse

def trim (text : List Char) : List Char := trimEnd (trimStart text)

def withoutBlanks (text : List Char) : List Char := text.filter fun character => !isBlank character

example : trim " a b\t".toList = "a b".toList := by decide

end FormalLanguages.Text
