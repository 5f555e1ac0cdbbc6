import FormalLanguages.Text.Hidden

namespace FormalLanguages.Text

/-! Names and characters in messages stand in quotes. The closing quote and the
backslash are escaped, the common control characters have letters, and every
other hidden character is written by its code. -/

def hexDigits (code : Nat) : String := String.ofList (Nat.toDigits 16 code)

def escaped (quote : Char) (character : Char) : String :=
  if character = '\x00' then "\\0"
  else if character = '\t' then "\\t"
  else if character = '\r' then "\\r"
  else if character = '\n' then "\\n"
  else if character = quote then "\\" ++ quote.toString
  else if character = '\\' then "\\\\"
  else if isHidden character then "\\u\x7b" ++ hexDigits character.toNat ++ "\x7d"
  else character.toString

def quotedName (name : String) : String :=
  "\"" ++ String.join (name.toList.map (escaped '"')) ++ "\""

def quotedCharacter (character : Char) : String :=
  "'" ++ escaped '\x27' character ++ "'"

example : quotedName "a\"b" = "\"a\\\"b\"" := by decide +kernel
example : quotedCharacter '\x7f' = "'\\u\x7b7f\x7d'" := by decide +kernel

end FormalLanguages.Text
