/-! Hexadecimal numbers of a fixed width. -/

namespace Curly.Text

/-- The last `width` hexadecimal digits of a number, the most significant first, in lower case. -/
def hexDigits : Nat → Nat → List Char
  | 0, _ => []
  | width + 1, n => hexDigits width (n / 16) ++ [Nat.digitChar (n % 16)]

/-- A code point as it is cited: `U+` and its digits in upper case, at least four of them. -/
def codePoint (c : Char) : String :=
  let width := if c.toNat < 0x10000 then 4 else if c.toNat < 0x100000 then 5 else 6
  "U+" ++ String.ofList ((hexDigits width c.toNat).map Char.toUpper)

end Curly.Text
