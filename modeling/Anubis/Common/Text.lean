import Mathlib.Data.Nat.Notation

/-!
# Text

What Go's `strings` package does to text: white space at both ends, and lower
case as far as it leads to ASCII letters.
-/

namespace Text

/-- `unicode.IsSpace`. -/
def isSpace (c : Char) : Bool :=
  c.toNat ∈ [0x09, 0x0a, 0x0b, 0x0c, 0x0d, 0x20, 0x85, 0xa0, 0x1680, 0x2028, 0x2029, 0x202f,
    0x205f, 0x3000] ||
    0x2000 ≤ c.toNat && c.toNat ≤ 0x200a

/-- `strings.TrimSpace`. -/
def trimSpace (s : String) : String :=
  .ofList ((s.toList.dropWhile isSpace).reverse.dropWhile isSpace).reverse

/-- There is nothing but white space. -/
def blank (s : String) : Bool := trimSpace s = ""

/-- `unicode.ToLower` where it gives an ASCII letter: besides the capitals, the
dotted capital I and the Kelvin sign. -/
def lowerChar (c : Char) : Char :=
  if c.toNat = 0x130 then 'i' else if c.toNat = 0x212a then 'k' else c.toLower

/-- `strings.ToLower`, for comparing with ASCII text. -/
def lower (s : String) : String := .ofList (s.toList.map lowerChar)

end Text
