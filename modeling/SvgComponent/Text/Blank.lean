/-
  SvgComponent.Text.Blank — blank characters, and what is cut at them.

  A character is blank when it has the Unicode property White_Space. Path data knows only the five
  ASCII blanks (`isAsciiBlank`), and the zero-width characters and the byte order mark are never blank.
-/

namespace SvgComponent.Text

def isBlank (c : Char) : Bool :=
  let n := c.toNat
  (0x09 ≤ n && n ≤ 0x0D) || n == 0x20 || n == 0x85 || n == 0xA0 || n == 0x1680 ||
    (0x2000 ≤ n && n ≤ 0x200A) || n == 0x2028 || n == 0x2029 || n == 0x202F || n == 0x205F || n == 0x3000

/-- Space, tab, line feed, form feed and carriage return. -/
def isAsciiBlank (c : Char) : Bool :=
  c == ' ' || c == '\t' || c == '\n' || c == '\x0c' || c == '\r'

/-- `s` without the characters at its end that satisfy `p`. -/
def dropEndWhile (p : Char → Bool) (s : List Char) : List Char := (s.reverse.dropWhile p).reverse

/-- `s` without the characters at both ends that satisfy `p`. -/
def trimWhile (p : Char → Bool) (s : List Char) : List Char := dropEndWhile p (s.dropWhile p)

def trim (s : List Char) : List Char := trimWhile isBlank s

def trimmed (s : String) : String := String.ofList (trim s.toList)

/-- Nothing but blanks. -/
def allBlank (s : String) : Bool := s.toList.all isBlank

/-- The maximal runs of characters that are not blank, in order. -/
def words (s : List Char) : List (List Char) := (s.splitOnP isBlank).filter (!·.isEmpty)

end SvgComponent.Text
