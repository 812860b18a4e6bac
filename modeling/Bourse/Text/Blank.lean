/-!
# Blank text

A name is blank if it is empty or all of its characters are white space (`isBlankChar`),
in the sense of the Unicode property of that name.
-/

namespace Bourse.Text

/-- The characters with the property `White_Space`. -/
def isBlankChar (c : Char) : Bool :=
  let n := c.toNat
  (0x09 ≤ n && n ≤ 0x0D) || n == 0x20 || n == 0x85 || n == 0xA0 || n == 0x1680 ||
    (0x2000 ≤ n && n ≤ 0x200A) || n == 0x2028 || n == 0x2029 || n == 0x202F || n == 0x205F ||
    n == 0x3000

/-- The text shows nothing. -/
def isBlank (s : String) : Bool := s.toList.all isBlankChar

end Bourse.Text
