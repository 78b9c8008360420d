/-!
# Blanks

Which characters count as white space, in any script.
-/

namespace Interruptible.Text

/-- The code points of white space outside of ASCII. -/
def wideBlanks : List Nat :=
  [0x85, 0xA0, 0x1680, 0x2000, 0x2001, 0x2002, 0x2003, 0x2004, 0x2005, 0x2006, 0x2007, 0x2008, 0x2009, 0x200A, 0x2028, 0x2029,
    0x202F, 0x205F, 0x3000]

/-- Whether a character is white space. -/
def isWhiteSpace (c : Char) : Bool :=
  c == ' ' || (9 ≤ c.toNat && c.toNat ≤ 13) || (c.toNat > 127 && wideBlanks.contains c.toNat)

/-- Drops white space at the front. -/
def trimStart (cs : List Char) : List Char := cs.dropWhile isWhiteSpace

/-- Drops white space at the end. -/
def trimEnd (cs : List Char) : List Char := (cs.reverse.dropWhile isWhiteSpace).reverse

end Interruptible.Text
