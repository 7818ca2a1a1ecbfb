import StyleBundle.Text.Basic

/-!
# White space

The characters with the Unicode property White_Space, and trimming by it.
-/

namespace StyleBundle

/-- Whether the character has the Unicode property White_Space. -/
def isWhitespace (c : Char) : Bool :=
  let n := c.toNat
  (9 ≤ n && n ≤ 13) || n == 0x20 || n == 0x85 || n == 0xA0 || n == 0x1680 ||
    (0x2000 ≤ n && n ≤ 0x200A) || n == 0x2028 || n == 0x2029 || n == 0x202F ||
    n == 0x205F || n == 0x3000

/-- A blank: a space or a tab. -/
def isBlank (c : Char) : Bool :=
  c == ' ' || c == '\t'

namespace Text

/-- The text without leading white space. -/
def trimStart (t : Text) : Text :=
  t.dropWhile isWhitespace

/-- The text without trailing white space. -/
def trimEnd (t : Text) : Text :=
  (t.reverse.dropWhile isWhitespace).reverse

/-- The text without white space at either end. -/
def trim (t : Text) : Text :=
  t.trimStart.trimEnd

end Text

end StyleBundle
