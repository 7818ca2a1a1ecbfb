import StyleBundle.Text.Basic

/-!
# TOML values

The values of a TOML document.  A table keeps its entries in the order in which they were written.
-/

namespace StyleBundle

/-- A TOML value. -/
inductive Toml where
  /-- A text. -/
  | string (value : Text)
  /-- A whole number. -/
  | integer (value : Int)
  /-- A floating point number, of which only the kind counts. -/
  | float
  /-- A truth value. -/
  | boolean (value : Bool)
  /-- A date, a time or both, in its canonical form. -/
  | datetime (value : Text)
  /-- A list of values. -/
  | array (items : List Toml)
  /-- Named values. -/
  | table (entries : List (Text × Toml))

namespace Toml

/-- A reader takes the text that is left and gives what it read with the rest. -/
abbrev Reader (α : Type) := Text → Option (α × Text)

/-- Whether the character is a control character other than a tab. -/
def isControl (c : Char) : Bool :=
  (c.toNat < 0x20 && c != '\t') || c.toNat == 0x7F

end Toml

end StyleBundle
