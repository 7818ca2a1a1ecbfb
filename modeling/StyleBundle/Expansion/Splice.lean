import StyleBundle.Text.Basic

/-!
# Splicing

Replacing stretches of a text.  A stretch is given by byte offsets.
-/

namespace StyleBundle

/-- A stretch of a text with the text that takes its place. -/
structure Replacement where
  /-- The byte offset of the stretch. -/
  start : Nat
  /-- The byte offset after the stretch. -/
  stop : Nat
  /-- What takes its place. -/
  content : Text
deriving DecidableEq

namespace Replacement

/-- The longest front of the text that fits into `n` bytes, and the rest. -/
def cutBytes (n : Nat) : Text → Text × Text
  | [] => ([], [])
  | c :: rest =>
    if c.utf8Size ≤ n then
      let (front, tail) := cutBytes (n - c.utf8Size) rest
      (c :: front, tail)
    else ([], c :: rest)

/-- Splices into the rest of a text that starts at `offset`. -/
def spliceFrom (offset : Nat) (text : Text) : List Replacement → Text
  | [] => text
  | r :: later =>
    let (before, rest) := cutBytes (r.start - offset) text
    let (_, after) := cutBytes (r.stop - r.start) rest
    before ++ r.content ++ spliceFrom r.stop after later

/-- The text with every stretch replaced.  The stretches stand in order and do not overlap. -/
def splice (text : Text) (replacements : List Replacement) : Text :=
  spliceFrom 0 text replacements

/-- The replacements in the order of their stretches. -/
def sorted (replacements : List Replacement) : List Replacement :=
  replacements.mergeSort fun a b => a.start ≤ b.start

end Replacement

end StyleBundle
