import StyleBundle.Text.Basic

/-!
# UTF-8

Texts from bytes.  `Utf8.decode?` accepts well-formed input only.  `Utf8.decodeLossy` puts the
replacement character U+FFFD in place of every stretch that is not well-formed.
-/

namespace StyleBundle

namespace Utf8

/-- Whether the byte continues a sequence. -/
def isTail (b : UInt8) : Bool :=
  0x80 ≤ b && b ≤ 0xBF

/-- Whether `second` may follow the first byte of a sequence of three or four bytes. -/
def mayFollow (first second : UInt8) : Bool :=
  if first = 0xE0 then 0xA0 ≤ second && second ≤ 0xBF
  else if first = 0xED then 0x80 ≤ second && second ≤ 0x9F
  else if first = 0xF0 then 0x90 ≤ second && second ≤ 0xBF
  else if first = 0xF4 then 0x80 ≤ second && second ≤ 0x8F
  else isTail second

/-- The number of bytes that a sequence with this first byte has, zero when no sequence starts
with it. -/
def lengthOf (first : UInt8) : Nat :=
  if first < 0x80 then 1
  else if 0xC2 ≤ first && first ≤ 0xDF then 2
  else if 0xE0 ≤ first && first ≤ 0xEF then 3
  else if 0xF0 ≤ first && first ≤ 0xF4 then 4
  else 0

/-- The six low bits of a continuation byte. -/
def tailBits (b : UInt8) : Nat :=
  b.toNat % 64

/-- What stands at the start of a run of bytes: a character, or nothing for a stretch that is not
well-formed, with the number of bytes after the first that belong to it. -/
def unit (first : UInt8) (rest : List UInt8) : Option Char × Nat :=
  match lengthOf first, rest with
  | 1, _ => (some (Char.ofNat first.toNat), 0)
  | 2, b :: _ =>
    if isTail b then (some (Char.ofNat (first.toNat % 32 * 64 + tailBits b)), 1) else (none, 0)
  | 3, b :: c :: _ =>
    if mayFollow first b then
      if isTail c then
        (some (Char.ofNat ((first.toNat % 16 * 64 + tailBits b) * 64 + tailBits c)), 2)
      else (none, 1)
    else (none, 0)
  | 3, [b] => (none, if mayFollow first b then 1 else 0)
  | 4, b :: c :: d :: _ =>
    if mayFollow first b then
      if isTail c then
        if isTail d then
          (some (Char.ofNat
            (((first.toNat % 8 * 64 + tailBits b) * 64 + tailBits c) * 64 + tailBits d)), 3)
        else (none, 2)
      else (none, 1)
    else (none, 0)
  | 4, [b, c] => (none, if mayFollow first b then if isTail c then 2 else 1 else 0)
  | 4, [b] => (none, if mayFollow first b then 1 else 0)
  | _, _ => (none, 0)

/-- The units of a run of bytes of which the first `skip` belong to an earlier unit. -/
def unitsFrom (skip : Nat) : List UInt8 → List (Option Char)
  | [] => []
  | b :: rest =>
    match skip with
    | skip + 1 => unitsFrom skip rest
    | 0 =>
      let (found, more) := unit b rest
      found :: unitsFrom more rest

/-- The units of a run of bytes. -/
def units (bytes : List UInt8) : List (Option Char) :=
  unitsFrom 0 bytes

/-- The text of well-formed bytes. -/
def decode? (bytes : List UInt8) : Option Text :=
  (units bytes).mapM id

/-- The text of any bytes. -/
def decodeLossy (bytes : List UInt8) : Text :=
  (units bytes).map (·.getD (Char.ofNat 0xFFFD))

end Utf8

end StyleBundle
