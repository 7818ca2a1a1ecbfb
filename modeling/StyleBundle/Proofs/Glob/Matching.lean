import StyleBundle.Glob.Pattern

/-!
# What a pattern matches

`Glob.accepts` works on marks, one for each place of the text, from the last token to the first.
`Glob.fits` is the same question asked from the front, and `Glob.accepts_eq_fits` says that the
two agree.  A text whose characters are written out as tokens matches itself only
(`Glob.eq_of_accepts_spelled`).
-/

namespace StyleBundle

namespace Glob

/-! ## Matching from the front -/

/-- A rest of a text, each character with whether it starts a component. -/
abbrev Rest := List (Bool × Char)

/-- One character is taken, then the rest fits. -/
def fitsOne (takes : Bool × Char → Bool) (rest : Rest → Bool) : Rest → Bool
  | [] => false
  | c :: text => takes c && rest text

/-- Some visible characters are taken, then the rest fits. -/
def fitsSequence (rest : Rest → Bool) : Rest → Bool
  | [] => rest []
  | c :: text => rest (c :: text) || (visible c && fitsSequence rest text)

/-- Some components are passed over, then the rest fits. -/
def fitsLater (rest : Rest → Bool) : Rest → Bool
  | [] => rest []
  | c :: text =>
    if c.1 && c.2 == '.' then false
    else if c.2 == '/' then rest text || fitsLater rest text
    else fitsLater rest text

/-- A token takes characters from the front, then the rest fits. -/
def Token.fits (rest : Rest → Bool) : Token → Rest → Bool
  | literal c => fitsOne (fun d => c == d.2) rest
  | any => fitsOne visible rest
  | sequence => fitsSequence rest
  | recursive => fun text => rest text || fitsLater rest text
  | within specifiers => fitsOne (fun c => visible c && specifiers.any (·.accepts c.2)) rest
  | except specifiers => fitsOne (fun c => visible c && !specifiers.any (·.accepts c.2)) rest

/-- The tokens take the whole text. -/
def fits : List Token → Rest → Bool
  | [] => List.isEmpty
  | token :: tokens => token.fits (fits tokens)

/-! ## Marks -/

/-- One mark for each rest of the text, the whole text first. -/
def marks (rest : Rest → Bool) : Rest → List Bool
  | [] => [rest []]
  | c :: text => rest (c :: text) :: marks rest text

theorem headD_marks (rest : Rest → Bool) (text : Rest) :
    (marks rest text).headD false = rest text := by
  cases text <;> rfl

theorem marks_isEmpty (text : Rest) :
    text.map (fun _ => false) ++ [true] = marks List.isEmpty text := by
  induction text with
  | nil => rfl
  | cons c text ih =>
    rw [List.map_cons, List.cons_append, ih, marks, List.isEmpty_cons]

theorem markOne_marks (takes : Bool × Char → Bool) (rest : Rest → Bool) (text : Rest) :
    markOne takes text (marks rest text) = marks (fitsOne takes rest) text := by
  induction text with
  | nil => rfl
  | cons c text ih =>
    simp only [marks, markOne, ih, headD_marks, fitsOne]

theorem markSequence_marks (rest : Rest → Bool) (text : Rest) :
    markSequence text (marks rest text) = marks (fitsSequence rest) text := by
  induction text with
  | nil => rfl
  | cons c text ih =>
    simp only [marks, markSequence, ih, headD_marks, fitsSequence]

theorem markLater_marks (rest : Rest → Bool) (text : Rest) :
    markLater text (marks rest text) = marks (fitsLater rest) text := by
  induction text with
  | nil => rfl
  | cons c text ih =>
    obtain ⟨atStart, c⟩ := c
    simp only [marks, markLater, ih, headD_marks, fitsLater]

theorem markRecursive_marks (rest : Rest → Bool) (text : Rest) :
    markRecursive text (marks rest text) = marks (Token.recursive.fits rest) text := by
  rw [markRecursive, markLater_marks]
  induction text with
  | nil => rfl
  | cons c text ih => simp only [marks, List.zipWith_cons_cons, ih, Token.fits]

theorem mark_marks (token : Token) (rest : Rest → Bool) (text : Rest) :
    token.mark text (marks rest text) = marks (token.fits rest) text := by
  cases token with
  | literal c => exact markOne_marks _ rest text
  | any => exact markOne_marks _ rest text
  | sequence => exact markSequence_marks rest text
  | recursive => exact markRecursive_marks rest text
  | within specifiers => exact markOne_marks _ rest text
  | except specifiers => exact markOne_marks _ rest text

theorem accepts_eq_fits (pattern : List Token) (t : Text) :
    accepts pattern t = fits pattern (marked true t) := by
  have hmarks : ∀ text : Rest,
      pattern.foldr (Token.mark text) (text.map (fun _ => false) ++ [true]) =
        marks (fits pattern) text := by
    intro text
    induction pattern with
    | nil => exact marks_isEmpty text
    | cons token tokens ih => rw [List.foldr_cons, ih, mark_marks, fits]
  rw [accepts]
  simp only [hmarks, headD_marks]

/-! ## Characters that are written out -/

/-- The token that takes a character and nothing else. -/
def spelled (c : Char) : Token :=
  if c = '?' ∨ c = '*' ∨ c = '[' ∨ c = ']' then .within [.single c] else .literal c

theorem fits_spelled_cons {c d : Char} {atStart : Bool} {tokens : List Token} {text : Rest}
    (h : fits (spelled c :: tokens) ((atStart, d) :: text) = true) :
    c = d ∧ fits tokens text = true := by
  rw [fits, spelled] at h
  split at h
  · simp only [Token.fits, fitsOne, Specifier.accepts, List.any_cons, List.any_nil, Bool.or_false,
      Bool.and_eq_true, beq_iff_eq] at h
    exact ⟨h.1.2, h.2⟩
  · simp only [Token.fits, fitsOne, Bool.and_eq_true, beq_iff_eq] at h
    exact h

theorem fits_spelled_nil (c : Char) (tokens : List Token) :
    fits (spelled c :: tokens) [] = false := by
  rw [fits, spelled]
  split <;> rfl

theorem eq_of_fits_spelled {t s : Text} {atStart : Bool}
    (h : fits (t.map spelled) (marked atStart s) = true) : s = t := by
  induction t generalizing s atStart with
  | nil =>
    cases s with
    | nil => rfl
    | cons d s => cases h
  | cons c t ih =>
    cases s with
    | nil =>
      rw [List.map_cons, marked, fits_spelled_nil] at h
      cases h
    | cons d s =>
      obtain ⟨rfl, hrest⟩ := fits_spelled_cons h
      rw [ih hrest]

/-- A text that is written out matches itself only. -/
theorem eq_of_accepts_spelled {t s : Text} (h : accepts (t.map spelled) s = true) : s = t := by
  rw [accepts_eq_fits] at h
  exact eq_of_fits_spelled h

private theorem exists_front_of_fits {t s : Text} {atStart : Bool}
    (h : fits (.sequence :: t.map spelled) (marked atStart s) = true) :
    ∃ front, s = front ++ t := by
  induction s generalizing atStart with
  | nil =>
    have hhere : fits (t.map spelled) (marked atStart []) = true := h
    exact ⟨[], eq_of_fits_spelled hhere⟩
  | cons c s ih =>
    rw [fits, marked, Token.fits, fitsSequence, Bool.or_eq_true, Bool.and_eq_true] at h
    rcases h with h | ⟨_, h⟩
    · have hhere : fits (t.map spelled) (marked atStart (c :: s)) = true := h
      exact ⟨[], eq_of_fits_spelled hhere⟩
    · obtain ⟨front, rfl⟩ := ih h
      exact ⟨c :: front, rfl⟩

/-- Behind any run of characters, a text that is written out stands at the end. -/
theorem exists_front_of_accepts {t s : Text} (h : accepts (.sequence :: t.map spelled) s = true) :
    ∃ front, s = front ++ t := by
  rw [accepts_eq_fits] at h
  exact exists_front_of_fits h

end Glob

end StyleBundle
