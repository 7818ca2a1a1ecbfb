import Mathlib.Data.List.Chain
import Mathlib.Data.List.Forall2
import Mathlib.Tactic.SplitIfs
import StyleBundle.Wildcard

/-!
# What a wildcard pattern stands for

The meaning of a pattern, written down without the matcher.

* `Wildcard.Spells` says which tokens a pattern text is made of.  The texts of the tokens make up
  the pattern, and a single star is never followed by another star, so two stars are taken
  together wherever they can be.
* `Wildcard.Token.Takes` says which texts one token stands for.
* `Wildcard.Cuts` cuts a text into one piece for each token.

A pattern is spelled by one list of tokens, the one that is read from it (`Wildcard.spells_iff`).
The matcher goes through the tokens from the last to the first, and one token keeps its marks
right (`Wildcard.Marked.token`).  So the marks of all tokens say which suffixes of the text can be
cut (`Wildcard.marked_marks`), and a pattern accepts the texts that can be cut
(`Wildcard.accepts_iff_cuts`).
-/

namespace StyleBundle

namespace Wildcard

/-! ## The meaning of a pattern -/

/-- The characters that spell a token. -/
def Token.text : Token → Text
  | literal c => [c]
  | one => ['?']
  | run => ['*']
  | deepRun => ['*', '*']

/-- A token that is spelled with stars. -/
def Token.IsStar (token : Token) : Prop :=
  token = .run ∨ token = .deepRun

/-- The tokens that a pattern is made of. -/
structure Spells (ts : List Token) (pattern : Text) : Prop where
  text_eq : ts.flatMap Token.text = pattern
  /-- The characters with a meaning of their own do not stand for themselves. -/
  literal_ne : ∀ c, .literal c ∈ ts → c ≠ '*' ∧ c ≠ '?'
  /-- A star stands alone only where no other star follows. -/
  pairs_first : ts.IsChain fun token next => token = .run → ¬ next.IsStar

/-- The token stands for the piece of text. -/
def Token.Takes : Token → Text → Prop
  | literal c, piece => piece = [c]
  | one, piece => ∃ c, c ≠ '/' ∧ piece = [c]
  | run, piece => '/' ∉ piece
  | deepRun, piece => '\n' ∉ piece

/-- The text is cut into consecutive pieces, one for each token. -/
def Cuts (ts : List Token) (text : Text) : Prop :=
  ∃ pieces, List.Forall₂ Token.Takes ts pieces ∧ pieces.flatten = text

theorem cuts_nil {text : Text} : Cuts [] text ↔ text = [] := by
  simp [Cuts, eq_comm]

theorem cuts_cons {token : Token} {ts : List Token} {text : Text} :
    Cuts (token :: ts) text ↔ ∃ front rest, text = front ++ rest ∧ token.Takes front ∧
    Cuts ts rest := by
  constructor
  · rintro ⟨_, hpieces, rfl⟩
    obtain ⟨front, pieces, hfront, hrest, rfl⟩ := List.forall₂_cons_left_iff.1 hpieces
    exact ⟨front, pieces.flatten, List.flatten_cons, hfront, pieces, hrest, rfl⟩
  · rintro ⟨front, _, rfl, hfront, pieces, hrest, rfl⟩
    exact ⟨front :: pieces, .cons hfront hrest, List.flatten_cons⟩

/-! ## Reading a pattern -/

theorem tokens_literal {c : Char} (hstar : c ≠ '*') (hone : c ≠ '?') (rest : Text) :
    tokens (c :: rest) = .literal c :: tokens rest := by
  rw [tokens]
  · simp [hstar]
  · exact hstar
  · exact hone

theorem tokens_run {rest : Text} (h : rest.head? ≠ some '*') :
    tokens ('*' :: rest) = .run :: tokens rest := by
  rw [tokens]
  rintro rest rfl
  exact h rfl

theorem Spells.tail {token : Token} {ts : List Token} {pattern : Text}
    (h : Spells (token :: ts) pattern) : Spells ts (ts.flatMap Token.text) where
  text_eq := rfl
  literal_ne c hc := h.literal_ne c (List.mem_cons_of_mem token hc)
  pairs_first := h.pairs_first.tail

/-- One more token in front of a pattern.  A single star must not meet another star. -/
theorem Spells.cons {token : Token} {ts : List Token} {pattern : Text} (h : Spells ts pattern)
    (hliteral : ∀ c, token = .literal c → c ≠ '*' ∧ c ≠ '?')
    (hstar : token = .run → pattern.head? ≠ some '*') :
    Spells (token :: ts) (token.text ++ pattern) where
  text_eq := by rw [List.flatMap_cons, h.text_eq]
  literal_ne c hc := by
    rcases List.mem_cons.1 hc with hc | hc
    · exact hliteral c hc.symm
    · exact h.literal_ne c hc
  pairs_first := by
    refine List.isChain_cons.2 ⟨fun next hnext hrun hnextStar => ?_, h.pairs_first⟩
    obtain ⟨ts, rfl⟩ : ∃ rest, ts = next :: rest := by
      cases ts with
      | nil => cases hnext
      | cons first rest => exact ⟨rest, by rw [Option.some.inj hnext]⟩
    apply hstar hrun
    rw [← h.text_eq]
    rcases hnextStar with rfl | rfl
    · rfl
    · rfl

theorem spells_tokens (pattern : Text) : Spells (tokens pattern) pattern := by
  fun_induction tokens pattern with
  | case1 => exact ⟨rfl, by simp, .nil⟩
  | case2 rest ih => exact ih.cons (by simp) (by simp)
  | case3 rest hsingle ih =>
    refine ih.cons (by simp) fun _ hhead => ?_
    cases rest with
    | nil => cases hhead
    | cons c rest =>
      rw [List.head?_cons, Option.some.injEq] at hhead
      exact hsingle rest (by rw [hhead])
  | case4 rest ih => exact ih.cons (by simp) (by simp)
  | case5 c rest _ hstar hone ih =>
    refine ih.cons (fun d hd => ?_) (by simp)
    cases hd
    exact ⟨hstar, hone⟩

/-- What follows a single star does not start with a star. -/
theorem Spells.head?_ne_of_run {ts : List Token} {pattern : Text}
    (h : Spells (.run :: ts) pattern) :
    (ts.flatMap Token.text).head? ≠ some '*' := by
  cases ts with
  | nil => simp
  | cons next ts =>
    have hnext : ¬ next.IsStar := (List.isChain_cons_cons.1 h.pairs_first).1 rfl
    cases next with
    | literal c =>
      have hc := h.literal_ne c (by simp)
      simpa [Token.text] using hc.1
    | one => simp [Token.text]
    | run => exact absurd (.inl rfl) hnext
    | deepRun => exact absurd (.inr rfl) hnext

/-- The tokens of a pattern are read back from it. -/
theorem Spells.tokens_eq {ts : List Token} {pattern : Text} (h : Spells ts pattern) :
    tokens pattern = ts := by
  obtain rfl := h.text_eq
  induction ts with
  | nil => rfl
  | cons token ts ih =>
    have hrest := ih h.tail
    rw [List.flatMap_cons]
    cases token with
    | literal c =>
      obtain ⟨hstar, hone⟩ := h.literal_ne c List.mem_cons_self
      rw [Token.text, List.singleton_append, tokens_literal hstar hone, hrest]
    | one => exact congrArg (Token.one :: ·) hrest
    | deepRun => exact congrArg (Token.deepRun :: ·) hrest
    | run =>
      rw [Token.text, List.singleton_append, tokens_run h.head?_ne_of_run, hrest]

/-- A pattern is spelled by the tokens that are read from it, and by no others. -/
theorem spells_iff {ts : List Token} {pattern : Text} : Spells ts pattern ↔ ts = tokens pattern :=
  ⟨fun h => h.tokens_eq.symm, fun h => h ▸ spells_tokens pattern⟩

/-! ## Marks -/

/-- There is one mark for each suffix of the text, the longest first, and it tells whether `P`
holds. -/
inductive Marked (P : Text → Prop) : Text → List Bool → Prop
  | nil (mark : Bool) (h : mark = true ↔ P []) : Marked P [] [mark]
  | cons (c : Char) (text : Text) (mark : Bool) (marks : List Bool)
      (h : mark = true ↔ P (c :: text)) (hrest : Marked P text marks) :
    Marked P (c :: text) (mark :: marks)

variable {P Q : Text → Prop} {text : Text} {marks : List Bool} {takes : Char → Bool}

theorem Marked.headD_iff (h : Marked P text marks) : marks.headD false = true ↔ P text := by
  cases h with
  | nil mark h => exact h
  | cons c text mark marks h _ => exact h

theorem Marked.congr (h : Marked P text marks) (hPQ : ∀ s, P s ↔ Q s) : Marked Q text marks := by
  induction h with
  | nil mark h => exact .nil mark (h.trans (hPQ _))
  | cons c text mark marks h _ ih => exact .cons c text mark marks (h.trans (hPQ _)) ih

theorem marked_markEnd (text : Text) : Marked (· = []) text (markEnd text) := by
  induction text with
  | nil => exact .nil true (by simp)
  | cons c text ih => exact .cons c text false _ (by simp) ih

/-- Marks for one character in front of what was marked. -/
theorem Marked.one (h : Marked P text marks) :
    Marked (fun s => ∃ c rest, s = c :: rest ∧ takes c = true ∧ P rest) text
      (markOne takes text marks) := by
  induction h with
  | nil mark _ => exact .nil false (by simp)
  | cons c text mark marks _ hrest ih =>
    refine .cons c text _ _ ?_ ih
    rw [Bool.and_eq_true, hrest.headD_iff]
    simp

/-- Marks for any run of characters in front of what was marked. -/
theorem Marked.run (h : Marked P text marks) :
    Marked (fun s => ∃ front rest, s = front ++ rest ∧ (∀ c ∈ front, takes c = true) ∧
      P rest) text (markRun takes text marks) := by
  induction h with
  | nil mark h =>
    refine .nil mark (h.trans ⟨fun hP => ⟨[], [], rfl, by simp, hP⟩, ?_⟩)
    rintro ⟨front, rest, hnil, _, hP⟩
    rwa [(List.append_eq_nil_iff.1 hnil.symm).2] at hP
  | cons c text mark marks hmark _ ih =>
    refine .cons c text _ _ ?_ ih
    rw [Bool.or_eq_true, Bool.and_eq_true, hmark, ih.headD_iff]
    constructor
    · rintro (hP | ⟨hc, front, rest, rfl, hfront, hP⟩)
      · exact ⟨[], c :: text, rfl, by simp, hP⟩
      · exact ⟨c :: front, rest, rfl, List.forall_mem_cons.2 ⟨hc, hfront⟩, hP⟩
    · rintro ⟨front, rest, hsplit, hfront, hP⟩
      -- The run is empty, or the character is the first one of it.
      cases front with
      | nil =>
        rw [List.nil_append] at hsplit
        exact .inl (hsplit ▸ hP)
      | cons d front =>
        obtain ⟨rfl, rfl⟩ := List.cons.inj hsplit
        obtain ⟨hc, hfront⟩ := List.forall_mem_cons.1 hfront
        exact .inr ⟨hc, front, rest, rfl, hfront, hP⟩

/-- Marks for a token in front of what was marked. -/
theorem Marked.token (h : Marked P text marks) (token : Token) :
    Marked (fun s => ∃ front rest, s = front ++ rest ∧ token.Takes front ∧ P rest) text
      (token.mark text marks) := by
  cases token with
  | literal c =>
    refine h.one.congr fun s => ?_
    simp [Token.Takes]
  | one =>
    refine h.one.congr fun s => ?_
    simp only [bne_iff_ne, Token.Takes]
    constructor
    · rintro ⟨c, rest, rfl, hc, hP⟩
      exact ⟨[c], rest, rfl, ⟨c, hc, rfl⟩, hP⟩
    · rintro ⟨_, rest, rfl, ⟨c, hc, rfl⟩, hP⟩
      exact ⟨c, rest, rfl, hc, hP⟩
  | run =>
    refine h.run.congr fun s => ?_
    simp only [bne_iff_ne, ne_eq, Token.Takes, List.forall_mem_ne']
  | deepRun =>
    refine h.run.congr fun s => ?_
    simp only [bne_iff_ne, ne_eq, Token.Takes, List.forall_mem_ne']

/-- The marks of a list of tokens tell which suffixes of the text it cuts. -/
theorem marked_marks (text : Text) (ts : List Token) :
    Marked (Cuts ts) text (Wildcard.marks text ts) := by
  induction ts with
  | nil => exact (marked_markEnd text).congr fun s => cuts_nil.symm
  | cons token ts ih => exact (ih.token token).congr fun s => cuts_cons.symm

/-! ## Accepted texts -/

/-- A pattern that is not too large is spelled by one list of tokens.  It accepts a text exactly
when the text can be cut into pieces that these tokens stand for, backslashes being slashes on
both sides. -/
theorem accepts_iff_cuts (pattern : Text) (w : Wildcard) (h : compile? pattern = some w) :
    ∃ ts, (∀ ts', Spells ts' pattern.slashed ↔ ts' = ts) ∧
      ∀ text : Text, w.accepts text = true ↔ Cuts ts text.slashed := by
  obtain rfl : w = ⟨pattern⟩ := by
    rw [compile?] at h
    split_ifs at h
    exact (Option.some.inj h).symm
  refine ⟨tokens pattern.slashed, fun ts' => spells_iff, fun text => ?_⟩
  exact (marked_marks text.slashed (tokens pattern.slashed)).headD_iff

/-! ### Three stars, a backslash and a sign that is special elsewhere -/

/-- A pattern with a backslash, three stars in a row and a sign that stands for itself. -/
def nestedPattern : Text := "x\\***?+".toList

/-- The pattern as it is read. -/
def nestedTokens : List Token :=
  [.literal 'x', .literal '/', .deepRun, .run, .one, .literal '+']

/-- A question mark takes no slash, so the second text cannot be cut. -/
theorem nested_cuts :
    compile? nestedPattern = some ⟨nestedPattern⟩ ∧
      (Wildcard.mk nestedPattern).accepts "x/a/b\nc+".toList = true ∧
      ¬ Cuts nestedTokens "x/a/b/+".toList := by
  obtain ⟨ts, hspells, haccepts⟩ := accepts_iff_cuts nestedPattern ⟨nestedPattern⟩ rfl
  obtain rfl : nestedTokens = ts :=
    (hspells _).1 ⟨rfl, by simp [nestedTokens], by simp [nestedTokens, Token.IsStar]⟩
  refine ⟨rfl, (haccepts _).2
    ⟨["x".toList, "/".toList, "a/b".toList, "\n".toList, "c".toList, "+".toList],
    ?_, rfl⟩, fun hcuts => ?_⟩
  · simp [nestedTokens, Token.Takes]
  · have haccepted := (haccepts "x/a/b/+".toList).2 hcuts
    cases haccepted

end Wildcard

end StyleBundle
