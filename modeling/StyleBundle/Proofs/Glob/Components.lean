import StyleBundle.Proofs.Glob.Matching
import StyleBundle.Proofs.Lists
import StyleBundle.Proofs.Path.Extension

/-!
# Patterns component by component

A pattern can be read as a whole, or each of its pieces between slashes on its own.  The two
readings match the same texts (`Glob.exists_tokensFrom_join`): a piece is read alike with more
text behind it (`Glob.exists_tokensFrom_append`), and `**` after `**` adds nothing
(`Glob.fits_recursive_recursive`).
-/

namespace StyleBundle

theorem Text.cutFirst?_append {mark : Char} {t before after : Text}
    (h : cutFirst? mark t = some (before, after)) (tail : Text) :
    cutFirst? mark (t ++ tail) = some (before, after ++ tail) ∧ before.length < t.length := by
  induction t generalizing before with
  | nil => cases h
  | cons c t ih =>
    rw [cutFirst?] at h
    rw [List.cons_append, cutFirst?]
    split_ifs at h ⊢ with hc
    · cases h
      exact ⟨rfl, by simp⟩
    · obtain ⟨⟨inside, rest⟩, hrest, hpair⟩ := Option.map_eq_some_iff.1 h
      cases hpair
      obtain ⟨happend, hlength⟩ := ih hrest
      rw [happend]
      exact ⟨rfl, by simpa using hlength⟩

namespace Glob

/-! ## Reading a piece -/

/-- Whether the token takes characters of one component only. -/
def Token.inComponent : Token → Bool
  | literal c => c != '/'
  | recursive => false
  | _ => true

theorem Token.inComponent_literal {c : Char} : (Token.literal c).inComponent = true ↔ c ≠ '/' :=
  bne_iff_ne

private theorem charClass?_append {t : Text} {token : Token} {more : Nat}
    (h : charClass? t = some (token, more)) (tail : Text) :
    charClass? (t ++ tail) = some (token, more) ∧ more ≤ t.length ∧
      ∃ specifiers, token = .within specifiers ∨ token = .except specifiers := by
  rw [charClass?.eq_def] at h
  split at h
  · rename_i first rest
    obtain ⟨⟨inside, after⟩, hcut, hpair⟩ := Option.map_eq_some_iff.1 h
    cases hpair
    obtain ⟨happend, hlength⟩ := Text.cutFirst?_append hcut tail
    refine ⟨?_, by simp only [List.length_cons]; omega, _, .inr rfl⟩
    rw [List.cons_append, List.cons_append, charClass?, happend]
    rfl
  · rename_i first rest hfirst
    split_ifs at h with hmark
    obtain ⟨⟨inside, after⟩, hcut, hpair⟩ := Option.map_eq_some_iff.1 h
    cases hpair
    obtain ⟨happend, hlength⟩ := Text.cutFirst?_append hcut tail
    refine ⟨?_, by simp only [List.length_cons]; omega, _, .inl rfl⟩
    rw [List.cons_append, charClass?, if_neg hmark, happend]
    · rfl
    · intro _ _ hc _
      exact hmark hc
  · cases h

/-- In the middle of a piece only one star can stand, and it is read alike with more text
behind. -/
private theorem stars_append {sofar read : List Token} {previous : Option Char}
    {position more : Nat} {rest tail : Text}
    (h : stars sofar previous position rest = .ok (read, more)) (hslash : '/' ∉ rest)
    (hprevious : previous ≠ some '/') (halone : previous = none → rest ≠ ['*'])
    (htail : tail.head? ≠ some '*') :
    read = .sequence :: sofar ∧ more = 0 ∧ rest.head? ≠ some '*' ∧
      ∀ sofar' previous' position',
        stars sofar' previous' position' (rest ++ tail) = .ok (.sequence :: sofar', 0) := by
  have hhead : rest.head? ≠ some '*' → (rest ++ tail).head? ≠ some '*' := by
    cases rest with
    | nil => exact fun _ => htail
    | cons c rest => exact id
  have hone : ∀ {t : Text}, t.head? ≠ some '*' → (t.takeWhile (· == '*')).length = 0 := by
    intro t ht
    cases t with
    | nil => rfl
    | cons c t =>
      have hc : c ≠ '*' := by simpa using ht
      simp [hc]
  rw [stars] at h
  split at h
  · rename_i hlength
    cases h
    have hstar : rest.head? ≠ some '*' := by
      cases rest with
      | nil => simp
      | cons c rest =>
        intro hc
        have hc : c = '*' := by simpa using hc
        simp [hc] at hlength
    refine ⟨rfl, rfl, hstar, fun sofar' previous' position' => ?_⟩
    simp only [stars, hone (hhead hstar)]
  · rename_i hlength
    split_ifs at h with hwhole
    rcases hwhole with hnone | hsome
    · -- the piece would be `**`, or `**` and a slash
      cases rest with
      | nil => cases hlength
      | cons c rest =>
        have hc : c = '*' := by
          by_contra hc
          simp [hc] at hlength
        rw [hc, List.drop_succ_cons, List.drop_zero] at h
        split at h
        · exact absurd (by rw [hc]) (halone hnone)
        · exact absurd (by simp) hslash
        · cases h
    · exact absurd hsome hprevious
  · cases h

/-- With the text behind it, what is left of a piece gives the tokens, whatever was read
before. -/
def ReadsAs (tail : Text) (skip : Nat) (t : Text) (added : List Token) : Prop :=
  ∀ sofar previous position, ∃ previous' position',
    tokensFrom sofar previous position skip (t ++ tail) =
      tokensFrom (added.reverse ++ sofar) previous' position' 0 tail

variable {sofar read : List Token} {previous : Option Char} {position skip : Nat} {t tail : Text}

/-- A literal token is written as its character, and `*` as a star with no other one behind it. -/
def Token.WrittenAt (c : Char) (t : Text) (more : Nat) : Token → Prop
  | literal d => c = d ∧ more = 0
  | sequence => c = '*' ∧ t.head? ≠ some '*' ∧ more = 0
  | _ => True

/-- Where a token starts in a piece, one token is read, and the same one with more text behind. -/
private theorem exists_token_of_tokensFrom {c : Char}
    (h : tokensFrom sofar previous position 0 (c :: t) = .ok read) (hslash : '/' ∉ c :: t)
    (hprevious : previous ≠ some '/') (halone : previous = none → c :: t ≠ ['*', '*'])
    (htail : tail.head? ≠ some '*') :
    ∃ token more, token.inComponent = true ∧ token.WrittenAt c t more ∧ more ≤ t.length ∧
      tokensFrom (token :: sofar) (some c) (position + 1) more t = .ok read ∧
      ∀ sofar' previous' position', tokensFrom sofar' previous' position' 0 (c :: t ++ tail) =
        tokensFrom (token :: sofar') (some c) (position' + 1) more (t ++ tail) := by
  rw [List.mem_cons, not_or] at hslash
  rw [tokensFrom] at h
  by_cases hany : c = '?'
  · rw [if_pos hany] at h
    refine ⟨.any, 0, rfl, trivial, Nat.zero_le _, h, fun sofar' previous' position' => ?_⟩
    rw [List.cons_append, tokensFrom, if_pos hany]
  rw [if_neg hany] at h
  by_cases hstar : c = '*'
  · rw [if_pos hstar] at h
    obtain ⟨⟨sofar', more⟩, hstars, h⟩ := bind_eq_ok_iff.1 h
    obtain ⟨rfl, rfl, hone, hmore⟩ := stars_append hstars hslash.2 hprevious
      (fun hnone hrest => halone hnone (by rw [hstar, hrest])) htail
    refine ⟨.sequence, 0, rfl, ⟨hstar, hone, rfl⟩, Nat.zero_le _, h,
      fun sofar' previous' position' => ?_⟩
    rw [List.cons_append, tokensFrom, if_neg hany, if_pos hstar, hmore]
    rfl
  rw [if_neg hstar] at h
  by_cases hclass : c = '['
  · rw [if_pos hclass] at h
    split at h
    · rename_i token more hread
      obtain ⟨happend, hlength, specifiers, htoken⟩ := charClass?_append hread tail
      have hkind : token.inComponent = true ∧ token.WrittenAt c t more := by
        rcases htoken with rfl | rfl <;> exact ⟨rfl, trivial⟩
      refine ⟨token, more, hkind.1, hkind.2, hlength, h, fun sofar' previous' position' => ?_⟩
      rw [List.cons_append, tokensFrom, if_neg hany, if_neg hstar, if_pos hclass, happend]
    · cases h
  rw [if_neg hclass] at h
  have htoken : (Token.literal c).inComponent = true :=
    Token.inComponent_literal.2 (Ne.symm hslash.1)
  refine ⟨.literal c, 0, htoken, ⟨rfl, rfl⟩, Nat.zero_le _, h,
    fun sofar' previous' position' => ?_⟩
  rw [List.cons_append, tokensFrom, if_neg hany, if_neg hstar, if_neg hclass]

/-- A piece other than `**` is read into tokens of one component, and into the same ones with more
text behind it. -/
private theorem exists_readsAs (h : tokensFrom sofar previous position skip t = .ok read)
    (hskip : skip ≤ t.length) (hslash : '/' ∉ t) (hprevious : previous ≠ some '/')
    (halone : previous = none → t ≠ ['*', '*']) (htail : tail.head? ≠ some '*') :
    ∃ added, read = sofar.reverse ++ added ∧ (∀ token ∈ added, token.inComponent = true) ∧
      ReadsAs tail skip t added := by
  induction t generalizing sofar previous position skip with
  | nil =>
    have hzero : skip = 0 := by simpa using hskip
    subst hzero
    cases h
    exact ⟨[], by simp, by simp, fun _ previous' position' => ⟨previous', position', rfl⟩⟩
  | cons c t ih =>
    have hrest : '/' ∉ t := fun hmem => hslash (List.mem_cons_of_mem c hmem)
    have hnext : some c ≠ some '/' := by
      intro hc
      exact hslash (by rw [Option.some.inj hc]; exact List.mem_cons_self)
    cases skip with
    | succ skip =>
      obtain ⟨added, hread, hadded, hall⟩ := ih h (by simpa using hskip) hrest hnext (by simp)
      exact ⟨added, hread, hadded, fun sofar' _ position' => hall sofar' (some c) (position' + 1)⟩
    | zero =>
      obtain ⟨token, more, htoken, _, hmore, hone, hall⟩ :=
        exists_token_of_tokensFrom h hslash hprevious halone htail
      obtain ⟨added, rfl, hadded, hreads⟩ := ih hone hmore hrest hnext (by simp)
      refine ⟨token :: added, by simp, by simpa [htoken] using hadded, ?_⟩
      intro sofar' previous' position'
      obtain ⟨previous'', position'', hreads⟩ := hreads (token :: sofar') (some c) (position' + 1)
      exact ⟨previous'', position'', by rw [hall, hreads]; simp⟩

theorem tokens_cases {piece : Text} (h : tokens piece = .ok read) (hslash : '/' ∉ piece) :
    piece = ['*', '*'] ∧ read = [.recursive] ∨
      (∀ token ∈ read, token.inComponent = true) ∧
        ∀ tail : Text, tail.head? ≠ some '*' → ReadsAs tail 0 piece read := by
  by_cases halone : piece = ['*', '*']
  · left
    subst halone
    cases h
    exact ⟨rfl, rfl⟩
  · right
    have hreads : ∀ tail : Text, tail.head? ≠ some '*' →
        (∀ token ∈ read, token.inComponent = true) ∧ ReadsAs tail 0 piece read := by
      intro tail htail
      obtain ⟨added, hread, hadded, hreads⟩ :=
        exists_readsAs h (Nat.zero_le _) hslash (by simp) (fun _ => halone) htail
      rw [List.reverse_nil, List.nil_append] at hread
      exact hread ▸ ⟨hadded, hreads⟩
    exact ⟨(hreads [] (by simp)).1, fun tail htail => (hreads tail htail).2⟩

/-- In a piece other than `**`, what is read starts with a token that is written at its start. -/
private theorem exists_cons_of_tokensFrom {c : Char}
    (h : tokensFrom sofar previous position 0 (c :: t) = .ok read) (hslash : '/' ∉ c :: t)
    (hprevious : previous ≠ some '/') (halone : previous = none → c :: t ≠ ['*', '*']) :
    ∃ token more added, read = sofar.reverse ++ token :: added ∧ token.inComponent = true ∧
      token.WrittenAt c t more ∧
      tokensFrom (token :: sofar) (some c) (position + 1) more t = .ok read := by
  have htail : ([] : Text).head? ≠ some '*' := by simp
  obtain ⟨token, more, htoken, hwritten, hmore, hone, _⟩ :=
    exists_token_of_tokensFrom h hslash hprevious halone htail
  have hrest : '/' ∉ t := fun hmem => hslash (List.mem_cons_of_mem c hmem)
  have hnext : some c ≠ some '/' := by
    intro hc
    exact hslash (by rw [Option.some.inj hc]; exact List.mem_cons_self)
  obtain ⟨added, hread, _⟩ := exists_readsAs hone hmore hrest hnext (by simp) htail
  exact ⟨token, more, added, by simpa using hread, htoken, hwritten, hone⟩

theorem tokens_ne_nil {piece : Text} (h : tokens piece = .ok read) (hne : piece ≠ [])
    (hslash : '/' ∉ piece) : read ≠ [] := by
  obtain ⟨c, t, rfl⟩ := List.exists_cons_of_ne_nil hne
  by_cases halone : c :: t = ['*', '*']
  · rw [halone] at h
    cases h
    decide
  · obtain ⟨token, more, added, rfl, _⟩ :=
      exists_cons_of_tokensFrom h hslash (by simp) fun _ => halone
    simp

/-- Only `.` and `.*` are read as a dot with nothing but stars behind it. -/
theorem eq_of_tokens_dot {piece : Text} (h : tokens piece = .ok (.literal '.' :: read))
    (hslash : '/' ∉ piece) (hstars : ∀ token ∈ read, token = .sequence) :
    piece = ['.'] ∨ piece = ['.', '*'] := by
  cases piece with
  | nil => cases h
  | cons c t =>
    have halone : c :: t ≠ ['*', '*'] := by
      intro hc
      rw [hc] at h
      cases h
    obtain ⟨token, more, added, hread, _, hwritten, hmore⟩ :=
      exists_cons_of_tokensFrom h hslash (by simp) fun _ => halone
    obtain ⟨rfl, rfl⟩ := List.cons.inj hread
    obtain ⟨rfl, rfl⟩ := hwritten
    rw [List.mem_cons, not_or] at hslash
    cases t with
    | nil => exact .inl rfl
    | cons d t =>
      obtain ⟨token, more, added, hread, _, hwritten, hmore⟩ :=
        exists_cons_of_tokensFrom hmore hslash.2 (by simp) (by simp)
      rw [List.reverse_singleton, List.singleton_append, List.cons.injEq] at hread
      obtain ⟨_, rfl⟩ := hread
      obtain rfl := hstars token List.mem_cons_self
      obtain ⟨rfl, hone, rfl⟩ := hwritten
      rw [List.mem_cons, not_or] at hslash
      cases t with
      | nil => exact .inr rfl
      | cons e t =>
        -- a second star would stand right behind the first
        obtain ⟨token, more, added, hread, _, hwritten, _⟩ :=
          exists_cons_of_tokensFrom hmore hslash.2.2 (by simp) (by simp)
        simp only [List.reverse_cons, List.reverse_nil, List.nil_append, List.cons_append,
          List.cons.injEq] at hread
        obtain rfl := hstars token (by rw [hread.2.2]; simp)
        exact absurd (by rw [hwritten.1]; rfl) hone

/-! ## Pieces put together -/

/-- The tokens of a pattern from those of its pieces.  A slash behind `**` belongs to it. -/
def joined : List (List Token) → List Token
  | [] => []
  | [tokens] => tokens
  | tokens :: next :: rest =>
    if tokens = [.recursive] then .recursive :: joined (next :: rest)
    else tokens ++ .literal '/' :: joined (next :: rest)

theorem fits_append (front : List Token) {back back' : List Token} (h : fits back = fits back') :
    fits (front ++ back) = fits (front ++ back') := by
  induction front with
  | nil => exact h
  | cons token front ih => rw [List.cons_append, List.cons_append, fits, fits, ih]

private theorem fitsLater_or_fitsLater (rest : Rest → Bool) (text : Rest) :
    fitsLater (fun text => rest text || fitsLater rest text) text = fitsLater rest text := by
  induction text with
  | nil => simp [fitsLater]
  | cons c text ih =>
    rw [fitsLater, fitsLater, ih]
    split_ifs
    · rfl
    · rw [Bool.or_assoc, Bool.or_self]
    · rfl

/-- `**` after `**` adds nothing. -/
theorem fits_recursive_recursive (tokens : List Token) :
    fits (.recursive :: .recursive :: tokens) = fits (.recursive :: tokens) := by
  funext text
  show (fits tokens text || fitsLater (fits tokens) text ||
    fitsLater (fun text => fits tokens text || fitsLater (fits tokens) text) text) =
      (fits tokens text || fitsLater (fits tokens) text)
  rw [fitsLater_or_fitsLater, Bool.or_assoc, Bool.or_self]

private theorem fits_pushRecursive (sofar tokens : List Token) :
    fits ((pushRecursive sofar).reverse ++ tokens) =
      fits (sofar.reverse ++ .recursive :: tokens) := by
  rw [pushRecursive.eq_def]
  split
  · rename_i token earlier
    rw [List.reverse_cons, List.append_assoc, List.append_assoc]
    exact fits_append _ (fits_recursive_recursive tokens).symm
  · rw [List.reverse_cons, List.append_assoc]
    rfl

/-- Pieces that can be read make a pattern that can be read, and it matches what their tokens put
together match. -/
theorem exists_tokensFrom_join {pieces : List Text} {parts : List (List Token)}
    (h : List.Forall₂ (fun piece part => tokens piece = .ok part) pieces parts)
    (hslash : ∀ piece ∈ pieces, '/' ∉ piece) (hprevious : previous = none ∨ previous = some '/') :
    ∃ read, tokensFrom sofar previous position 0 (Text.joinWith ['/'] pieces) = .ok read ∧
      fits read = fits (sofar.reverse ++ joined parts) := by
  induction h generalizing sofar previous position with
  | nil => exact ⟨sofar.reverse, rfl, by rw [joined, List.append_nil]⟩
  | @cons piece part pieces parts hpiece hpieces ih =>
    have hrest : ∀ other ∈ pieces, '/' ∉ other :=
      fun other hother => hslash other (List.mem_cons_of_mem piece hother)
    rcases tokens_cases hpiece (hslash piece List.mem_cons_self) with ⟨rfl, rfl⟩ | ⟨hpart, hreads⟩
    · cases hpieces with
      | nil =>
        refine ⟨(pushRecursive sofar).reverse, ?_, ?_⟩
        · rcases hprevious with rfl | rfl <;> rfl
        · have hpush := fits_pushRecursive sofar []
          rw [List.append_nil] at hpush
          exact hpush
      | @cons next nextPart pieces parts hnext hmore =>
        have htext : tokensFrom sofar previous position 0
            (Text.joinWith ['/'] (['*', '*'] :: next :: pieces)) =
              tokensFrom (pushRecursive sofar) (some '/') (position + 3) 0
                (Text.joinWith ['/'] (next :: pieces)) := by
          rcases hprevious with rfl | rfl <;> rfl
        obtain ⟨read, hread, hfits⟩ :=
          ih hrest (.inr rfl)
        refine ⟨read, by rw [htext]; exact hread, ?_⟩
        rw [hfits, fits_pushRecursive, joined, if_pos rfl]
    · cases hpieces with
      | nil =>
        obtain ⟨previous', position', hone⟩ := hreads [] (by simp) sofar previous position
        rw [List.append_nil] at hone
        refine ⟨_, hone, ?_⟩
        simp [joined]
      | @cons next nextPart pieces parts hnext hmore =>
        obtain ⟨previous', position', hone⟩ :=
          hreads ('/' :: Text.joinWith ['/'] (next :: pieces)) (by simp) sofar previous position
        have hwhole : part ≠ [.recursive] := by
          rintro rfl
          exact absurd (hpart .recursive List.mem_cons_self) (by decide)
        obtain ⟨read, hread, hfits⟩ := ih hrest (.inr rfl)
        refine ⟨read, ?_, ?_⟩
        · rw [Text.joinWith_cons_cons, List.append_assoc, List.singleton_append, hone]
          exact hread
        · rw [hfits, joined, if_neg hwhole]
          simp

end Glob

end StyleBundle
