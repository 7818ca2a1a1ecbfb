import StyleBundle.Glob.Walk
import StyleBundle.Proofs.Glob.Components

/-!
# Patterns and the names of a path

A pattern is used in two ways: it is matched with a relative path as a text, and it is cut into
steps that take the names of the path one by one.  `Glob.covers` says what steps take.  For a path
of names that are not hidden the two agree (`Glob.fits_joined_eq_covers`), unless `**` stands at
the end.

There are four groups.

* Steps and names.  `covers` does not change when runs of `**` are taken together
  (`covers_collapse`).
* One component.  A step takes the names that its tokens match (`accepts_stepOf`).
* Texts with slashes.  Tokens of one component stop at a slash (`fits_append_slash`), and `**`
  goes on behind one (`fitsLater_append_slash`).
* The assembly.  The induction is on the pieces of the pattern.
-/

namespace StyleBundle

namespace Glob

/-! ## Steps and names -/

/-- One name is taken, then the rest is covered. -/
def coversOne (takes : Text → Bool) (rest : List Text → Bool) : List Text → Bool
  | [] => false
  | name :: names => takes name && rest names

/-- Some names are passed over, then the rest is covered. -/
def coversLater (rest : List Text → Bool) : List Text → Bool
  | [] => rest []
  | name :: names => rest (name :: names) || coversLater rest names

/-- Whether the steps take the names, all of them and one by one. -/
def covers : List Step → List Text → Bool
  | [] => List.isEmpty
  | .recursive :: rest => coversLater (covers rest)
  | step :: rest => coversOne step.accepts (covers rest)

theorem covers_cons {step : Step} (h : step ≠ .recursive) (rest : List Step) :
    covers (step :: rest) = coversOne step.accepts (covers rest) := by
  cases step with
  | name name => rfl
  | pattern tokens => rfl
  | recursive => exact absurd rfl h

private theorem coversLater_coversLater (rest : List Text → Bool) :
    coversLater (coversLater rest) = coversLater rest := by
  funext names
  induction names with
  | nil => rfl
  | cons name names ih =>
    rw [coversLater, ih, coversLater, Bool.or_assoc, Bool.or_self]

theorem covers_collapse (steps : List Step) : covers (collapse steps) = covers steps := by
  induction steps with
  | nil => rfl
  | cons step steps ih =>
    cases step with
    | name name =>
      show covers (.name name :: collapse steps) = _
      rw [covers_cons (by simp), covers_cons (by simp), ih]
    | pattern tokens =>
      show covers (.pattern tokens :: collapse steps) = _
      rw [covers_cons (by simp), covers_cons (by simp), ih]
    | recursive =>
      rw [collapse, covers, ← ih]
      split
      · rename_i later hlater
        rw [hlater, covers, coversLater_coversLater]
      · rfl

/-- Steps take no names at all only if each of them may take none. -/
theorem covers_nil {steps : List Step} {step : Step} (hmem : step ∈ steps)
    (h : step ≠ .recursive) :
    covers steps [] = false := by
  induction steps with
  | nil => cases hmem
  | cons first steps ih =>
    by_cases hfirst : first = .recursive
    · rcases List.mem_cons.1 hmem with rfl | hmem
      · exact absurd hfirst h
      · rw [hfirst]
        exact ih hmem
    · rw [covers_cons hfirst]
      rfl

/-! ## One component -/

private theorem fits_of_literal? {tokens : List Token} {name : Text}
    (h : literal? tokens = some name) (atStart : Bool) (given : Text) :
    fits tokens (marked atStart given) = (name == given) := by
  induction tokens generalizing name atStart given with
  | nil =>
    cases h
    cases given <;> rfl
  | cons token tokens ih =>
    cases token with
    | literal c =>
      obtain ⟨rest, hrest, rfl⟩ := Option.map_eq_some_iff.1 h
      cases given with
      | nil => rfl
      | cons d given =>
        show (c == d && fits tokens (marked (d == '/') given)) = _
        rw [ih hrest]
        rfl
    | any => cases h
    | sequence => cases h
    | recursive => cases h
    | within specifiers => cases h
    | except specifiers => cases h

theorem recursive_notMem {part : List Token} (hpart : ∀ token ∈ part, token.inComponent = true) :
    .recursive ∉ part :=
  fun hmem => absurd (hpart .recursive hmem) (by decide)

theorem stepOf_ne_recursive {part : List Token}
    (hpart : ∀ token ∈ part, token.inComponent = true) : stepOf part ≠ .recursive := by
  rw [stepOf]
  split
  · simp
  · rw [if_neg (by rw [List.contains_iff_mem]; exact recursive_notMem hpart)]
    simp

/-- The step of tokens of one component takes the names that the tokens match. -/
theorem accepts_stepOf {part : List Token} (hpart : ∀ token ∈ part, token.inComponent = true)
    (name : Text) : (stepOf part).accepts name = fits part (marked true name) := by
  rw [stepOf]
  split
  · rename_i wanted hwanted
    rw [fits_of_literal? hwanted]
    rfl
  · rw [if_neg (by rw [List.contains_iff_mem]; exact recursive_notMem hpart), Step.accepts,
      accepts_eq_fits]

/-! ## Texts with slashes -/

section Slash

variable {rest rest' : Rest → Bool} {behind : Text} {x : Bool}

/-- Before a slash, one question has the answer that another one has when nothing follows, and
then `x` has to hold. -/
def StopsAtSlash (rest rest' : Rest → Bool) (behind : Text) (x : Bool) : Prop :=
  ∀ (atStart : Bool) (name : Text), '/' ∉ name →
    rest' (marked atStart (name ++ '/' :: behind)) = (rest (marked atStart name) && x)

private theorem StopsAtSlash.fitsOne {takes : Bool × Char → Bool}
    (h : StopsAtSlash rest rest' behind x) (htakes : ∀ atStart, takes (atStart, '/') = false) :
    StopsAtSlash (fitsOne takes rest) (fitsOne takes rest') behind x := by
  intro atStart name hname
  cases name with
  | nil => simp [marked, Glob.fitsOne, htakes]
  | cons c name =>
    rw [List.cons_append, marked, marked, Glob.fitsOne, Glob.fitsOne,
      h _ _ (fun hmem => hname (List.mem_cons_of_mem c hmem)), Bool.and_assoc]

private theorem StopsAtSlash.fitsSequence (h : StopsAtSlash rest rest' behind x) :
    StopsAtSlash (fitsSequence rest) (fitsSequence rest') behind x := by
  intro atStart name hname
  have hhere := h atStart name hname
  induction name generalizing atStart with
  | nil =>
    simpa [marked, Glob.fitsSequence, visible] using hhere
  | cons c name ih =>
    have hmore : '/' ∉ name := fun hmem => hname (List.mem_cons_of_mem c hmem)
    have hlater := ih (c == '/') hmore (h _ name hmore)
    rw [List.cons_append, marked, marked] at hhere ⊢
    rw [Glob.fitsSequence, Glob.fitsSequence, hhere, hlater, Bool.and_or_distrib_right,
      Bool.and_assoc]

private theorem StopsAtSlash.token_fits {token : Token} (htoken : token.inComponent = true)
    (h : StopsAtSlash rest rest' behind x) :
    StopsAtSlash (token.fits rest) (token.fits rest') behind x := by
  cases token with
  | literal c =>
    apply h.fitsOne
    intro _
    exact beq_eq_false_iff_ne.2 (Token.inComponent_literal.1 htoken)
  | any => exact h.fitsOne fun _ => rfl
  | sequence => exact h.fitsSequence
  | recursive => cases htoken
  | within specifiers => exact h.fitsOne fun _ => rfl
  | except specifiers => exact h.fitsOne fun _ => rfl

private theorem StopsAtSlash.fits_append {part back : List Token}
    (hpart : ∀ token ∈ part, token.inComponent = true)
    (hback : StopsAtSlash List.isEmpty (fits back) behind x) :
    StopsAtSlash (fits part) (fits (part ++ back)) behind x := by
  induction part with
  | nil => exact hback
  | cons token part ih =>
    have hrest := ih fun other hother => hpart other (List.mem_cons_of_mem token hother)
    exact hrest.token_fits (hpart token List.mem_cons_self)

end Slash

/-- Tokens of one component and a slash take the name before the first slash of a text. -/
theorem fits_append_slash {part : List Token} (hpart : ∀ token ∈ part, token.inComponent = true)
    (back : List Token) {name : Text} (hname : '/' ∉ name) (behind : Text) :
    fits (part ++ .literal '/' :: back) (marked true (name ++ '/' :: behind)) =
      (fits part (marked true name) && fits back (marked true behind)) := by
  refine StopsAtSlash.fits_append hpart ?_ true name hname
  intro atStart name hname
  cases name with
  | nil => rfl
  | cons c name =>
    have hc : '/' ≠ c := fun hc => hname (hc ▸ List.mem_cons_self)
    simp [fits, Token.fits, fitsOne, marked, hc]

/-- Tokens of one component take no text with a slash. -/
theorem fits_slash {part : List Token} (hpart : ∀ token ∈ part, token.inComponent = true)
    {name : Text} (hname : '/' ∉ name) (behind : Text) :
    fits part (marked true (name ++ '/' :: behind)) = false := by
  have hstops : StopsAtSlash (fits part) (fits (part ++ [])) behind false := by
    refine StopsAtSlash.fits_append hpart ?_
    intro atStart name _
    cases name <;> rfl
  have h := hstops true name hname
  rw [List.append_nil, Bool.and_false] at h
  exact h

private theorem fitsLater_inside (rest : Rest → Bool) {name : Text} (hname : '/' ∉ name)
    (tail : Text) :
    fitsLater rest (marked false (name ++ tail)) = fitsLater rest (marked false tail) := by
  induction name with
  | nil => rfl
  | cons c name ih =>
    rw [List.mem_cons, not_or] at hname
    have hc : (c == '/') = false := beq_false_of_ne (Ne.symm hname.1)
    rw [List.cons_append, marked, fitsLater, if_neg (by simp), hc, if_neg (by simp), ih hname.2]

/-- A name that can stand in a relative path and is not hidden. -/
structure Plain (name : Text) : Prop where
  nonempty : name ≠ []
  slash : '/' ∉ name
  visible : name.head? ≠ some '.'

variable {name : Text}

/-- `**` passes over a name that is not hidden. -/
private theorem Plain.fitsLater_append (hname : Plain name) (rest : Rest → Bool) (tail : Text) :
    fitsLater rest (marked true (name ++ tail)) = fitsLater rest (marked false tail) := by
  cases name with
  | nil => exact absurd rfl hname.nonempty
  | cons c name =>
    have hslash := hname.slash
    rw [List.mem_cons, not_or] at hslash
    have hdot : ¬(true && c == '.') = true := by simpa using hname.visible
    have hc : (c == '/') = false := beq_false_of_ne (Ne.symm hslash.1)
    rw [List.cons_append, marked, fitsLater, if_neg hdot, hc, if_neg (by simp),
      fitsLater_inside rest hslash.2]

theorem Plain.fitsLater_slash (hname : Plain name) (rest : Rest → Bool) (behind : Text) :
    fitsLater rest (marked true (name ++ '/' :: behind)) =
      (rest (marked true behind) || fitsLater rest (marked true behind)) := by
  rw [hname.fitsLater_append]
  rfl

theorem Plain.fitsLater_eq (hname : Plain name) (rest : Rest → Bool) :
    fitsLater rest (marked true name) = rest [] := by
  have h := hname.fitsLater_append rest []
  rw [List.append_nil] at h
  exact h

/-! ## Tokens that need no text -/

/-- Tokens that match the empty text are stars. -/
theorem eq_of_fits_nil {tokens : List Token} (h : fits tokens [] = true) {token : Token}
    (hmem : token ∈ tokens) : token = .sequence ∨ token = .recursive := by
  induction tokens with
  | nil => cases hmem
  | cons first tokens ih =>
    cases first with
    | sequence =>
      rcases List.mem_cons.1 hmem with rfl | hmem
      · exact .inl rfl
      · exact ih h hmem
    | recursive =>
      have hrest : fits tokens [] = true := by simpa [fits, Token.fits, fitsLater] using h
      rcases List.mem_cons.1 hmem with rfl | hmem
      · exact .inr rfl
      · exact ih hrest hmem
    | literal c => cases h
    | any => cases h
    | within specifiers => cases h
    | except specifiers => cases h

private theorem fitsSequence_visible {rest : Rest → Bool} (h : rest [] = true) {atStart : Bool}
    (hslash : '/' ∉ name) (hvisible : atStart = true → name.head? ≠ some '.') :
    fitsSequence rest (marked atStart name) = true := by
  induction name generalizing atStart with
  | nil => exact h
  | cons c name ih =>
    rw [List.mem_cons, not_or] at hslash
    have hc : (c == '/') = false := beq_false_of_ne (Ne.symm hslash.1)
    have hmark : visible (atStart, c) = true := by
      cases atStart with
      | false => simp [visible, Ne.symm hslash.1]
      | true =>
        have hdot : c ≠ '.' := by simpa using hvisible rfl
        simp [visible, Ne.symm hslash.1, hdot]
    rw [marked, fitsSequence, hmark, hc, ih hslash.2 (by simp)]
    simp

/-- Tokens that match the empty text, a `*` among them, match any name that is not hidden. -/
private theorem Plain.fits_of_fits_nil (hname : Plain name) {tokens : List Token}
    (h : fits tokens [] = true) (hmem : .sequence ∈ tokens) :
    fits tokens (marked true name) = true := by
  induction tokens with
  | nil => cases hmem
  | cons first tokens ih =>
    rcases eq_of_fits_nil h List.mem_cons_self with rfl | rfl
    · have hrest : fits tokens [] = true := h
      exact fitsSequence_visible hrest hname.slash fun _ => hname.visible
    · have hrest : fits tokens [] = true := by simpa [fits, Token.fits, fitsLater] using h
      have hlater := ih hrest (by simpa using hmem)
      show (fits tokens _ || _) = true
      rw [hlater, Bool.true_or]

/-! ## Characters that a pattern asks for -/

/-- What follows a token takes a rest of the text. -/
private theorem exists_suffix_of_token_fits {token : Token} {rest : Rest → Bool} {text : Rest}
    (h : token.fits rest text = true) : ∃ later, later <:+ text ∧ rest later = true := by
  have hone : ∀ {takes : Bool × Char → Bool}, fitsOne takes rest text = true →
      ∃ later, later <:+ text ∧ rest later = true := by
    intro takes h
    cases text with
    | nil => cases h
    | cons c text => exact ⟨text, List.suffix_cons c text, (Bool.and_eq_true_iff.1 h).2⟩
  cases token with
  | literal c => exact hone h
  | any => exact hone h
  | within specifiers => exact hone h
  | except specifiers => exact hone h
  | sequence =>
    have hsequence : fitsSequence rest text = true := h
    clear h hone
    induction text with
    | nil => exact ⟨[], List.suffix_refl _, hsequence⟩
    | cons c text ih =>
      rw [fitsSequence, Bool.or_eq_true, Bool.and_eq_true] at hsequence
      rcases hsequence with hhere | ⟨_, hsequence⟩
      · exact ⟨c :: text, List.suffix_refl _, hhere⟩
      · obtain ⟨later, hlater, hrest⟩ := ih hsequence
        exact ⟨later, hlater.trans (List.suffix_cons c text), hrest⟩
  | recursive =>
    have hrecursive : (rest text || fitsLater rest text) = true := h
    clear h hone
    rw [Bool.or_eq_true] at hrecursive
    rcases hrecursive with hhere | hpassed
    · exact ⟨text, List.suffix_refl _, hhere⟩
    · induction text with
      | nil => exact ⟨[], List.suffix_refl _, hpassed⟩
      | cons c text ih =>
        have hcons := List.suffix_cons c text
        rw [fitsLater] at hpassed
        split_ifs at hpassed
        · rw [Bool.or_eq_true] at hpassed
          rcases hpassed with hhere | hpassed
          · exact ⟨text, hcons, hhere⟩
          · obtain ⟨later, hlater, hrest⟩ := ih hpassed
            exact ⟨later, hlater.trans hcons, hrest⟩
        · obtain ⟨later, hlater, hrest⟩ := ih hpassed
          exact ⟨later, hlater.trans hcons, hrest⟩

private theorem exists_suffix_of_fits {front back : List Token} {text : Rest}
    (h : fits (front ++ back) text = true) :
    ∃ later, later <:+ text ∧ fits back later = true := by
  induction front generalizing text with
  | nil => exact ⟨text, List.suffix_refl _, h⟩
  | cons token front ih =>
    obtain ⟨middle, hmiddle, hrest⟩ := exists_suffix_of_token_fits h
    obtain ⟨later, hlater, hback⟩ := ih hrest
    exact ⟨later, hlater.trans hmiddle, hback⟩

private theorem map_snd_marked (atStart : Bool) (t : Text) :
    (marked atStart t).map Prod.snd = t := by
  induction t generalizing atStart with
  | nil => rfl
  | cons c t ih => rw [marked, List.map_cons, ih]

/-- A character that is asked for stands in the text. -/
private theorem exists_suffix_of_literal {c : Char} {front back : List Token} {atStart : Bool}
    {t : Text} (h : fits (front ++ .literal c :: back) (marked atStart t) = true) :
    ∃ later : Rest, c :: later.map Prod.snd <:+ t ∧ fits back later = true := by
  obtain ⟨later, hlater, hback⟩ := exists_suffix_of_fits h
  cases later with
  | nil => cases hback
  | cons d later =>
    have hboth : (c == d.2 && fits back later) = true := hback
    rw [Bool.and_eq_true, beq_iff_eq] at hboth
    refine ⟨later, ?_, hboth.2⟩
    have hsuffix := hlater.map Prod.snd
    rw [map_snd_marked, List.map_cons, ← hboth.1] at hsuffix
    exact hsuffix

/-! ## Names joined by slashes -/

variable {names : List Text} {part : List Token} {parts : List (List Token)}

private theorem mem_joined (hpart : part ∈ parts) {token : Token} (h : token ∈ part) :
    token ∈ joined parts := by
  induction parts with
  | nil => cases hpart
  | cons first parts ih =>
    cases parts with
    | nil =>
      rw [List.mem_singleton.1 hpart] at h
      exact h
    | cons next rest =>
      rw [joined]
      rcases List.mem_cons.1 hpart with rfl | hpart
      · split_ifs with hrecursive
        · rw [hrecursive] at h
          simp [List.mem_singleton.1 h]
        · exact List.mem_append_left _ h
      · have hlater := ih hpart
        split_ifs
        · exact List.mem_cons_of_mem _ hlater
        · exact List.mem_append_right _ (List.mem_cons_of_mem _ hlater)

/-- `**` in front of tokens takes what `**` in front of steps takes, if the tokens and the steps
agree on every path of names. -/
private theorem fits_recursive_eq_coversLater {tokens : List Token} {steps : List Step}
    (hagree : ∀ names : List Text, names ≠ [] → (∀ name ∈ names, Plain name) →
      fits tokens (marked true (Text.joinWith ['/'] names)) = covers steps names)
    (hsteps : covers steps [] = false)
    (htokens : fits tokens [] = true → .sequence ∈ tokens)
    (hne : names ≠ []) (hnames : ∀ name ∈ names, Plain name) :
    fits (.recursive :: tokens) (marked true (Text.joinWith ['/'] names)) =
      coversLater (covers steps) names := by
  have hunfold : ∀ text, fits (.recursive :: tokens) text =
      (fits tokens text || fitsLater (fits tokens) text) := fun _ => rfl
  induction names with
  | nil => exact absurd rfl hne
  | cons name names ih =>
    have hname : Plain name := hnames name List.mem_cons_self
    rw [hunfold, hagree _ (by simp) hnames, coversLater]
    cases names with
    | nil =>
      have hone := hagree [name] (by simp) hnames
      rw [Text.joinWith] at hone ⊢
      rw [hname.fitsLater_eq, coversLater, hsteps]
      cases hnil : fits tokens [] with
      | false => rfl
      | true =>
        rw [← hone, hname.fits_of_fits_nil hnil (htokens hnil)]
        rfl
    | cons next names =>
      have hrest := ih (by simp) fun other hother =>
        hnames other (List.mem_cons_of_mem name hother)
      rw [Text.joinWith_cons_cons, List.append_assoc, List.singleton_append,
        hname.fitsLater_slash, ← hunfold, hrest]

/-- The pieces of a pattern: each is `**`, or tokens of one component. -/
def AreParts (parts : List (List Token)) : Prop :=
  ∀ part ∈ parts, part = [.recursive] ∨ ∀ token ∈ part, token.inComponent = true

/-- A pattern whose last piece is neither `**` nor empty matches the paths of names that its steps
take. -/
theorem fits_joined_eq_covers (hparts : AreParts parts) {last : List Token}
    (hlast : parts.getLast? = some last) (hinside : ∀ token ∈ last, token.inComponent = true)
    (hempty : last ≠ []) (hne : names ≠ []) (hnames : ∀ name ∈ names, Plain name) :
    fits (joined parts) (marked true (Text.joinWith ['/'] names)) =
      covers (parts.map stepOf) names := by
  induction parts generalizing names with
  | nil => cases hlast
  | cons part parts ih =>
    obtain ⟨name, names, rfl⟩ := List.exists_cons_of_ne_nil hne
    have hname : Plain name := hnames name List.mem_cons_self
    cases parts with
    | nil =>
      rw [List.getLast?_singleton, Option.some.injEq] at hlast
      subst hlast
      rw [List.map_singleton, covers_cons (stepOf_ne_recursive hinside), joined, coversOne,
        accepts_stepOf hinside]
      cases names with
      | nil => rw [Text.joinWith, covers, List.isEmpty_nil, Bool.and_true]
      | cons next names =>
        rw [Text.joinWith_cons_cons, List.append_assoc, List.singleton_append,
          fits_slash hinside hname.slash, covers, List.isEmpty_cons, Bool.and_false]
    | cons next parts =>
      rw [List.getLast?_cons_cons] at hlast
      have hmem : last ∈ next :: parts := List.mem_of_getLast? hlast
      have hagree : ∀ names : List Text, names ≠ [] → (∀ name ∈ names, Plain name) →
          fits (joined (next :: parts)) (marked true (Text.joinWith ['/'] names)) =
            covers ((next :: parts).map stepOf) names := by
        intro names hne hnames
        exact ih (fun other hother => hparts other (List.mem_cons_of_mem part hother))
          hlast hne hnames
      have hnone : covers ((next :: parts).map stepOf) [] = false :=
        covers_nil (List.mem_map_of_mem hmem) (stepOf_ne_recursive hinside)
      rcases hparts part List.mem_cons_self with rfl | hpart
      · rw [joined, if_pos rfl, List.map_cons]
        refine fits_recursive_eq_coversLater hagree hnone ?_ hne hnames
        intro hnil
        obtain ⟨token, tokens, rfl⟩ := List.exists_cons_of_ne_nil hempty
        have hjoined : token ∈ joined (next :: parts) := mem_joined hmem List.mem_cons_self
        rcases eq_of_fits_nil hnil hjoined with rfl | rfl
        · exact hjoined
        · exact absurd (hinside .recursive List.mem_cons_self) (by decide)
      · have hwhole : part ≠ [.recursive] := by
          rintro rfl
          exact recursive_notMem hpart List.mem_cons_self
        rw [joined, if_neg hwhole, List.map_cons,
          covers_cons (stepOf_ne_recursive hpart), coversOne, accepts_stepOf hpart]
        cases names with
        | nil =>
          rw [hnone, Bool.and_false, Text.joinWith, ← Bool.not_eq_true]
          intro hfits
          obtain ⟨later, hsuffix, _⟩ := exists_suffix_of_literal hfits
          exact hname.slash (hsuffix.subset List.mem_cons_self)
        | cons other names =>
          rw [Text.joinWith_cons_cons, List.append_assoc, List.singleton_append,
            fits_append_slash hpart _ hname.slash,
            hagree _ (by simp) fun n hn => hnames n (List.mem_cons_of_mem name hn)]

private theorem joined_append_nil (hne : parts ≠ [])
    (hlast : parts.getLast? ≠ some [.recursive]) :
    joined (parts ++ [[]]) = joined parts ++ [.literal '/'] := by
  induction parts with
  | nil => exact absurd rfl hne
  | cons part parts ih =>
    cases parts with
    | nil =>
      have hwhole : part ≠ [.recursive] := by simpa using hlast
      show (if part = [.recursive] then .recursive :: joined [[]]
        else part ++ .literal '/' :: joined [[]]) = part ++ [.literal '/']
      rw [if_neg hwhole, joined]
    | cons next parts =>
      rw [List.getLast?_cons_cons] at hlast
      have hrest := ih (by simp) hlast
      rw [List.cons_append, List.cons_append, joined, ← List.cons_append, hrest, joined]
      split_ifs
      · rfl
      · rw [List.append_assoc]
        rfl

private theorem getLast?_joinWith_ne (hne : names ≠ []) (hnames : ∀ name ∈ names, Plain name) :
    (Text.joinWith ['/'] names).getLast? ≠ some '/' := by
  rcases List.eq_nil_or_concat names with rfl | ⟨front, last, rfl⟩
  · exact absurd rfl hne
  · have hlast : Plain last := hnames last (by simp)
    have hend : last.getLast? ≠ some '/' := fun h => hlast.slash (List.mem_of_getLast? h)
    cases front with
    | nil => exact hend
    | cons name front =>
      rw [List.concat_eq_append, Text.joinWith_append_singleton _ (by simp),
        List.getLast?_append_of_ne_nil _ hlast.nonempty]
      exact hend

/-- A pattern that ends in a slash matches no path of names, unless the slash belongs to `**`. -/
theorem fits_joined_append_nil (hlast : parts.getLast? ≠ some [.recursive]) (hne : names ≠ [])
    (hnames : ∀ name ∈ names, Plain name) :
    fits (joined (parts ++ [[]])) (marked true (Text.joinWith ['/'] names)) = false := by
  rw [← Bool.not_eq_true]
  intro h
  cases parts with
  | nil =>
    obtain ⟨name, names, rfl⟩ := List.exists_cons_of_ne_nil hne
    obtain ⟨c, rest, rfl⟩ := List.exists_cons_of_ne_nil (hnames name List.mem_cons_self).nonempty
    cases names <;> cases h
  | cons part parts =>
    rw [joined_append_nil (by simp) hlast] at h
    obtain ⟨later, hsuffix, hend⟩ := exists_suffix_of_literal h
    rw [List.isEmpty_iff.1 hend] at hsuffix
    obtain ⟨front, hfront⟩ := hsuffix
    apply getLast?_joinWith_ne hne hnames
    rw [← hfront]
    simp

end Glob

end StyleBundle
