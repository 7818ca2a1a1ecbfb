import StyleBundle.Proofs.Directive.Grammar

/-!
# Directives that are passed over

A directive that is no block comment does not cover a `*/` behind it, but that `*/` is read with
it.  So the slash cannot start the next directive, although it lies outside of all that is
covered.

A directive that begins outside of what is covered is found unless its slash ends such a closer
(`found_iff_not_swallowed`).
-/

namespace StyleBundle

namespace Directive

variable {t front rest before behind body closer target : Text} {o : Opener} {kind : Kind}
  {offset : Nat} {d : Directive} {ds : List Directive}

/-! ## One directive -/

/-- The slash that `rest` starts with was read with `d`.  Blanks and a star stand between the two,
and `d` is no block comment. -/
def Swallows (offset : Nat) (d : Directive) (front rest : Text) : Prop :=
  ¬ Opener.block.text <+: d.raw ∧ rest.head? = some '/' ∧
    ∃ before blanks, Blanks blanks ∧ front = before ++ (d.raw ++ (blanks ++ ['*'])) ∧
      d.start = offset + before.byteLength

theorem Swallows.append (h : Swallows (offset + before.byteLength) d front rest) :
    Swallows offset d (before ++ front) rest := by
  obtain ⟨hopener, hslash, between, blanks, hblanks, rfl, hstart⟩ := h
  refine ⟨hopener, hslash, before ++ between, blanks, hblanks, (List.append_assoc _ _ _).symm, ?_⟩
  rw [hstart, Text.byteLength_append, Nat.add_assoc]

theorem Begins.head?_eq (h : Begins t) : t.head? = some '/' ∨ t.head? = some '#' := by
  obtain ⟨o, kind, target, body, ⟨_, _, _, _, _, _, _, _, _, rfl⟩, rest, rfl⟩ := h
  cases o
  · exact .inl rfl
  · exact .inl rfl
  · exact .inr rfl

theorem Spells.opener_isPrefix (h : Spells o kind target body) : o.text <+: body := by
  obtain ⟨_, _, _, _, _, _, _, _, _, rfl⟩ := h
  simp only [List.append_assoc, List.prefix_append]

theorem Opener.eq_of_isPrefix {o' : Opener} (h : o.text <+: t) (h' : o'.text <+: t) : o = o' := by
  obtain ⟨rest, rfl⟩ := h
  cases o <;> cases o' <;> simp_all [Opener.text]

/-- A directive that begins inside of a closer begins at its slash. -/
theorem eq_slash_of_begins {inside : Text} (hcloser : IsCloser (inside ++ rest)) (hne : rest ≠ [])
    (hbegins : Begins (rest ++ behind)) :
    ∃ blanks, Blanks blanks ∧ inside = blanks ++ ['*'] ∧ rest = ['/'] := by
  obtain ⟨blanks, hblanks, hparts⟩ := hcloser
  obtain ⟨c, rest, rfl⟩ := List.exists_cons_of_ne_nil hne
  have hc : c = '/' ∨ c = '#' := by simpa using hbegins.head?_eq
  refine ⟨blanks, hblanks, ?_⟩
  rcases List.append_eq_append_iff.1 hparts with ⟨more, rfl, hmore⟩ | ⟨more, rfl, hmore⟩
  · -- Neither a blank nor the star begins a directive.
    cases more with
    | nil =>
      cases hmore
      simp at hc
    | cons b more =>
      cases hmore
      rcases hblanks c (by simp) with rfl | rfl
      · simp at hc
      · simp at hc
  · cases more with
    | nil =>
      cases hmore
      simp at hc
    | cons b more =>
      obtain ⟨rfl, hslash⟩ := List.cons.inj hmore
      cases more with
      | nil => exact ⟨rfl, hslash.symm⟩
      | cons b' more => simp at hslash

/-- A directive that begins behind the start of another one and before all of that is read begins
in what the other one covers, or at a slash that was read with it. -/
theorem cases_of_begins_inside {inside : Text} (hcloser : Closes closer behind)
    (hparts : body ++ closer = inside ++ rest) (hne : rest ≠ [])
    (hbegins : Begins (rest ++ behind)) :
    inside.byteLength < (if o = .block then body ++ closer else body).byteLength ∨
      o ≠ .block ∧ ∃ blanks, Blanks blanks ∧ inside = body ++ (blanks ++ ['*']) ∧
      rest = ['/'] := by
  have hpos := Text.byteLength_pos hne
  split_ifs with ho
  · left
    rw [hparts, Text.byteLength_append]
    omega
  by_cases hbody : inside.byteLength < body.byteLength
  · exact .inl hbody
  right
  obtain ⟨more, rfl⟩ : ∃ more, inside = body ++ more := by
    rcases List.append_eq_append_iff.1 hparts with ⟨more, hmore, _⟩ | ⟨more, rfl, _⟩
    · exact ⟨more, hmore⟩
    · refine ⟨[], ?_⟩
      rw [Text.byteLength_append] at hbody
      have hmore : more = [] := Text.byteLength_eq_zero.1 (by omega)
      rw [hmore, List.append_nil, List.append_nil]
  rw [List.append_assoc, List.append_cancel_left_eq] at hparts
  rcases hcloser with hcloser | ⟨rfl, _⟩
  · rw [hparts] at hcloser
    obtain ⟨blanks, hblanks, rfl, rfl⟩ := eq_slash_of_begins hcloser hne hbegins
    exact ⟨ho, blanks, hblanks, rfl, rfl⟩
  · exact absurd (List.append_eq_nil_iff.1 hparts.symm).2 hne

/-! ## All directives of a text -/

theorem Reads.le_start (h : Reads offset t ds) (hd : d ∈ ds) : offset ≤ d.start := by
  rw [← h.scan_eq] at hd
  exact le_start_of_mem_scan hd

/-- Where a directive that begins behind `front` may be: it is found, or it begins inside of one
that is found, or its slash was read with one. -/
def Placed (offset : Nat) (ds : List Directive) (front rest : Text) : Prop :=
  (∃ d ∈ ds, d.start = offset + front.byteLength) ∨
    (∃ d ∈ ds, d.start < offset + front.byteLength ∧ offset + front.byteLength < d.stop) ∨
      ∃ d ∈ ds, Swallows offset d front rest

theorem Placed.append (h : Placed (offset + before.byteLength) ds front rest) (d : Directive) :
    Placed offset (d :: ds) (before ++ front) rest := by
  rw [Placed, Text.byteLength_append, ← Nat.add_assoc]
  rcases h with ⟨d', hd', hfound⟩ | ⟨d', hd', hinside⟩ | ⟨d', hd', hswallows⟩
  · exact .inl ⟨d', List.mem_cons_of_mem d hd', hfound⟩
  · exact .inr (.inl ⟨d', List.mem_cons_of_mem d hd', hinside⟩)
  · exact .inr (.inr ⟨d', List.mem_cons_of_mem d hd', hswallows.append⟩)

theorem placed_start (d : Directive) (ds : List Directive)
    (h : d.start = offset + front.byteLength) :
    Placed offset (d :: ds) front rest :=
  .inl ⟨d, List.mem_cons_self, h⟩

/-- Every directive that begins in the text has its place. -/
theorem Reads.placed (h : Reads offset t ds) (ht : t = front ++ rest) (hbegins : Begins rest) :
    Placed offset ds front rest := by
  induction h generalizing front with
  | done offset t hfree => exact absurd hbegins (hfree rest ⟨front, ht.symm⟩)
  | found offset gap body closer behind o kind target ds hgap hbody hcloser _ ih =>
    rcases List.append_eq_append_iff.1 ht with ⟨inside, rfl, hrest⟩ | ⟨gap', rfl, rfl⟩
    · -- The directive begins at the first one that is found, or behind its start.
      by_cases hnil : inside = []
      · exact placed_start _ ds (by rw [hnil, List.append_nil])
      have hlater : ∀ d more, inside = body ++ closer ++ more → behind = more ++ rest →
          Placed offset (d :: ds) (gap ++ inside) rest := by
        rintro d more rfl hmore
        rw [← List.append_assoc gap]
        exact (ih hmore).append d
      rcases List.append_eq_append_iff.1 hrest with ⟨more, hinside, hmore⟩ | ⟨more, hparts, rfl⟩
      · exact hlater _ more hinside hmore
      by_cases hmore : more = []
      · rw [hmore, List.append_nil] at hparts
        exact hlater _ [] (by rw [hparts, List.append_nil]) (by rw [hmore]; rfl)
      right
      rcases cases_of_begins_inside (o := o) hcloser hparts hmore hbegins with
        hcovered | ⟨ho, blanks, hblanks, rfl, rfl⟩
      · have hpos := Text.byteLength_pos hnil
        refine .inl ⟨_, List.mem_cons_self, ?_, ?_⟩
        · simp only [Text.byteLength_append]
          omega
        · simp only [stop, Text.byteLength_append] at hcovered ⊢
          omega
      · have hraw : ¬ Opener.block.text <+: body := fun hblock =>
          ho (Opener.eq_of_isPrefix hbody.opener_isPrefix hblock)
        refine .inr ⟨_, List.mem_cons_self, ?_, rfl, gap, blanks, hblanks, ?_, rfl⟩
        · rwa [if_neg ho]
        · rw [if_neg ho]
    · -- None begins in the gap in front of it.
      by_cases hnil : gap' = []
      · exact placed_start _ ds (by rw [hnil, List.append_nil])
      · exact absurd hbegins (hgap gap' hnil (List.suffix_append front gap'))

/-- A directive that is found stands in the text with its closer, and the next one begins behind
that. -/
theorem Reads.exists_of_mem (h : Reads offset t ds) (hd : d ∈ ds) :
    ∃ before body closer behind o, t = before ++ (body ++ closer ++ behind) ∧
    Closes closer behind ∧
      d.raw = (if o = Opener.block then body ++ closer else body) ∧ o.text <+: body ∧
      d.start = offset + before.byteLength ∧ ∀ d' ∈ ds, d'.start ≤ d.start ∨
        offset + (before ++ (body ++ closer)).byteLength ≤ d'.start := by
  induction h with
  | done => cases hd
  | found offset gap body closer behind o kind target ds hgap hbody hcloser hrest ih =>
    rcases List.mem_cons.1 hd with rfl | hd
    · refine ⟨gap, body, closer, behind, o, rfl, hcloser, rfl, hbody.opener_isPrefix, rfl, ?_⟩
      intro d' hd'
      rcases List.mem_cons.1 hd' with rfl | hd'
      · exact .inl (Nat.le_refl _)
      · exact .inr (hrest.le_start hd')
    · obtain ⟨before, body', closer', behind', o', rfl, hcloser', hraw, hopener, hstart, hnext⟩ :=
        ih hd
      refine ⟨gap ++ (body ++ closer) ++ before, body', closer', behind', o', by simp,
        hcloser', hraw, hopener, by simp [hstart, Nat.add_assoc], ?_⟩
      intro d' hd'
      rcases List.mem_cons.1 hd' with rfl | hd'
      · left
        simp only [hstart, Text.byteLength_append]
        omega
      · simpa [Nat.add_assoc] using hnext d' hd'

/-- No directive is found at a slash that was read with another one. -/
theorem Reads.start_ne_of_swallows (h : Reads offset (front ++ rest) ds) (hd : d ∈ ds)
    (hswallows : Swallows offset d front rest) :
    ∀ d' ∈ ds, d'.start ≠ offset + front.byteLength := by
  obtain ⟨before, body, closer, behind, o, ht, hcloser, hraw, hopener, hstart, hnext⟩ :=
    h.exists_of_mem hd
  obtain ⟨hblock, hslash, before', blanks, hblanks, rfl, hstart'⟩ := hswallows
  have ho : o ≠ .block := by
    rintro rfl
    rw [if_pos rfl] at hraw
    exact hblock (hraw ▸ hopener.trans (List.prefix_append body closer))
  rw [if_neg ho] at hraw
  obtain ⟨rest, rfl⟩ := List.head?_eq_some_iff.1 hslash
  -- Both name the place where `d` starts, and what is read behind it ends with the slash.
  have hsplit : before' ++ (body ++ (blanks ++ ['*', '/'] ++ rest)) =
      before ++ (body ++ (closer ++ behind)) := by
    simpa [hraw] using ht
  obtain ⟨rfl, hbehind⟩ := Text.append_inj_of_byteLength hsplit (by omega)
  rw [List.append_cancel_left_eq] at hbehind
  have hread := closer?_getD_append hcloser
  rw [← hbehind, closer?_eq_some_iff.2 ⟨_, ⟨blanks, hblanks, rfl⟩, rfl⟩,
    Option.getD_some] at hread
  rw [← hread, List.append_cancel_right_eq] at hbehind
  intro d' hd' heq
  have hstar : ('*' : Char).utf8Size = 1 := by decide
  have hslash : ('/' : Char).utf8Size = 1 := by decide
  have hafter := hnext d' hd'
  rw [← hbehind, heq, hstart, hraw] at hafter
  simp only [Text.byteLength_append, Text.byteLength_cons, Text.byteLength_nil, hstar,
    hslash] at hafter
  omega

/-- A directive that begins where nothing is covered is found, unless its slash was read with the
directive before it. -/
theorem found_iff_not_swallowed (front rest : Text) (hbegins : Begins rest)
    (houtside : ∀ d ∈ parse (front ++ rest),
      ¬ (d.start < front.byteLength ∧ front.byteLength < d.stop)) :
    (∃ d ∈ parse (front ++ rest), d.start = front.byteLength) ↔
      ∀ d ∈ parse (front ++ rest), ¬ Swallows 0 d front rest := by
  obtain ⟨ds, hreads⟩ := exists_reads 0 (front ++ rest)
  rw [parse, hreads.scan_eq] at *
  constructor
  · rintro ⟨d, hd, hstart⟩ d' hd' hswallows
    exact hreads.start_ne_of_swallows hd' hswallows d hd (by rw [hstart, Nat.zero_add])
  · intro hfree
    rcases hreads.placed rfl hbegins with ⟨d, hd, hfound⟩ | ⟨d, hd, hinside⟩ | ⟨d, hd, hswallows⟩
    · exact ⟨d, hd, by rw [hfound, Nat.zero_add]⟩
    · rw [Nat.zero_add] at hinside
      exact absurd hinside (houtside d hd)
    · exact absurd hswallows (hfree d hd)

instance : DecidablePred Begins := fun t =>
  decidable_of_iff (occurrence? t ≠ none) (by rw [ne_eq, occurrence?_eq_none_iff, not_not])

/-! ### Two directives in one line -/

/-- A directive that the one before it may swallow. -/
def second : Text := "//= require 'b'".toList

/-- The second directive stands behind the `*/` and a blank. -/
def spaced : Text := "#= require 'a' */ ".toList

/-- The slash of the `*/` is the first one of the second directive. -/
def touching : Text := "//= require 'a' *".toList

theorem spaced_found :
    Begins second ∧
      (∀ d ∈ parse (spaced ++ second), ¬ (d.start < spaced.byteLength ∧
        spaced.byteLength < d.stop)) ∧
      (∃ d ∈ parse (spaced ++ second), d.start = spaced.byteLength) ∧
      ∀ d ∈ parse (spaced ++ second), ¬ Swallows 0 d spaced second := by
  have hbegins : Begins second := by decide
  have houtside : ∀ d ∈ parse (spaced ++ second),
      ¬ (d.start < spaced.byteLength ∧ spaced.byteLength < d.stop) := by decide
  have hfound : ∃ d ∈ parse (spaced ++ second), d.start = spaced.byteLength := by decide
  exact ⟨hbegins, houtside, hfound, (found_iff_not_swallowed _ _ hbegins houtside).1 hfound⟩

theorem touching_lost :
    Begins second ∧
      (∀ d ∈ parse (touching ++ second),
        ¬ (d.start < touching.byteLength ∧ touching.byteLength < d.stop)) ∧
      ¬ ∃ d ∈ parse (touching ++ second), d.start = touching.byteLength := by
  decide

end Directive

end StyleBundle
