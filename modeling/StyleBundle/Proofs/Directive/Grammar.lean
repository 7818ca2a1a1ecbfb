import Mathlib.Data.List.Infix
import StyleBundle.Proofs.Directive

/-!
# The grammar of directives

What a directive looks like, written down without the readers.

* `Directive.Spells` is a directive from its opener to its closing quote.
* `Directive.IsCloser` is the end of a block comment, behind blanks.
* `Directive.Begins` says that a text starts with a directive.
* `Directive.Reads` takes the directives out of a text, each at the first place where one begins.

Every reader is complete and sound for its part of the grammar.  Put together they give
`occurrence?_of_spells` and `exists_spells_of_occurrence?`, and over a whole text
`parse_eq_iff_reads`.
-/

namespace StyleBundle

namespace Directive

/-! ## The grammar -/

/-- The characters of an opener. -/
def Opener.text : Opener → Text
  | .line => ['/', '/']
  | .block => ['/', '*']
  | .hash => ['#']

/-- The word that asks for a kind. -/
def Kind.keyword : Kind → Text
  | .require => "require".toList
  | .requireTree => "require_tree".toList

/-- Spaces and tabs only. -/
def Blanks (t : Text) : Prop :=
  ∀ c ∈ t, c = ' ' ∨ c = '\t'

/-- A target between two equal quotes. -/
structure Quotes (target t : Text) : Prop where
  ne_nil : target ≠ []
  newline : '\n' ∉ target
  eq : ∃ quote, (quote = '\'' ∨ quote = '"') ∧ quote ∉ target ∧ t = quote :: (target ++ [quote])

/-- A directive from its opener to its closing quote. -/
def Spells (o : Opener) (kind : Kind) (target t : Text) : Prop :=
  ∃ before between behind quoted, Blanks before ∧ Blanks between ∧ Blanks behind ∧ behind ≠ [] ∧
    Quotes target quoted ∧ t = o.text ++ before ++ ['='] ++ between ++ kind.keyword ++
      behind ++ quoted

/-- Blanks and the end of a block comment. -/
def IsCloser (t : Text) : Prop :=
  ∃ blanks, Blanks blanks ∧ t = blanks ++ ['*', '/']

/-- What is read between a directive and the rest of the text: a closer if the text goes on with
one, and nothing otherwise. -/
def Closes (closer rest : Text) : Prop :=
  IsCloser closer ∨ closer = [] ∧ ∀ c, IsCloser c → ¬ c <+: rest

/-- A directive begins the text. -/
def Begins (t : Text) : Prop :=
  ∃ o kind target body, Spells o kind target body ∧ body <+: t

/-- The directives of a text whose first byte is at `offset`. -/
inductive Reads : Nat → Text → List Directive → Prop
  /-- No directive begins anywhere. -/
  | done (offset : Nat) (t : Text) (h : ∀ s, s <:+ t → ¬ Begins s) : Reads offset t []
  /-- The first directive stands behind a gap in which none begins. -/
  | found (offset : Nat) (gap body closer rest : Text) (o : Opener) (kind : Kind) (target : Text)
      (ds : List Directive)
      (hgap : ∀ s, s ≠ [] → s <:+ gap → ¬ Begins (s ++ (body ++ closer ++ rest)))
      (hbody : Spells o kind target body) (hcloser : Closes closer rest)
      (hrest : Reads (offset + (gap ++ (body ++ closer)).byteLength) rest ds) :
    Reads offset (gap ++ (body ++ closer ++ rest))
      (⟨kind, target, if o = .block then body ++ closer else body, offset + gap.byteLength⟩ :: ds)

/-! ## The readers -/

variable {t rest target : Text} {o : Opener} {kind : Kind}

theorem opener?_eq_some_iff : opener? t = some (o, rest) ↔ t = o.text ++ rest := by
  constructor
  · intro h
    unfold opener? at h
    split at h
    all_goals cases h
    all_goals rfl
  · rintro rfl
    cases o
    all_goals rfl

theorem isBlank_iff {c : Char} : isBlank c = true ↔ c = ' ' ∨ c = '\t' := by
  simp [isBlank]

theorem skipBlanks_append {blanks : Text} (h : Blanks blanks) (t : Text) :
    skipBlanks (blanks ++ t) = skipBlanks t := by
  induction blanks with
  | nil => rfl
  | cons c blanks ih =>
    have hc : isBlank c = true := isBlank_iff.2 (h c List.mem_cons_self)
    rw [List.cons_append, skipBlanks, List.dropWhile_cons_of_pos hc]
    exact ih fun c' hc' => h c' (List.mem_cons_of_mem c hc')

theorem exists_blanks (t : Text) : ∃ blanks, Blanks blanks ∧ t = blanks ++ skipBlanks t := by
  refine ⟨t.takeWhile isBlank, fun c hc => ?_, ?_⟩
  · exact isBlank_iff.1 (List.all_eq_true.1 List.all_takeWhile c hc)
  · rw [skipBlanks, List.takeWhile_append_dropWhile]

theorem exists_blanks_of_blanks? (h : blanks? t = some rest) :
    ∃ blanks, Blanks blanks ∧ blanks ≠ [] ∧ t = blanks ++ rest := by
  cases t with
  | nil => cases h
  | cons c t =>
    rw [blanks?] at h
    split_ifs at h with hc
    cases h
    obtain ⟨blanks, hblanks, ht⟩ := exists_blanks t
    refine ⟨c :: blanks, ?_, List.cons_ne_nil _ _, ?_⟩
    · intro c' hc'
      rcases List.mem_cons.1 hc' with rfl | hc'
      · exact isBlank_iff.1 hc
      · exact hblanks c' hc'
    · rw [List.cons_append, ← ht]

theorem blanks?_append {blanks : Text} (h : Blanks blanks) (hne : blanks ≠ []) (t : Text) :
    blanks? (blanks ++ t) = some (skipBlanks t) := by
  cases blanks with
  | nil => exact (hne rfl).elim
  | cons c blanks =>
    have hc : isBlank c = true := isBlank_iff.2 (h c List.mem_cons_self)
    have hrest : Blanks blanks := fun c' hc' => h c' (List.mem_cons_of_mem c hc')
    rw [List.cons_append, blanks?, if_pos hc, skipBlanks_append hrest]

theorem eq_of_keyword? (h : keyword? t = some (kind, rest)) : t = kind.keyword ++ rest := by
  unfold keyword? at h
  split at h
  · rename_i hafter
    cases h
    exact Text.after?_eq_some_iff.1 hafter
  · obtain ⟨rest', hafter, hrest⟩ := Option.map_eq_some_iff.1 h
    cases hrest
    exact Text.after?_eq_some_iff.1 hafter

/-- A blank behind a keyword tells the shorter keyword from the longer one. -/
theorem keyword?_append {blanks : Text} (h : Blanks blanks) (hne : blanks ≠ []) (kind : Kind)
    (t : Text) :
    keyword? (kind.keyword ++ (blanks ++ t)) = some (kind, blanks ++ t) := by
  cases kind with
  | requireTree =>
    have hafter : Text.after? "require_tree".toList (Kind.requireTree.keyword ++ (blanks ++ t)) =
        some (blanks ++ t) := Text.after?_eq_some_iff.2 rfl
    rw [keyword?, hafter]
  | require =>
    have hafter : Text.after? "require".toList (Kind.require.keyword ++ (blanks ++ t)) =
        some (blanks ++ t) := Text.after?_eq_some_iff.2 rfl
    have hlong : "require_tree".toList = Kind.require.keyword ++ "_tree".toList := by decide
    have hnone : Text.after? "_tree".toList (blanks ++ t) = none := by
      obtain ⟨c, blanks, rfl⟩ := List.exists_cons_of_ne_nil hne
      have hc : '_' ≠ c := by
        rcases h c List.mem_cons_self with rfl | rfl
        · decide
        · decide
      exact if_neg hc
    rw [keyword?, hlong, Text.after?_append_append, hnone]
    simp only [hafter, Option.map_some]

theorem skipBlanks_keyword (kind : Kind) (t : Text) :
    skipBlanks (kind.keyword ++ t) = kind.keyword ++ t := by
  cases kind
  · rfl
  · rfl

theorem exists_quotes_of_quoted? (h : quoted? t = some (target, rest)) :
    ∃ quoted, Quotes target quoted ∧ t = quoted ++ rest := by
  cases t with
  | nil => cases h
  | cons quote t =>
    rw [quoted?] at h
    split_ifs at h with hquote
    simp only at h
    split at h
    · cases h
    · rename_i c rest' hdrop hempty
      split_ifs at h with hc
      cases h
      have ht := List.takeWhile_append_dropWhile
        (p := fun c : Char => c != quote && c != '\n') (l := t)
      rw [hdrop, hc] at ht
      have hinside : ∀ c ∈ t.takeWhile (fun c : Char => c != quote && c != '\n'),
          c ≠ quote ∧ c ≠ '\n' := by
        intro c hc
        simpa using List.all_eq_true.1 List.all_takeWhile c hc
      refine ⟨quote :: (_ ++ [quote]), ⟨hempty, ?_, quote, hquote, ?_, rfl⟩, ?_⟩
      · exact fun hmem => (hinside _ hmem).2 rfl
      · exact fun hmem => (hinside _ hmem).1 rfl
      · simp [ht]
    · cases h

theorem quoted?_append {quoted : Text} (h : Quotes target quoted) (t : Text) :
    quoted? (quoted ++ t) = some (target, t) := by
  obtain ⟨hne, hnewline, quote, hquote, hnotMem, rfl⟩ := h
  have hinside : ∀ c ∈ target, (c != quote && c != '\n') = true := by
    intro c hc
    have hcquote : c ≠ quote := fun heq => hnotMem (heq ▸ hc)
    have hcnewline : c ≠ '\n' := fun heq => hnewline (heq ▸ hc)
    simp [hcquote, hcnewline]
  obtain ⟨first, target, rfl⟩ := List.exists_cons_of_ne_nil hne
  have htake : (first :: target ++ [quote] ++ t).takeWhile
      (fun c : Char => c != quote && c != '\n') =
      first :: target := by
    rw [List.append_assoc, List.takeWhile_append_of_pos hinside]
    simp
  have hdrop : (first :: target ++ [quote] ++ t).dropWhile
      (fun c : Char => c != quote && c != '\n') = quote :: t := by
    rw [List.append_assoc, List.dropWhile_append_of_pos hinside]
    simp
  rw [List.cons_append, quoted?, if_pos hquote]
  simp only [htake, hdrop, if_true]

theorem Quotes.skipBlanks_append {quoted : Text} (h : Quotes target quoted) (t : Text) :
    skipBlanks (quoted ++ t) = quoted ++ t := by
  obtain ⟨quote, rfl | rfl, _, rfl⟩ := h.eq
  · rfl
  · rfl

theorem closer?_eq_some_iff :
    closer? t = some rest ↔ ∃ closer, IsCloser closer ∧ t = closer ++ rest := by
  rw [closer?, Text.after?_eq_some_iff]
  constructor
  · intro h
    obtain ⟨blanks, hblanks, ht⟩ := exists_blanks t
    refine ⟨blanks ++ ['*', '/'], ⟨blanks, hblanks, rfl⟩, ?_⟩
    rw [List.append_assoc, ← h, ← ht]
  · rintro ⟨_, ⟨blanks, hblanks, rfl⟩, rfl⟩
    rw [List.append_assoc, skipBlanks_append hblanks]
    rfl

theorem closer?_eq_none_iff : closer? t = none ↔ ∀ c, IsCloser c → ¬ c <+: t := by
  rw [Option.eq_none_iff_forall_ne_some]
  constructor
  · rintro h c hc ⟨rest, rfl⟩
    exact h rest (closer?_eq_some_iff.2 ⟨c, hc, rfl⟩)
  · intro h rest hrest
    obtain ⟨c, hc, rfl⟩ := closer?_eq_some_iff.1 hrest
    exact h c hc ⟨rest, rfl⟩

/-- What is left behind a closer, if there is one. -/
theorem closer?_getD_append {closer : Text} (h : Closes closer rest) :
    (closer? (closer ++ rest)).getD (closer ++ rest) = rest := by
  rcases h with hcloser | ⟨rfl, hnone⟩
  · rw [closer?_eq_some_iff.2 ⟨closer, hcloser, rfl⟩, Option.getD_some]
  · rw [List.nil_append, closer?_eq_none_iff.2 hnone, Option.getD_none]

theorem exists_closes (t : Text) : ∃ closer, Closes closer ((closer? t).getD t) ∧
    t = closer ++ (closer? t).getD t := by
  cases hcloser : closer? t with
  | none => exact ⟨[], .inr ⟨rfl, closer?_eq_none_iff.1 hcloser⟩, rfl⟩
  | some rest =>
    obtain ⟨closer, hc, ht⟩ := closer?_eq_some_iff.1 hcloser
    exact ⟨closer, .inl hc, ht⟩

/-! ## One directive -/

/-- The directive with the given body and closer. -/
def Occurrence.ofParts (o : Opener) (kind : Kind) (target body closer : Text) : Occurrence where
  kind := kind
  target := target
  raw := if o = .block then body ++ closer else body
  consumed := (body ++ closer).length

private theorem take_sub_length (front rest : Text) :
    (front ++ rest).take ((front ++ rest).length - rest.length) = front := by
  rw [List.length_append, Nat.add_sub_cancel, List.take_left]

/-- What the readers of a directive leave is cut off the end of the text. -/
theorem occurrence_eq_ofParts (o : Opener) (kind : Kind) (target body closer rest : Text) :
    (⟨kind, target, (body ++ closer ++ rest).take ((body ++ closer ++ rest).length -
        (if o = .block then rest else closer ++ rest).length),
      (body ++ closer ++ rest).length - rest.length⟩ : Occurrence) =
      .ofParts o kind target body closer := by
  rw [Occurrence.ofParts, Occurrence.mk.injEq]
  refine ⟨rfl, rfl, ?_, ?_⟩
  · split_ifs
    · rw [take_sub_length]
    · rw [List.append_assoc, take_sub_length]
  · rw [List.length_append, Nat.add_sub_cancel]

theorem occurrence?_of_spells {body closer : Text} (hbody : Spells o kind target body)
    (hcloser : Closes closer rest) :
    occurrence? (body ++ closer ++ rest) = some (.ofParts o kind target body closer) := by
  obtain ⟨before, between, behind, quoted, hbefore, hbetween, hbehind, hne, hquotes, hparts⟩ :=
    hbody
  have hopener : opener? (body ++ closer ++ rest) = some (o, before ++ ('=' :: (between ++
      (kind.keyword ++ (behind ++ (quoted ++ (closer ++ rest))))))) := by
    rw [opener?_eq_some_iff, hparts]
    simp
  have hequals : Text.after? ['='] (skipBlanks (before ++ ('=' :: (between ++
      (kind.keyword ++ (behind ++ (quoted ++ (closer ++ rest)))))))) =
        some (between ++ (kind.keyword ++ (behind ++ (quoted ++ (closer ++ rest))))) := by
    rw [skipBlanks_append hbefore]
    rfl
  have hkeyword : keyword? (skipBlanks (between ++ (kind.keyword ++ (behind ++
      (quoted ++ (closer ++ rest)))))) = some (kind, behind ++ (quoted ++ (closer ++ rest))) := by
    rw [skipBlanks_append hbetween, skipBlanks_keyword, keyword?_append hbehind hne]
  have hblanks : blanks? (behind ++ (quoted ++ (closer ++ rest))) =
      some (quoted ++ (closer ++ rest)) := by
    rw [blanks?_append hbehind hne, hquotes.skipBlanks_append]
  rw [← occurrence_eq_ofParts o kind target body closer rest]
  refine Option.bind_eq_some_iff.2 ⟨_, hopener, Option.bind_eq_some_iff.2 ⟨_, hequals,
    Option.bind_eq_some_iff.2 ⟨_, hkeyword, Option.bind_eq_some_iff.2 ⟨_, hblanks,
    Option.bind_eq_some_iff.2 ⟨_, quoted?_append hquotes _, ?_⟩⟩⟩⟩⟩
  simp only [closer?_getD_append hcloser]
  rfl

theorem exists_spells_of_occurrence? {found : Occurrence} (h : occurrence? t = some found) :
    ∃ o kind target body closer rest, Spells o kind target body ∧ Closes closer rest ∧
      t = body ++ closer ++ rest ∧ found = .ofParts o kind target body closer := by
  obtain ⟨⟨o, rest₁⟩, hopener, h⟩ := Option.bind_eq_some_iff.1 h
  obtain ⟨rest₂, hequals, h⟩ := Option.bind_eq_some_iff.1 h
  obtain ⟨⟨kind, rest₃⟩, hkeyword, h⟩ := Option.bind_eq_some_iff.1 h
  obtain ⟨rest₄, hblanks, h⟩ := Option.bind_eq_some_iff.1 h
  obtain ⟨⟨target, rest₅⟩, hquoted, h⟩ := Option.bind_eq_some_iff.1 h
  cases h
  obtain ⟨before, hbefore, h₁⟩ := exists_blanks rest₁
  obtain ⟨between, hbetween, h₂⟩ := exists_blanks rest₂
  obtain ⟨behind, hbehind, hne, h₃⟩ := exists_blanks_of_blanks? hblanks
  obtain ⟨quoted, hquotes, h₄⟩ := exists_quotes_of_quoted? hquoted
  obtain ⟨closer, hcloser, h₅⟩ := exists_closes rest₅
  obtain ⟨rest, hrest⟩ : ∃ rest, (closer? rest₅).getD rest₅ = rest := ⟨_, rfl⟩
  rw [hrest] at hcloser h₅
  rw [Text.after?_eq_some_iff.1 hequals] at h₁
  rw [eq_of_keyword? hkeyword] at h₂
  have ht : t = o.text ++ before ++ ['='] ++ between ++ kind.keyword ++ behind ++ quoted ++
      closer ++ rest := by
    rw [opener?_eq_some_iff.1 hopener, h₁, h₂, h₃, h₄, h₅]
    simp
  refine ⟨o, kind, target, _, closer, rest,
    ⟨before, between, behind, quoted, hbefore, hbetween, hbehind, hne, hquotes, rfl⟩,
    hcloser, ht, ?_⟩
  rw [← occurrence_eq_ofParts o kind target _ closer rest, ← ht, ← h₅]
  simp only [hrest]

theorem occurrence?_eq_none_iff : occurrence? t = none ↔ ¬ Begins t := by
  constructor
  · rintro hnone ⟨o, kind, target, body, hbody, rest, rfl⟩
    obtain ⟨closer, hcloser, hrest⟩ := exists_closes rest
    have hfound := occurrence?_of_spells hbody hcloser
    rw [List.append_assoc, ← hrest, hnone] at hfound
    cases hfound
  · intro hfree
    rw [Option.eq_none_iff_forall_ne_some]
    intro found hfound
    obtain ⟨o, kind, target, body, closer, rest, hbody, _, rfl, _⟩ :=
      exists_spells_of_occurrence? hfound
    exact hfree ⟨o, kind, target, body, hbody, closer ++ rest, (List.append_assoc _ _ _).symm⟩

theorem Spells.ne_nil {body : Text} (h : Spells o kind target body) : body ≠ [] := by
  obtain ⟨_, _, _, _, _, _, _, _, _, rfl⟩ := h
  cases o
  · exact List.cons_ne_nil _ _
  · exact List.cons_ne_nil _ _
  · exact List.cons_ne_nil _ _

/-! ## All directives of a text -/

theorem scan_skip (front rest : Text) (offset : Nat) :
    scan front.length offset (front ++ rest) = scan 0 (offset + front.byteLength) rest := by
  induction front generalizing offset with
  | nil => rfl
  | cons c front ih =>
    rw [List.cons_append, List.length_cons, scan, ih, Text.byteLength_cons, Nat.add_assoc]

/-- Nothing is found where no directive begins. -/
theorem scan_gap {gap rest : Text} (h : ∀ s, s ≠ [] → s <:+ gap → ¬ Begins (s ++ rest))
    (offset : Nat) :
    scan 0 offset (gap ++ rest) = scan 0 (offset + gap.byteLength) rest := by
  induction gap generalizing offset with
  | nil => rfl
  | cons c gap ih =>
    have hnone : occurrence? (c :: (gap ++ rest)) = none :=
      occurrence?_eq_none_iff.2 (h (c :: gap) (List.cons_ne_nil c gap) List.suffix_rfl)
    have hrest := ih (fun s hne hs => h s hne (hs.trans (List.suffix_cons c gap)))
      (offset + c.utf8Size)
    rw [List.cons_append, scan, hnone]
    simp only [hrest, Text.byteLength_cons, Nat.add_assoc]

theorem scan_occurrence {body closer : Text} (hbody : Spells o kind target body)
    (hcloser : Closes closer rest) (offset : Nat) :
    scan 0 offset (body ++ closer ++ rest) =
      ⟨kind, target, if o = .block then body ++ closer else body, offset⟩ ::
        scan 0 (offset + (body ++ closer).byteLength) rest := by
  have hfound := occurrence?_of_spells hbody hcloser
  obtain ⟨c, front, hfront⟩ : ∃ c front, body ++ closer = c :: front :=
    List.exists_cons_of_ne_nil (List.append_ne_nil_of_left_ne_nil hbody.ne_nil closer)
  have hconsumed : (Occurrence.ofParts o kind target body closer).consumed - 1 =
      front.length := by
    rw [Occurrence.ofParts, hfront, List.length_cons, Nat.add_sub_cancel]
  rw [hfront, List.cons_append] at hfound ⊢
  rw [scan, hfound]
  simp only [hconsumed, scan_skip, Text.byteLength_cons, Nat.add_assoc]
  rw [Occurrence.at, Occurrence.ofParts, hfront]

theorem Reads.scan_eq {offset : Nat} {ds : List Directive} (h : Reads offset t ds) :
    scan 0 offset t = ds := by
  induction h with
  | done offset t hfree =>
    have hgap : ∀ s, s ≠ [] → s <:+ t → ¬ Begins (s ++ []) := by
      intro s _ hs
      rw [List.append_nil]
      exact hfree s hs
    have hscan := scan_gap hgap offset
    rwa [List.append_nil] at hscan
  | found offset gap body closer rest o kind target ds hgap hbody hcloser _ ih =>
    rw [scan_gap hgap, scan_occurrence hbody hcloser, Nat.add_assoc, ← Text.byteLength_append, ih]

/-- The first place where a directive begins. -/
theorem exists_first (t : Text) : (∀ s, s <:+ t → ¬ Begins s) ∨
    ∃ gap rest, t = gap ++ rest ∧ Begins rest ∧ ∀ s, s ≠ [] → s <:+ gap →
    ¬ Begins (s ++ rest) := by
  by_cases hbegins : Begins t
  · refine .inr ⟨[], t, rfl, hbegins, fun s hne hs => ?_⟩
    exact (hne (List.suffix_nil.1 hs)).elim
  · cases t with
    | nil =>
      left
      intro s hs
      rwa [List.suffix_nil.1 hs]
    | cons c t =>
      rcases exists_first t with hfree | ⟨gap, rest, rfl, hrest, hgap⟩
      · left
        intro s hs
        rcases List.suffix_cons_iff.1 hs with rfl | hs
        · exact hbegins
        · exact hfree s hs
      · refine .inr ⟨c :: gap, rest, rfl, hrest, fun s hne hs => ?_⟩
        rcases List.suffix_cons_iff.1 hs with rfl | hs
        · exact hbegins
        · exact hgap s hne hs

-- The rest behind a directive is shorter than the text.
theorem exists_reads (offset : Nat) (t : Text) : ∃ ds, Reads offset t ds := by
  induction hlength : t.length using Nat.strong_induction_on generalizing offset t with
  | h n ih =>
    rcases exists_first t with
      hfree | ⟨gap, text, rfl, ⟨o, kind, target, body, hbody, behind, rfl⟩, hgap⟩
    · exact ⟨[], .done offset t hfree⟩
    · obtain ⟨closer, hcloser, hbehind⟩ := exists_closes behind
      obtain ⟨rest, hrest⟩ : ∃ rest, (closer? behind).getD behind = rest := ⟨_, rfl⟩
      rw [hrest] at hcloser hbehind
      rw [hbehind, ← List.append_assoc body] at hgap hlength ⊢
      have hbodyLength := List.length_pos_iff.2 hbody.ne_nil
      have hshort : rest.length < n := by
        simp only [List.length_append] at hlength
        omega
      obtain ⟨ds, hds⟩ := ih _ hshort (offset + (gap ++ (body ++ closer)).byteLength) rest rfl
      exact ⟨_, .found offset gap body closer rest o kind target ds hgap hbody hcloser hds⟩

/-- The directives of a text are those that the grammar reads. -/
theorem parse_eq_iff_reads (t : Text) (ds : List Directive) : parse t = ds ↔ Reads 0 t ds := by
  constructor
  · rintro rfl
    obtain ⟨ds, hreads⟩ := exists_reads 0 t
    rwa [parse, hreads.scan_eq]
  · exact Reads.scan_eq

end Directive

end StyleBundle
