import Mathlib.Data.List.Infix
import Mathlib.Logic.IsEmpty.Basic
import StyleBundle.Proofs.Compile.PackageImport

/-!
# What replacing leaves

A spaced site is passed over only if its keyword stands between the tilde of another site and the
next quote.  A text in which no keyword stands between a tilde and the next quote is
`PackageImport.Unhidden`.  Replacing the package imports of such a text leaves the sites without
white space and no other ones (`PackageImport.nonempty_site_replace_iff`), as long as the
directory is absolute and has no quote.

The directory is set apart by slashes, and no site has a slash (`PackageImport.Site.cut_slash`).
So a site of the replaced text lies in text that was copied.
-/

namespace StyleBundle

namespace PackageImport

variable {t u v w front directory : Text}

/-! ## Hidden keywords -/

/-- No keyword stands between a tilde and the next quote. -/
def Unhidden (t : Text) : Prop :=
  ∀ u ∈ t.tails, u.head? = some '~' → u.any isQuote = true →
    ∀ keyword ∈ keywords, ¬ keyword <:+: u.takeWhile fun c => !isQuote c

instance (t : Text) : Decidable (Unhidden t) :=
  inferInstanceAs (Decidable (∀ u ∈ t.tails, u.head? = some '~' → u.any isQuote = true →
    ∀ keyword ∈ keywords, ¬ keyword <:+: u.takeWhile fun c => !isQuote c))

theorem Unhidden.of_suffix (h : Unhidden t) (hv : v <:+ t) : Unhidden v := by
  intro u hu
  apply h u
  rw [List.mem_tails] at hu ⊢
  exact hu.trans hv

theorem Unhidden.not_within {path rest keyword : Text} {quote : Char}
    (h : Unhidden ('~' :: (path ++ quote :: rest))) (hpath : ∀ c ∈ path, isQuote c = false)
    (hquote : isQuote quote = true) (hkeyword : keyword ∈ keywords) : ¬ keyword <:+: path := by
  intro hwithin
  have hplain : ∀ c ∈ '~' :: path, (!isQuote c) = true :=
    List.forall_mem_cons.2 ⟨rfl, fun c hc => by simp [hpath c hc]⟩
  have htake : ('~' :: (path ++ quote :: rest)).takeWhile (fun c => !isQuote c) = '~' :: path :=
    takeWhile_append_cons hplain (by simp [hquote])
  refine h ('~' :: (path ++ quote :: rest)) ((List.mem_tails _ _).2 (List.suffix_refl _)) rfl
    (by simp [hquote]) keyword hkeyword ?_
  rw [htake]
  exact hwithin.trans (List.suffix_cons '~' path).isInfix

/-! ## Texts without a site -/

theorem Site.quote_mem (s : Site t) : s.quote ∈ t := by
  obtain ⟨before, keyword, space, quote, first, behind, _, _, _, _, _, rfl⟩ := s
  simp

theorem isEmpty_site_of_plain (h : ∀ c ∈ t, isQuote c = false) : IsEmpty (Site t) := by
  refine ⟨fun s => ?_⟩
  have hquote := s.isQuote_quote
  rw [h s.quote s.quote_mem] at hquote
  cases hquote

/-- There is more text behind the first quote of a site. -/
theorem isEmpty_site_of_quote_last {quote : Char} (h : ∀ c ∈ u, isQuote c = false)
    (hquote : isQuote quote = true) : IsEmpty (Site (u ++ [quote])) := by
  refine ⟨fun s => ?_⟩
  have hstart := (List.getElem?_eq_some_iff.1 s.getElem?_start).1
  rw [List.length_append, List.length_singleton] at hstart
  have hbehind := (s.eq_of_start_le h hquote (by omega)).2
  cases hbehind

theorem Site.isEmpty_site_head (s : Site t) : IsEmpty (Site s.head) := by
  rw [head, ← List.append_assoc]
  exact isEmpty_site_of_quote_last s.isQuote_of_mem_opening s.isQuote_quote

/-! ## The core of a site -/

/-- The characters of a site up to the one behind the tilde. -/
def Site.core (s : Site t) : Text :=
  s.head ++ ['~', s.first]

theorem Site.text_eq_core (s : Site t) : t = s.before ++ (s.core ++ s.behind) := by
  rw [core, List.append_assoc]
  exact s.text_eq_head

theorem Site.slash_notMem_core (s : Site t) : '/' ∉ s.core := by
  have hwhite : '/' ∉ s.space := notMem_white s.white rfl
  have hquote : '/' ≠ s.quote := ne_quote s.isQuote_quote rfl
  simp [core, head, (keyword_letters s.keyword_mem).2.2.2, hwhite, hquote, s.first_ne.symm]

theorem Site.core_isPrefix (s : Site t) (hbefore : s.before = []) : s.core <+: t := by
  have htext := s.text_eq_core
  rw [hbefore, List.nil_append] at htext
  exact ⟨s.behind, htext.symm⟩

/-- There is one at sign up to the tilde. -/
theorem Site.exists_core (s : Site t) :
    ∃ front, s.core = '@' :: (front ++ [s.first]) ∧ '@' ∉ front := by
  obtain ⟨letters, hletters⟩ := List.head?_eq_some_iff.1 (keyword_letters s.keyword_mem).1
  have htail := (keyword_letters s.keyword_mem).2.1
  rw [hletters, List.tail_cons] at htail
  have hwhite : '@' ∉ s.space := notMem_white s.white rfl
  have hquote : '@' ≠ s.quote := ne_quote s.isQuote_quote rfl
  refine ⟨letters ++ (s.space ++ [s.quote, '~']), by simp [core, head, hletters], ?_⟩
  simp [htail, hwhite, hquote]

/-- The site at the start of a text that starts with the core of one. -/
def Site.ofCore (s : Site t) (h : s.core <+: u) : Site u where
  before := []
  keyword := s.keyword
  space := s.space
  quote := s.quote
  first := s.first
  behind := u.drop s.core.length
  keyword_mem := s.keyword_mem
  white := s.white
  isQuote_quote := s.isQuote_quote
  first_ne := s.first_ne
  isQuote_first := s.isQuote_first
  text_eq := by
    obtain ⟨rest, rfl⟩ := h
    simp [core, head]

/-- What a slash does not stand in starts in front of it and ends in front of it. -/
theorem prefix_of_prefix_slash (hw : '/' ∉ w) (h : w <+: u ++ '/' :: v) : w <+: u := by
  rcases List.prefix_or_prefix_of_prefix h (List.prefix_append u _) with hshort | hlong
  · exact hshort
  · obtain ⟨more, rfl⟩ := hlong
    rw [List.prefix_append_right_inj] at h
    cases more with
    | nil => simp
    | cons c more =>
      obtain ⟨rfl, -⟩ := List.cons_prefix_cons.1 h
      simp at hw

/-- No site goes across a slash. -/
theorem Site.cut_slash (s : Site t) (ht : t = u ++ '/' :: v) :
    Nonempty (Site u) ∨ Nonempty (Site v) := by
  by_cases hstart : u.length < s.start
  · right
    obtain rfl : t = (u ++ ['/']) ++ v := by simpa using ht
    obtain ⟨s', -⟩ := s.exists_of_le (by rw [List.length_append, List.length_singleton]; omega)
    exact ⟨s'⟩
  · left
    have htext := ht.symm.trans s.text_eq_core
    obtain ⟨more, hmore⟩ : s.before <+: u :=
      List.prefix_of_prefix_length_le ⟨_, htext.symm⟩ (List.prefix_append u _)
        (Nat.not_lt.1 hstart)
    rw [← hmore, List.append_assoc] at htext
    have hcore : s.core <+: more ++ '/' :: v := ⟨s.behind, (List.append_cancel_left htext).symm⟩
    rw [← hmore]
    exact ⟨(s.ofCore (prefix_of_prefix_slash s.slash_notMem_core hcore)).prepend s.before⟩

/-! ## Along the text -/

theorem Site.length_remainder_lt (s : Site t) : s.remainder.length < t.length := by
  have hlength := congrArg List.length s.text_eq_path
  simp only [List.length_append, List.length_cons] at hlength
  omega

/-- Induction along the replacing of a text: a character is copied, or a site at the start is
replaced and what is behind its path is left. -/
@[elab_as_elim]
theorem replace_induction {P : Text → Prop} (t : Text) (nil : P [])
    (cons : ∀ (c : Char) (t : Text), (∀ s : Site (c :: t), s.Spaced → s.before ≠ []) →
      P t → P (c :: t))
    (site : ∀ (t : Text) (s : Site t), s.before = [] → s.Spaced → P s.remainder → P t) : P t := by
  induction hlength : t.length using Nat.strong_induction_on generalizing t with
  | _ n ih =>
    subst hlength
    by_cases hsite : ∃ s : Site t, s.Spaced ∧ s.before = []
    · obtain ⟨s, hspaced, hbefore⟩ := hsite
      exact site t s hbefore hspaced (ih _ s.length_remainder_lt s.remainder rfl)
    · cases t with
      | nil => exact nil
      | cons c t =>
        refine cons c t (fun s hspaced hbefore => hsite ⟨s, hspaced, hbefore⟩) ?_
        exact ih t.length (by simp) t rfl

/-- A text that starts with a site starts with the head of the site. -/
theorem Site.head_isPrefix (s : Site t) (hbefore : s.before = []) : s.head <+: t := by
  have htext := s.text_eq_head
  rw [hbefore, List.nil_append] at htext
  exact ⟨_, htext.symm⟩

theorem Site.head?_head (s : Site t) : s.head.head? = some '@' := by
  rw [head, List.head?_append, (keyword_letters s.keyword_mem).1]
  rfl

theorem head?_replace (directory t : Text) : (replace directory t).head? = t.head? := by
  induction t using replace_induction with
  | nil => rfl
  | cons c t hcopied _ =>
    rw [replace_cons hcopied]
    rfl
  | site t s hbefore hspaced _ =>
    obtain ⟨rest, hrest⟩ := s.head_isPrefix hbefore
    have hstart : t.head? = some '@' := by
      refine (congrArg List.head? hrest).symm.trans ?_
      rw [List.head?_append, s.head?_head]
      rfl
    rw [hstart, replace_of_site s hbefore hspaced, List.head?_append, s.head?_head]
    rfl

/-- Text without an at sign is copied, and so is the character behind it. -/
theorem prefix_replace {c : Char} (h : '@' ∉ front) (hfront : front ++ [c] <+: t) :
    front ++ [c] <+: replace directory t := by
  obtain ⟨rest, rfl⟩ := hfront
  obtain ⟨more, hmore⟩ := List.head?_eq_some_iff.1 (head?_replace directory (c :: rest))
  rw [List.append_assoc, List.singleton_append, replace_append_of_notMem h, hmore]
  exact ⟨more, List.append_assoc _ _ _⟩

/-- What the replaced text starts with, up to the first slash, is what the text starts with. -/
theorem prefix_of_prefix_replace (hdirectory : directory.head? = some '/') (hw : '/' ∉ w)
    (h : w <+: replace directory t) : w <+: t := by
  induction t using replace_induction generalizing w with
  | nil => exact h
  | cons c t hcopied ih =>
    rw [replace_cons hcopied] at h
    cases w with
    | nil => exact List.nil_prefix
    | cons d w =>
      obtain ⟨rfl, hrest⟩ := List.cons_prefix_cons.1 h
      exact List.cons_prefix_cons.2 ⟨rfl, ih (fun hmem => hw (List.mem_cons_of_mem _ hmem)) hrest⟩
  | site t s hbefore hspaced _ =>
    -- The first tilde is replaced by a slash and more.
    obtain ⟨names, rfl⟩ := List.head?_eq_some_iff.1 hdirectory
    rw [replace_of_site s hbefore hspaced] at h
    exact (prefix_of_prefix_slash hw h).trans (s.head_isPrefix hbefore)

/-! ## The sites that are left -/

/-- A site without white space at the end of a text is one of the text. -/
theorem exists_tight_of_suffix (h : ∃ s : Site v, ¬ s.Spaced) (hv : v <:+ t) :
    ∃ s : Site t, ¬ s.Spaced := by
  obtain ⟨s, htight⟩ := h
  obtain ⟨front, rfl⟩ := hv
  exact ⟨s.prepend front, htight⟩

theorem Site.remainder_suffix (s : Site t) : s.remainder <:+ t := by
  have htext : t = (s.before ++ (s.head ++ '~' :: s.path)) ++ s.remainder := by
    simpa using s.text_eq_path
  exact ⟨_, htext.symm⟩

/-- A site of the path and what follows it does not start in the path, if the text hides no
keyword. -/
theorem Site.path_length_le_start (r : Site t) (hclear : Unhidden t)
    {rest : Text} (hrest : rest.head? = r.remainder.head?) (s : Site (r.path ++ rest)) :
    r.path.length ≤ s.start := by
  have hplain : ∀ c ∈ r.path, isQuote c = false := by
    intro c hc
    rcases List.mem_cons.1 hc with rfl | hc
    · exact r.isQuote_first
    · simpa using List.mem_takeWhile_imp hc
  by_contra hlt
  cases rest with
  | nil =>
    have hempty := isEmpty_site_of_plain (t := r.path ++ []) (by simpa using hplain)
    exact hempty.false s
  | cons quote rest =>
    obtain ⟨more, hmore⟩ := List.head?_eq_some_iff.1 hrest.symm
    have hquote : isQuote quote = true := by
      have hfirst := List.head?_dropWhile_not (fun c => !isQuote c) r.behind
      rw [show r.behind.dropWhile (fun c => !isQuote c) = quote :: more from hmore] at hfirst
      simpa using hfirst
    have hsuffix : '~' :: (r.path ++ quote :: more) <:+ t := by
      have htext := r.text_eq_path
      rw [hmore, ← List.append_assoc] at htext
      exact ⟨_, htext.symm⟩
    obtain ⟨hpath, -⟩ := s.eq_of_start_le hplain hquote (by omega)
    apply (hclear.of_suffix hsuffix).not_within hplain hquote s.keyword_mem
    exact ⟨s.before, s.space, (List.append_assoc _ _ _).trans hpath.symm⟩

/-- A site of a replaced text is a site without white space that was in the text before. -/
theorem exists_tight_of_site_replace (hdirectory : directory.head? = some '/')
    (hplain : ∀ c ∈ directory, isQuote c = false) (hclear : Unhidden t)
    (hsite : Nonempty (Site (replace directory t))) : ∃ s : Site t, ¬ s.Spaced := by
  induction t using replace_induction with
  | nil =>
    obtain ⟨s⟩ := hsite
    exact ((isEmpty_site_of_plain (t := []) (by simp)).false s).elim
  | cons c t hcopied ih =>
    have hreplace : replace directory (c :: t) = c :: replace directory t := replace_cons hcopied
    rw [hreplace] at hsite
    obtain ⟨s⟩ := hsite
    by_cases hbefore : s.before = []
    · -- The site starts with the text, and it has no slash, so nothing of it was replaced.
      have hcore : s.core <+: c :: t := by
        apply prefix_of_prefix_replace hdirectory s.slash_notMem_core
        rw [hreplace]
        exact s.core_isPrefix hbefore
      exact ⟨s.ofCore hcore, fun hspaced => hcopied (s.ofCore hcore) hspaced rfl⟩
    · obtain ⟨s', -⟩ := Site.exists_of_le (u := [c]) s (List.length_pos_iff.2 hbefore)
      have hsuffix := List.suffix_cons c t
      exact exists_tight_of_suffix (ih (hclear.of_suffix hsuffix) ⟨s'⟩) hsuffix
  | site t r hbefore hspaced ih =>
    obtain ⟨names, rfl⟩ := List.head?_eq_some_iff.1 hdirectory
    have hnames : ∀ c ∈ names, isQuote c = false :=
      fun c hc => hplain c (List.mem_cons_of_mem _ hc)
    rw [replace_of_site r hbefore hspaced] at hsite
    obtain ⟨s⟩ := hsite
    -- The site is in front of the directory, in it, or behind it.
    rcases s.cut_slash rfl with hfront | hmore
    · exact (not_nonempty_iff.2 r.isEmpty_site_head hfront).elim
    · obtain ⟨s⟩ := hmore
      rcases s.cut_slash rfl with hmiddle | hbehind
      · exact (not_nonempty_iff.2 (isEmpty_site_of_plain hnames) hmiddle).elim
      · obtain ⟨s⟩ := hbehind
        obtain ⟨s', -⟩ := s.exists_of_le
          (r.path_length_le_start hclear (head?_replace _ r.remainder) s)
        exact exists_tight_of_suffix (ih (hclear.of_suffix r.remainder_suffix) ⟨s'⟩)
          r.remainder_suffix

/-- A keyword does not end with white space. -/
theorem keyword_getLast? {keyword : Text} (h : keyword ∈ keywords) :
    ∃ c, keyword.getLast? = some c ∧ isWhitespace c = false := by
  rcases keyword_cases h with rfl | rfl | rfl
  · exact ⟨'t', rfl, rfl⟩
  · exact ⟨'e', rfl, rfl⟩
  · exact ⟨'d', rfl, rfl⟩

/-- A site that starts in front of the first quote is spaced, if white space stands in front of
the quote. -/
theorem Site.spaced_of_start_le {quote c : Char} (s : Site t) (ht : t = u ++ quote :: v)
    (hu : ∀ d ∈ u, isQuote d = false) (hquote : isQuote quote = true)
    (hstart : s.start ≤ u.length) (hlast : u.getLast? = some c) (hwhite : isWhitespace c = true) :
    s.Spaced := by
  subst ht
  intro hspace
  obtain ⟨hopening, -⟩ := s.eq_of_start_le hu hquote hstart
  obtain ⟨letter, hletter, hblack⟩ := keyword_getLast? s.keyword_mem
  rw [hopening, hspace, List.append_nil, List.getLast?_append, hletter, Option.some_or] at hlast
  rw [Option.some.inj hlast, hwhite] at hblack
  cases hblack

/-- A site without white space does not start in the head of a spaced one. -/
theorem Site.length_head_le_start (r : Site t) (hspaced : r.Spaced) (s : Site (r.head ++ u))
    (htight : ¬ s.Spaced) : r.head.length ≤ s.start := by
  by_contra hlt
  have hhead : r.head ++ u = (r.keyword ++ r.space) ++ r.quote :: u := by simp [head]
  have hstart : s.start ≤ (r.keyword ++ r.space).length := by
    have hlength : r.head.length = (r.keyword ++ r.space).length + 1 := by
      simp [head, Nat.add_assoc]
    omega
  have hlast : (r.keyword ++ r.space).getLast? = some (r.space.getLast hspaced) := by
    rw [List.getLast?_append_of_ne_nil _ hspaced, List.getLast?_eq_some_getLast hspaced]
  exact htight (s.spaced_of_start_le hhead r.isQuote_of_mem_opening r.isQuote_quote hstart hlast
    (r.white _ (List.getLast_mem hspaced)))

/-- A site without white space is left in the replaced text. -/
theorem nonempty_site_replace_of_tight (hclear : Unhidden t) (htight : ∃ s : Site t, ¬ s.Spaced) :
    Nonempty (Site (replace directory t)) := by
  induction t using replace_induction with
  | nil =>
    obtain ⟨s, -⟩ := htight
    exact ((isEmpty_site_of_plain (t := []) (by simp)).false s).elim
  | cons c t hcopied ih =>
    obtain ⟨s, htight⟩ := htight
    rw [replace_cons hcopied]
    by_cases hbefore : s.before = []
    · obtain ⟨front, hcore, hsign⟩ := s.exists_core
      have hstarts := s.core_isPrefix hbefore
      rw [hcore, List.cons_prefix_cons] at hstarts
      have hcopy : s.core <+: c :: replace directory t := by
        rw [hcore, List.cons_prefix_cons]
        exact ⟨hstarts.1, prefix_replace hsign hstarts.2⟩
      exact ⟨s.ofCore hcopy⟩
    · obtain ⟨s', -, -, -, hspaced⟩ :=
        Site.exists_of_le (u := [c]) s (List.length_pos_iff.2 hbefore)
      obtain ⟨left⟩ := ih (hclear.of_suffix (List.suffix_cons c t)) ⟨s', mt hspaced.1 htight⟩
      exact ⟨left.prepend [c]⟩
  | site t r hbefore hspaced ih =>
    have htext := r.text_eq_path
    rw [hbefore, List.nil_append] at htext
    rw [htext] at htight
    obtain ⟨s, htight⟩ := htight
    -- A site without white space starts neither in the head of `r`, nor at its tilde, nor in its
    -- path.
    obtain ⟨s₁, -, -, -, h₁⟩ := s.exists_of_le (r.length_head_le_start hspaced s htight)
    have htilde : 1 ≤ s₁.start := s₁.le_start_of_notMem (u := ['~']) (by decide)
    obtain ⟨s₂, -, -, -, h₂⟩ := Site.exists_of_le (u := ['~']) s₁ htilde
    have hpath : r.path.length ≤ s₂.start := r.path_length_le_start hclear rfl s₂
    obtain ⟨s₃, -, -, -, h₃⟩ := Site.exists_of_le (u := r.path) s₂ hpath
    have htight₃ : ¬ s₃.Spaced := fun h => htight (h₁.1 (h₂.1 (h₃.1 h)))
    obtain ⟨left⟩ := ih (hclear.of_suffix r.remainder_suffix) ⟨s₃, htight₃⟩
    rw [replace_of_site r hbefore hspaced]
    exact ⟨(((left.prepend r.path).prepend ['/']).prepend directory).prepend r.head⟩

/-- The sites without white space are left, and no other ones. -/
theorem nonempty_site_replace_iff (hdirectory : directory.head? = some '/')
    (hplain : ∀ c ∈ directory, isQuote c = false) (hclear : Unhidden t) :
    Nonempty (Site (replace directory t)) ↔ ∃ s : Site t, ¬ s.Spaced :=
  ⟨exists_tight_of_site_replace hdirectory hplain hclear, nonempty_site_replace_of_tight hclear⟩

end PackageImport

end StyleBundle
