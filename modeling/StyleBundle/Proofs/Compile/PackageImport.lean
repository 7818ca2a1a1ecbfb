import Mathlib.Data.List.TakeWhile
import StyleBundle.Compile.PackageImport
import StyleBundle.Proofs.Directive
import StyleBundle.Proofs.Lists

/-!
# Where package files are imported

`PackageImport.Site` is a place of a text at which a package file is imported: a keyword, white
space, a quote, a tilde and a character with which the path of a package file can start.  A site
is spaced when the white space is not empty, and these are the sites that are looked for
(`PackageImport.package?_eq_some_iff`).

The tildes are replaced from left to right.  A front in which no spaced site starts is copied
(`PackageImport.replace_append_of_le_start`), and a spaced site is replaced up to the next quote
(`PackageImport.replace_of_site`).
-/

namespace StyleBundle

namespace PackageImport

variable {t u v front rest directory : Text}

/-! ## Sites -/

/-- A place at which a package file is imported. -/
structure Site (t : Text) where
  before : Text
  keyword : Text
  space : Text
  quote : Char
  /-- The character after the tilde. -/
  first : Char
  behind : Text
  keyword_mem : keyword ∈ keywords
  white : ∀ c ∈ space, isWhitespace c = true
  isQuote_quote : isQuote quote = true
  first_ne : first ≠ '/'
  isQuote_first : isQuote first = false
  text_eq : t = before ++ (keyword ++ (space ++ quote :: '~' :: first :: behind))

namespace Site

/-- What stands in front of the tilde. -/
def head (s : Site t) : Text :=
  s.keyword ++ (s.space ++ [s.quote])

/-- The position of the keyword. -/
def start (s : Site t) : Nat :=
  s.before.length

/-- The position of the tilde. -/
def tilde (s : Site t) : Nat :=
  s.start + s.head.length

/-- There is white space between the keyword and the quote. -/
def Spaced (s : Site t) : Prop :=
  s.space ≠ []

/-- The path of the package file, which ends in front of the next quote. -/
def path (s : Site t) : Text :=
  s.first :: s.behind.takeWhile fun c => !isQuote c

/-- The text behind the path. -/
def remainder (s : Site t) : Text :=
  s.behind.dropWhile fun c => !isQuote c

/-- More text behind a site. -/
def append (s : Site u) (v : Text) : Site (u ++ v) :=
  { s with
    behind := s.behind ++ v
    text_eq := by
      have htext := congrArg (· ++ v) s.text_eq
      simpa using htext }

/-- More text in front of a site. -/
def prepend (u : Text) (s : Site v) : Site (u ++ v) :=
  { s with
    before := u ++ s.before
    text_eq := by
      rw [List.append_assoc]
      exact congrArg (u ++ ·) s.text_eq }

theorem text_eq_head (s : Site t) : t = s.before ++ (s.head ++ '~' :: s.first :: s.behind) := by
  rw [head, List.append_assoc, List.append_assoc, List.singleton_append]
  exact s.text_eq

theorem text_eq_path (s : Site t) :
    t = s.before ++ (s.head ++ '~' :: (s.path ++ s.remainder)) := by
  rw [path, remainder, List.cons_append, List.takeWhile_append_dropWhile]
  exact s.text_eq_head

/-- A site that starts behind a front is a site of the rest. -/
theorem exists_of_le (s : Site (u ++ v)) (h : u.length ≤ s.start) :
    ∃ s' : Site v, s.start = u.length + s'.start ∧ s'.head = s.head ∧ s'.path = s.path ∧
      (s'.Spaced ↔ s.Spaced) := by
  obtain ⟨before, hbefore⟩ : u <+: s.before :=
    List.prefix_of_prefix_length_le (List.prefix_append u v) ⟨_, s.text_eq.symm⟩ h
  have htext := s.text_eq
  rw [← hbefore, List.append_assoc] at htext
  refine ⟨{ s with before := before, text_eq := List.append_cancel_left htext }, ?_,
    rfl, rfl, .rfl⟩
  rw [start, ← hbefore, List.length_append]
  rfl

end Site

/-! ## Reading a site -/

theorem keyword_cases {keyword : Text} (h : keyword ∈ keywords) :
    keyword = "@import".toList ∨ keyword = "@use".toList ∨ keyword = "@forward".toList := by
  simpa [keywords] using h

theorem isWhitespace_of_isQuote {c : Char} (h : isQuote c = true) : isWhitespace c = false := by
  rw [isQuote, Bool.or_eq_true, beq_iff_eq, beq_iff_eq] at h
  rcases h with rfl | rfl
  · decide
  · decide

/-- No keyword is the start of another one, so a text starts with one at most. -/
theorem findSome?_keywords {keyword : Text} :
    (keywords.findSome? fun word => (Text.after? word t).map fun rest => (word, rest)) =
        some (keyword, rest) ↔ keyword ∈ keywords ∧ t = keyword ++ rest := by
  constructor
  · intro h
    obtain ⟨word, hword, hrest⟩ := List.exists_of_findSome?_eq_some h
    obtain ⟨rest', hafter, heq⟩ := Option.map_eq_some_iff.1 hrest
    cases heq
    exact ⟨hword, Text.after?_eq_some_iff.1 hafter⟩
  · rintro ⟨hkeyword, rfl⟩
    rcases keyword_cases hkeyword with rfl | rfl | rfl
    · rfl
    · rfl
    · rfl

theorem opening?_eq_some_iff {head : Text} :
    opening? t = some (head, rest) ↔ ∃ keyword space quote, keyword ∈ keywords ∧ space ≠ [] ∧
      (∀ c ∈ space, isWhitespace c = true) ∧ isQuote quote = true ∧
        head = keyword ++ (space ++ [quote]) ∧ t = head ++ rest := by
  constructor
  · intro h
    rw [opening?, Option.bind_eq_bind, Option.bind_eq_some_iff] at h
    obtain ⟨⟨keyword, more⟩, hfind, h⟩ := h
    obtain ⟨hkeyword, rfl⟩ := findSome?_keywords.1 hfind
    have hmore : more.takeWhile isWhitespace ++ more.dropWhile isWhitespace = more :=
      List.takeWhile_append_dropWhile
    simp only at h
    split_ifs at h with hspace
    · cases h
    · split at h
      · rename_i quote behind hdrop
        rw [hdrop] at hmore
        split_ifs at h with hquote
        cases h
        refine ⟨keyword, more.takeWhile isWhitespace, quote, hkeyword, hspace,
          fun c hc => List.mem_takeWhile_imp hc, hquote, List.append_assoc _ _ _, ?_⟩
        rw [List.append_assoc, List.append_assoc, List.singleton_append, hmore]
      · cases h
  · rintro ⟨keyword, space, quote, hkeyword, hspace, hwhite, hquote, rfl, rfl⟩
    have hfind := (findSome?_keywords (t := keyword ++ (space ++ quote :: rest))).2
      ⟨hkeyword, rfl⟩
    have htext : keyword ++ (space ++ [quote]) ++ rest = keyword ++ (space ++ quote :: rest) := by
      simp
    have hstop := isWhitespace_of_isQuote hquote
    rw [opening?, htext, hfind, Option.bind_eq_bind, Option.bind_some]
    simp only [takeWhile_append_cons hwhite hstop, dropWhile_append_cons hwhite hstop,
      if_neg hspace, if_pos hquote, List.append_assoc]

/-- What is read from the start of a text is a spaced site that starts there. -/
theorem package?_eq_some_iff {head path : Text} :
    package? t = some (head, path) ↔
      ∃ s : Site t, s.before = [] ∧ s.Spaced ∧ s.head = head ∧ s.path = path := by
  constructor
  · intro h
    rw [package?, Option.bind_eq_bind, Option.bind_eq_some_iff] at h
    obtain ⟨⟨opening, rest⟩, hopening, h⟩ := h
    obtain ⟨keyword, space, quote, hkeyword, hspace, hwhite, hquote, rfl, rfl⟩ :=
      opening?_eq_some_iff.1 hopening
    simp only at h
    split at h
    · rename_i first behind
      split_ifs at h with hfirst
      cases h
      rw [not_or, Bool.not_eq_true] at hfirst
      exact ⟨{ before := [], keyword, space, quote, first, behind, keyword_mem := hkeyword,
               white := hwhite, isQuote_quote := hquote, first_ne := hfirst.1,
               isQuote_first := hfirst.2, text_eq := by simp }, rfl, hspace, rfl, rfl⟩
    · cases h
  · rintro ⟨s, hbefore, hspaced, rfl, rfl⟩
    have htext := s.text_eq_head
    rw [hbefore, List.nil_append] at htext
    have hopening : opening? t = some (s.head, '~' :: s.first :: s.behind) :=
      opening?_eq_some_iff.2 ⟨s.keyword, s.space, s.quote, s.keyword_mem, hspaced, s.white,
        s.isQuote_quote, rfl, htext⟩
    rw [package?, hopening, Option.bind_eq_bind, Option.bind_some]
    simp only [s.first_ne, s.isQuote_first, Bool.false_eq_true, or_self, if_false]
    rfl

theorem package?_eq_none_iff :
    package? t = none ↔ ∀ s : Site t, s.Spaced → s.before ≠ [] := by
  rw [Option.eq_none_iff_forall_ne_some]
  constructor
  · intro h s hspaced hbefore
    exact h (s.head, s.path) (package?_eq_some_iff.2 ⟨s, hbefore, hspaced, rfl, rfl⟩)
  · rintro h ⟨head, path⟩ hpackage
    obtain ⟨s, hbefore, hspaced, -, -⟩ := package?_eq_some_iff.1 hpackage
    exact h s hspaced hbefore

/-! ## Replacing one site -/

theorem replaceFrom_eq_replace_drop (directory : Text) (skip : Nat) (t : Text) :
    replaceFrom directory skip t = replace directory (t.drop skip) := by
  induction t generalizing skip with
  | nil =>
    rw [List.drop_nil]
    rfl
  | cons c rest ih =>
    cases skip with
    | zero => rfl
    | succ skip => exact ih skip

/-- A character at which no spaced site starts is copied. -/
theorem replace_cons {c : Char} (h : ∀ s : Site (c :: t), s.Spaced → s.before ≠ []) :
    replace directory (c :: t) = c :: replace directory t := by
  rw [replace, replaceFrom]
  simp only [package?_eq_none_iff.2 h]
  rfl

/-- A front in which no spaced site starts is copied. -/
theorem replace_append_of_le_start
    (h : ∀ s : Site (front ++ t), s.Spaced → front.length ≤ s.start) :
    replace directory (front ++ t) = front ++ replace directory t := by
  induction front with
  | nil => rfl
  | cons c front ih =>
    have hcopied : ∀ s : Site (c :: (front ++ t)), s.Spaced → s.before ≠ [] := by
      intro s hspaced hbefore
      have hstart := h s hspaced
      simp [Site.start, hbefore] at hstart
    have hrest : ∀ s : Site (front ++ t), s.Spaced → front.length ≤ s.start := by
      intro s hspaced
      have hstart := h (s.prepend [c]) hspaced
      simpa [Site.start, Site.prepend] using hstart
    rw [List.cons_append, replace_cons hcopied, ih hrest, List.cons_append]

/-- At a spaced site the tilde is replaced, and the path behind it is copied. -/
theorem replace_of_site (s : Site t) (hbefore : s.before = []) (hspaced : s.Spaced) :
    replace directory t =
      s.head ++ (directory ++ '/' :: (s.path ++ replace directory s.remainder)) := by
  have hpackage : package? t = some (s.head, s.path) :=
    package?_eq_some_iff.2 ⟨s, hbefore, hspaced, rfl, rfl⟩
  have htext : t = (s.head ++ '~' :: s.path) ++ s.remainder := by
    simpa [hbefore] using s.text_eq_path
  cases t with
  | nil => simp at htext
  | cons c rest =>
    have hdrop : rest.drop (s.head.length + s.path.length) = s.remainder :=
      (congrArg (List.drop (s.head.length + s.path.length + 1)) htext).trans
        (List.drop_left' (by simp [Nat.add_assoc]))
    rw [replace, replaceFrom]
    simp only [hpackage]
    rw [replaceFrom_eq_replace_drop, hdrop]
    simp

/-- The leftmost spaced site is replaced, and what stands in front of it is copied. -/
theorem replace_of_first_site (s : Site t) (hspaced : s.Spaced)
    (hfirst : ∀ s' : Site t, s'.Spaced → s.start ≤ s'.start) :
    replace directory t =
      s.before ++ (s.head ++
        (directory ++ '/' :: (s.path ++ replace directory s.remainder))) := by
  obtain ⟨before, keyword, space, quote, first, behind, hkeyword, hwhite, hquote, hslash,
    hplain, rfl⟩ := s
  let here : Site (keyword ++ (space ++ quote :: '~' :: first :: behind)) :=
    ⟨[], keyword, space, quote, first, behind, hkeyword, hwhite, hquote, hslash, hplain, rfl⟩
  rw [replace_append_of_le_start hfirst, replace_of_site here rfl hspaced]
  rfl

/-! ## Where a site can start -/

theorem plain_of_all (h : (t.all fun c => !isQuote c) = true) : ∀ c ∈ t, isQuote c = false := by
  simpa using h

/-- A keyword has one at sign, which starts it, and neither a quote nor a slash. -/
theorem keyword_letters {keyword : Text} (h : keyword ∈ keywords) :
    keyword.head? = some '@' ∧ '@' ∉ keyword.tail ∧ (∀ c ∈ keyword, isQuote c = false) ∧
    '/' ∉ keyword := by
  rcases keyword_cases h with rfl | rfl | rfl
  · exact ⟨rfl, by decide, plain_of_all rfl, by decide⟩
  · exact ⟨rfl, by decide, plain_of_all rfl, by decide⟩
  · exact ⟨rfl, by decide, plain_of_all rfl, by decide⟩

theorem isQuote_of_isWhitespace {c : Char} (h : isWhitespace c = true) : isQuote c = false := by
  by_contra hquote
  rw [Bool.not_eq_false] at hquote
  rw [isWhitespace_of_isQuote hquote] at h
  cases h

theorem ne_quote {quote c : Char} (hquote : isQuote quote = true) (hc : isQuote c = false) :
    c ≠ quote := by
  rintro rfl
  rw [hquote] at hc
  cases hc

theorem notMem_white {space : Text} {c : Char} (hwhite : ∀ d ∈ space, isWhitespace d = true)
    (hc : isWhitespace c = false) : c ∉ space := by
  intro hmem
  rw [hwhite c hmem] at hc
  cases hc

theorem isQuote_of_mem_keyword_append {keyword space : Text} (hkeyword : keyword ∈ keywords)
    (hwhite : ∀ c ∈ space, isWhitespace c = true) : ∀ c ∈ keyword ++ space, isQuote c = false :=
  List.forall_mem_append.2
    ⟨(keyword_letters hkeyword).2.2.1, fun c hc => isQuote_of_isWhitespace (hwhite c hc)⟩

namespace Site

theorem getElem?_start (s : Site t) : t[s.start]? = some '@' := by
  have hdrop : t.drop s.start = s.keyword ++ (s.space ++ s.quote :: '~' :: s.first :: s.behind) :=
    (congrArg (List.drop s.start) s.text_eq).trans (List.drop_left' rfl)
  rw [← List.head?_drop, hdrop, List.head?_append, (keyword_letters s.keyword_mem).1]
  rfl

/-- A site starts at an at sign. -/
theorem le_start_of_notMem (s : Site (u ++ v)) (h : '@' ∉ u) : u.length ≤ s.start := by
  by_contra hlt
  have hsign := s.getElem?_start
  rw [List.getElem?_append_left (by omega)] at hsign
  exact h (List.mem_of_getElem? hsign)

/-- There is no quote between the start of a site and its quote. -/
theorem isQuote_of_mem_opening (s : Site t) : ∀ c ∈ s.keyword ++ s.space, isQuote c = false :=
  isQuote_of_mem_keyword_append s.keyword_mem s.white

end Site

/-- Text without an at sign is copied. -/
theorem replace_append_of_notMem (h : '@' ∉ front) :
    replace directory (front ++ t) = front ++ replace directory t :=
  replace_append_of_le_start fun s _ => s.le_start_of_notMem h

/-- Two cuts of a text at its first quote are the same. -/
theorem append_quote_inj {u' v' : Text} {q q' : Char} (h : u ++ q :: v = u' ++ q' :: v')
    (hu : ∀ c ∈ u, isQuote c = false) (hu' : ∀ c ∈ u', isQuote c = false) (hq : isQuote q = true)
    (hq' : isQuote q' = true) : u = u' ∧ v = v' := by
  have hcut : ∀ (front back : Text) (quote : Char), (∀ c ∈ front, isQuote c = false) →
      isQuote quote = true →
      (front ++ quote :: back).takeWhile (fun c => !isQuote c) = front := by
    intro front back quote hfront hquote
    exact takeWhile_append_cons (fun c hc => by simp [hfront c hc]) (by simp [hquote])
  obtain rfl : u = u' := by rw [← hcut u v q hu hq, h, hcut u' v' q' hu' hq']
  exact ⟨rfl, (List.cons.inj (List.append_cancel_left h)).2⟩

/-- A site that starts in front of the first quote has this quote as its own. -/
theorem Site.eq_of_start_le {quote : Char} (s : Site (u ++ quote :: v))
    (hu : ∀ c ∈ u, isQuote c = false) (hquote : isQuote quote = true) (h : s.start ≤ u.length) :
    u = s.before ++ (s.keyword ++ s.space) ∧ v = '~' :: s.first :: s.behind := by
  have hbefore : s.before <+: u :=
    List.prefix_of_prefix_length_le ⟨_, s.text_eq.symm⟩ (List.prefix_append u _) h
  have htext : u ++ quote :: v = (s.before ++ (s.keyword ++ s.space)) ++ s.quote :: '~' ::
      s.first :: s.behind := by
    simpa using s.text_eq
  refine append_quote_inj htext hu (fun c hc => ?_) hquote s.isQuote_quote
  rcases List.mem_append.1 hc with hc | hc
  · exact hu c (hbefore.subset hc)
  · exact s.isQuote_of_mem_opening c hc

end PackageImport

end StyleBundle
