import Mathlib.Data.List.Basic
import StyleBundle.Compile.Compilation
import StyleBundle.Proofs.Compile.PackageImport

/-!
# Lists of imports

One import may name several files, with commas between them (`PackageImport.ImportList`).  Package
files are looked for right behind a keyword, so of such a list the first file alone is found
(`PackageImport.ImportList.replace_text`).  The other files of packages keep their tildes, and the
list comes out as it should only if there are none (`Compilation.importList_replaced_iff`).
-/

namespace StyleBundle

namespace PackageImport

variable {t front directory : Text}

/-! ## The parts of a list -/

/-- A file of a list: a text in quotes. -/
structure Target where
  quote : Char
  body : Text
  isQuote_quote : isQuote quote = true
  plain : ∀ c ∈ body, isQuote c = false

namespace Target

/-- The target between its quotes. -/
def text (x : Target) : Text :=
  x.quote :: (x.body ++ [x.quote])

/-- Whether the body starts with a tilde and a character that is no slash. -/
def isPackage (x : Target) : Bool :=
  match x.body with
  | '~' :: first :: _ => first != '/'
  | _ => false

/-- The target with the directory and a slash in the place of a package tilde. -/
def within (directory : Text) (x : Target) : Text :=
  if x.isPackage then x.quote :: (directory ++ '/' :: (x.body.tail ++ [x.quote])) else x.text

theorem isPackage_iff {x : Target} :
    x.isPackage = true ↔ ∃ first rest, x.body = '~' :: first :: rest ∧ first ≠ '/' := by
  unfold isPackage
  constructor
  · intro h
    split at h
    · rename_i first rest hbody
      exact ⟨first, rest, hbody, by simpa using h⟩
    · cases h
  · rintro ⟨first, rest, hbody, hfirst⟩
    rw [hbody]
    simpa using hfirst

end Target

/-- A comma with white space on both sides. -/
structure Comma where
  left : Text
  right : Text
  white : ∀ c ∈ left ++ right, isWhitespace c = true

/-- The comma with the white space around it. -/
def Comma.text (c : Comma) : Text :=
  c.left ++ ',' :: c.right

/-- An import of one or more files. -/
structure ImportList where
  /-- The white space behind the keyword. -/
  space : Text
  space_ne : space ≠ []
  white : ∀ c ∈ space, isWhitespace c = true
  first : Target
  /-- The other files, each with the comma in front of it. -/
  more : List (Comma × Target)

namespace ImportList

/-- The keyword of a list. -/
def word : Text := "@import".toList

/-- The files behind the first one, and the end of the import. -/
def tail (write : Target → Text) (more : List (Comma × Target)) : Text :=
  (more.flatMap fun m => m.1.text ++ write m.2) ++ [';']

/-- The import with every target written in some way. -/
def text (write : Target → Text) (l : ImportList) : Text :=
  word ++ (l.space ++ (write l.first ++ tail write l.more))

end ImportList

/-! ## Copying -/

/-- The text in front of a quote is copied, if no tilde follows the quote. -/
theorem replace_append_quote {quote : Char} (hfront : ∀ c ∈ front, isQuote c = false)
    (hquote : isQuote quote = true) (ht : t.head? ≠ some '~') :
    replace directory (front ++ quote :: t) = front ++ replace directory (quote :: t) := by
  apply replace_append_of_le_start
  intro s _
  by_contra hlt
  obtain ⟨-, hbehind⟩ := s.eq_of_start_le hfront hquote (by omega)
  exact ht (hbehind ▸ rfl)

namespace ImportList

variable {write : Target → Text}

theorem head?_tail_ne (more : List (Comma × Target)) : (tail write more).head? ≠ some '~' := by
  cases more with
  | nil => simp [tail]
  | cons m more =>
    obtain ⟨⟨left, right, hwhite⟩, x⟩ := m
    cases left with
    | nil => simp [tail, Comma.text]
    | cons c left =>
      intro hhead
      obtain rfl : c = '~' := Option.some.inj hhead
      exact notMem_white hwhite (c := '~') rfl (by simp)

/-- What follows the first file is copied, from the quote that ends the first file on. -/
theorem replace_tail (more : List (Comma × Target)) {quote : Char}
    (hquote : isQuote quote = true) :
    replace directory (quote :: tail Target.text more) = quote :: tail Target.text more := by
  induction more generalizing quote with
  | nil =>
    have hsign : '@' ∉ [quote, ';'] := by simp [ne_quote hquote (c := '@') rfl]
    exact replace_append_of_notMem (t := []) hsign
  | cons m more ih =>
    obtain ⟨⟨left, right, hwhite⟩, x⟩ := m
    have htext : quote :: tail Target.text ((⟨left, right, hwhite⟩, x) :: more) =
        (quote :: (left ++ ',' :: (right ++ [x.quote]))) ++
          (x.body ++ x.quote :: tail Target.text more) := by
      simp [tail, Comma.text, Target.text]
    have hsign : '@' ∉ quote :: (left ++ ',' :: (right ++ [x.quote])) := by
      have hspace : '@' ∉ left ++ right := notMem_white hwhite rfl
      simp only [List.mem_append, not_or] at hspace
      simp [hspace, ne_quote hquote (c := '@') rfl, ne_quote x.isQuote_quote (c := '@') rfl]
    rw [htext, replace_append_of_notMem hsign,
      replace_append_quote x.plain x.isQuote_quote (head?_tail_ne more), ih x.isQuote_quote]

end ImportList

/-! ## The first file of a list -/

namespace Target

variable {keyword space rest : Text}

/-- The two characters behind the opening quote are no quotes, so they belong to the body. -/
theorem isPackage_of_append_eq (x : Target) {first : Char} {behind : Text}
    (h : x.body ++ x.quote :: rest = '~' :: first :: behind) (hfirst : first ≠ '/')
    (hplain : isQuote first = false) : x.isPackage = true := by
  have hquote := x.isQuote_quote
  rcases hbody : x.body with _ | ⟨c, _ | ⟨d, body⟩⟩
  · rw [hbody] at h
    exact (ne_quote hquote rfl (List.cons.inj h).1.symm).elim
  · rw [hbody] at h
    rw [(List.cons.inj (List.cons.inj h).2).1, hplain] at hquote
    cases hquote
  · rw [hbody] at h
    obtain ⟨rfl, htail⟩ := List.cons.inj h
    exact isPackage_iff.2 ⟨d, body, hbody, (List.cons.inj htail).1 ▸ hfirst⟩

/-- A keyword and a target behind it start with a site only if the target is a package file. -/
theorem isPackage_of_site (x : Target) (hkeyword : keyword ∈ keywords)
    (hwhite : ∀ c ∈ space, isWhitespace c = true)
    (s : Site ((keyword ++ space) ++ x.quote :: (x.body ++ x.quote :: rest)))
    (hbefore : s.before = []) :
    x.isPackage = true := by
  obtain ⟨-, hbehind⟩ :=
    s.eq_of_start_le (isQuote_of_mem_keyword_append hkeyword hwhite) x.isQuote_quote
    (by simp [Site.start, hbefore])
  exact x.isPackage_of_append_eq hbehind s.first_ne s.isQuote_first

/-- The tilde of a target behind a keyword is replaced, if what follows the closing quote is
copied. -/
theorem replace_keyword (x : Target) (hkeyword : keyword ∈ keywords) (hspace : space ≠ [])
    (hwhite : ∀ c ∈ space, isWhitespace c = true) (hhead : rest.head? ≠ some '~')
    (hrest : replace directory (x.quote :: rest) = x.quote :: rest) :
    replace directory (keyword ++ (space ++ (x.text ++ rest))) =
      keyword ++ (space ++ (x.within directory ++ rest)) := by
  cases hpackage : x.isPackage with
  | true =>
    obtain ⟨first, body, hbody, hfirst⟩ := isPackage_iff.1 hpackage
    have hplain := x.plain
    rw [hbody] at hplain
    have htext : x.text ++ rest = x.quote :: '~' :: first :: (body ++ x.quote :: rest) := by
      simp [text, hbody]
    let here : Site (keyword ++ (space ++ (x.text ++ rest))) :=
      ⟨[], keyword, space, x.quote, first, body ++ x.quote :: rest, hkeyword, hwhite,
        x.isQuote_quote, hfirst, hplain first (by simp), by rw [htext, List.nil_append]⟩
    have hbodyPlain : ∀ c ∈ body, (!isQuote c) = true := fun c hc => by
      simp [hplain c (by simp [hc])]
    have hpath : here.path = first :: body :=
      congrArg (first :: ·) (takeWhile_append_cons hbodyPlain (by simp [x.isQuote_quote]))
    have hremainder : here.remainder = x.quote :: rest :=
      dropWhile_append_cons hbodyPlain (by simp [x.isQuote_quote])
    rw [replace_of_site here rfl hspace, hpath, hremainder, hrest, within, if_pos hpackage, hbody]
    simp [Site.head, here]
  | false =>
    obtain ⟨letters, rfl⟩ := List.head?_eq_some_iff.1 (keyword_letters hkeyword).1
    have htext : letters ++ (space ++ (x.text ++ rest)) =
        (letters ++ (space ++ [x.quote])) ++ (x.body ++ x.quote :: rest) := by
      simp [text]
    have hcopied : ∀ s : Site ('@' :: (letters ++ (space ++ (x.text ++ rest)))), s.Spaced →
        s.before ≠ [] := by
      have hsame : '@' :: (letters ++ (space ++ (x.text ++ rest))) =
          ('@' :: letters ++ space) ++ x.quote :: (x.body ++ x.quote :: rest) := by
        simp [text]
      rw [hsame]
      intro s _ hbefore
      rw [x.isPackage_of_site hkeyword hwhite s hbefore] at hpackage
      cases hpackage
    have hsign : '@' ∉ letters ++ (space ++ [x.quote]) := by
      have hletters : '@' ∉ letters := (keyword_letters hkeyword).2.1
      have hspace : '@' ∉ space := notMem_white hwhite rfl
      simp [hletters, hspace, ne_quote x.isQuote_quote (c := '@') rfl]
    rw [List.cons_append, replace_cons hcopied, htext, replace_append_of_notMem hsign,
      replace_append_quote x.plain x.isQuote_quote hhead, hrest, within,
      if_neg (by simp [hpackage])]
    simp [text]

end Target

namespace ImportList

/-- Of the tildes of a list, that of the first file alone is replaced. -/
theorem replace_text (l : ImportList) :
    replace directory (l.text Target.text) =
      word ++ (l.space ++ (l.first.within directory ++ tail Target.text l.more)) :=
  l.first.replace_keyword (by decide) l.space_ne l.white (head?_tail_ne l.more)
    (replace_tail l.more l.first.isQuote_quote)

end ImportList

/-! ## Lists that come out as they should -/

namespace Target

theorem within_of_not_isPackage {x : Target} (h : x.isPackage = false) :
    x.within directory = x.text := by
  rw [within, if_neg (by simp [h])]

/-- What replaces a tilde brings a slash into the text. -/
theorem count_slash_within (directory : Text) (x : Target) :
    x.text.count '/' + (if x.isPackage then 1 else 0) ≤ (x.within directory).count '/' := by
  unfold within
  split
  · rename_i hpackage
    obtain ⟨first, body, hbody, -⟩ := isPackage_iff.1 hpackage
    simp only [text, hbody, List.tail_cons, List.count_cons, List.count_append, List.cons_append,
      beq_self_eq_true, if_true]
    simp
    omega
  · exact Nat.le_refl _

theorem length_within (x : Target) {other : Text} (h : directory.length = other.length) :
    (x.within directory).length = (x.within other).length := by
  unfold within
  split
  · simp [h]
  · rfl

/-- A package file tells the directories apart. -/
theorem within_eq_within_iff (x : Target) {other : Text} :
    x.within directory = x.within other ↔ (x.isPackage = true → directory = other) := by
  unfold within
  split
  · rename_i hpackage
    simp [hpackage]
  · rename_i hpackage
    simp [hpackage]

end Target

namespace ImportList

theorem count_slash_tail (directory : Text) (more : List (Comma × Target)) :
    (tail Target.text more).count '/' + more.countP (fun m => m.2.isPackage) ≤
      (tail (Target.within directory) more).count '/' := by
  induction more with
  | nil => exact Nat.le_refl _
  | cons m more ih =>
    have hfile := m.2.count_slash_within directory
    simp only [tail, List.flatMap_cons, List.append_assoc, List.count_append,
      List.countP_cons] at ih ⊢
    omega

/-- The files behind the first one are all written alike only if none of them is a package
file. -/
theorem tail_eq_tail_iff (more : List (Comma × Target)) :
    tail Target.text more = tail (Target.within directory) more ↔
      ∀ m ∈ more, m.2.isPackage = false := by
  constructor
  · intro h
    have hcount := count_slash_tail directory more
    rw [← h] at hcount
    have hnone : more.countP (fun m => m.2.isPackage) = 0 := by omega
    simpa using hnone
  · intro h
    rw [tail, tail]
    congr 1
    exact List.flatMap_congr fun m hm => by rw [Target.within_of_not_isPackage (h m hm)]

end ImportList

end PackageImport

namespace Compilation

open PackageImport

/-- Of the tildes of a list, that of the first file alone is replaced.  So those of all package
files are, and nothing else changes, exactly when the other files are no package files, and the
directory comes into the text as it is written or not at all. -/
theorem importList_replaced_iff (p : Compilation) (directory : Path)
    (hdirectory : p.packageDir = some directory) (l : ImportList) :
    p.replacePackages (l.text Target.text) =
        ImportList.word ++ (l.space ++
          (l.first.within directory.display ++ ImportList.tail Target.text l.more)) ∧
      (p.replacePackages (l.text Target.text) = l.text (Target.within directory.text) ↔
        (∀ m ∈ l.more, m.2.isPackage = false) ∧
        (l.first.isPackage = true → '\\' ∉ directory.text)) := by
  have hreplaced : p.replacePackages (l.text Target.text) =
      ImportList.word ++ (l.space ++
        (l.first.within directory.display ++ ImportList.tail Target.text l.more)) := by
    unfold replacePackages
    rw [hdirectory]
    show PackageImport.replace directory.display _ = _
    rw [l.replace_text]
  have hlength : directory.display.length = directory.text.length := by
    rw [Path.display, Text.slashed, List.length_map]
  refine ⟨hreplaced, ?_⟩
  rw [hreplaced, ImportList.text, List.append_cancel_left_eq, List.append_cancel_left_eq]
  constructor
  · intro h
    obtain ⟨hfirst, htail⟩ := List.append_inj h (l.first.length_within hlength)
    refine ⟨(ImportList.tail_eq_tail_iff l.more).1 htail, fun hpackage => ?_⟩
    exact Text.slashed_eq_self_iff.1 (l.first.within_eq_within_iff.1 hfirst hpackage)
  · rintro ⟨hmore, hfirst⟩
    have hwithin : l.first.within directory.display = l.first.within directory.text :=
      l.first.within_eq_within_iff.2 fun hpackage => Text.slashed_of_notMem (hfirst hpackage)
    rw [hwithin, (ImportList.tail_eq_tail_iff l.more).2 hmore]

/-! ### Lists with one package file and with two -/

/-- A package file in front of a plain one and of a path that starts with a tilde and a slash. -/
def mixedList : ImportList where
  space := ['\n']
  space_ne := by decide
  white := List.all_eq_true.1 rfl
  first := ⟨'\'', "~a".toList, rfl, plain_of_all rfl⟩
  more := [(⟨[' '], ['\t'], List.all_eq_true.1 rfl⟩, ⟨'"', "b".toList, rfl, plain_of_all rfl⟩),
    (⟨[], [], List.all_eq_true.1 rfl⟩, ⟨'\'', "~/c".toList, rfl, plain_of_all rfl⟩)]

theorem mixed_replaced :
    (Compilation.mk .passthrough none (some ⟨"/n".toList⟩)).packageDir = some ⟨"/n".toList⟩ ∧
      (Compilation.mk .passthrough none (some ⟨"/n".toList⟩)).replacePackages
        (mixedList.text Target.text) = mixedList.text (Target.within "/n".toList) ∧
      mixedList.text (Target.within "/n".toList) = "@import\n'/n/a' ,\t\"b\",'~/c';".toList :=
  ⟨rfl, (importList_replaced_iff ⟨.passthrough, none, some ⟨"/n".toList⟩⟩ ⟨"/n".toList⟩ rfl
    mixedList).2.2 ⟨by decide, by decide⟩, rfl⟩

/-- Two package files. -/
def pairList : ImportList where
  space := [' ']
  space_ne := by decide
  white := List.all_eq_true.1 rfl
  first := ⟨'\'', "~a".toList, rfl, plain_of_all rfl⟩
  more := [(⟨[], [' '], List.all_eq_true.1 rfl⟩, ⟨'"', "~b".toList, rfl, plain_of_all rfl⟩)]

/-- The tilde of the second package file of a list is not replaced. -/
theorem pair_half_replaced :
    (Compilation.mk .passthrough none (some ⟨"/n".toList⟩)).replacePackages
      (pairList.text Target.text) =
        "@import '/n/a', \"~b\";".toList ∧
      (Compilation.mk .passthrough none (some ⟨"/n".toList⟩)).replacePackages
        (pairList.text Target.text) ≠ pairList.text (Target.within "/n".toList) :=
  ⟨rfl, by decide⟩

end Compilation

end StyleBundle
