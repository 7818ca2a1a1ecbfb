import Mathlib.Data.List.Basic
import Mathlib.Data.Nat.Find
import StyleBundle.Compile.Compilation
import StyleBundle.Proofs.Compile.PackageImport

/-!
# Which tildes are replaced

`PackageImport.Scan` goes through a text from left to right and lists the tildes of
package imports.  It takes the leftmost spaced site, and goes on at the next quote behind the
tilde.  A text is scanned in one way (`PackageImport.exists_scan`, `PackageImport.Scan.unique`).

`PackageImport.swap` puts a text in the place of the characters at some positions.  Replacing
package imports is swapping the tildes that the scan finds
(`Compilation.replacePackages_eq_swap`).
-/

namespace StyleBundle

namespace PackageImport

variable {t u v piece : Text} {offset : Nat} {found found' : List Nat}

/-! ## Scanning a text -/

/-- The position of the next quote behind a position, or the end of the text. -/
def nextQuote (t : Text) (position : Nat) : Nat :=
  position + 1 + (t.drop (position + 1)).findIdx isQuote

/-- The positions of the tildes that are found from an offset on. -/
inductive Scan (t : Text) : (offset : Nat) → (found : List Nat) → Prop
  /-- No spaced site starts at the offset or behind it. -/
  | finish {offset : Nat} (h : ∀ s : Site t, s.Spaced → s.start < offset) : Scan t offset []
  /-- The leftmost spaced site from the offset on is found, and the next quote is where the scan
  goes on. -/
  | site {offset : Nat} {found : List Nat} (s : Site t) (hspaced : s.Spaced)
      (hoffset : offset ≤ s.start)
      (hfirst : ∀ s' : Site t, s'.Spaced → offset ≤ s'.start → s.start ≤ s'.start)
      (hrest : Scan t (nextQuote t s.tilde) found) : Scan t offset (s.tilde :: found)

theorem lt_nextQuote (t : Text) (position : Nat) : position < nextQuote t position := by
  rw [nextQuote]
  omega

theorem length_takeWhile_eq_findIdx (t : Text) :
    (t.takeWhile fun c => !isQuote c).length = t.findIdx isQuote := by
  rw [List.takeWhile_eq_take_findIdx_not, List.length_take]
  simp only [Bool.not_not]
  exact Nat.min_eq_left List.findIdx_le_length

theorem Site.start_le_tilde (s : Site t) : s.start ≤ s.tilde :=
  Nat.le_add_right _ _

theorem Site.drop_tilde (s : Site t) : t.drop s.tilde = '~' :: s.first :: s.behind := by
  have htext := s.text_eq_head
  rw [← List.append_assoc] at htext
  exact (congrArg (List.drop s.tilde) htext).trans
    (List.drop_left' (by rw [tilde, start, List.length_append]))

theorem Site.getElem?_tilde (s : Site t) : t[s.tilde]? = some '~' := by
  rw [← List.head?_drop, s.drop_tilde]
  rfl

theorem Site.tilde_lt_length (s : Site t) : s.tilde < t.length :=
  (List.getElem?_eq_some_iff.1 s.getElem?_tilde).1

/-- The path of a site ends at the next quote. -/
theorem Site.nextQuote_tilde (s : Site t) :
    nextQuote t s.tilde = s.tilde + 1 + s.path.length := by
  have hdrop : t.drop (s.tilde + 1) = s.first :: s.behind := by
    rw [← List.drop_drop, s.drop_tilde]
    rfl
  have hpath : s.path = (s.first :: s.behind).takeWhile fun c => !isQuote c := by
    rw [path, List.takeWhile_cons_of_pos (by simp [s.isQuote_first])]
  rw [nextQuote, hdrop, hpath, length_takeWhile_eq_findIdx]

/-- A spaced site is read where it starts. -/
theorem Site.package?_drop_start (s : Site t) (hspaced : s.Spaced) :
    package? (t.drop s.start) = some (s.head, s.path) := by
  have hdrop : t.drop s.start = s.keyword ++ (s.space ++ s.quote :: '~' :: s.first :: s.behind) :=
    (congrArg (List.drop s.start) s.text_eq).trans (List.drop_left' rfl)
  exact package?_eq_some_iff.2 ⟨{ s with before := [], text_eq := hdrop }, rfl, hspaced, rfl, rfl⟩

/-- What is read somewhere in a text is a spaced site that starts there. -/
theorem exists_site_of_package? {position : Nat} {head path : Text}
    (h : package? (t.drop position) = some (head, path)) :
    ∃ s : Site t, s.Spaced ∧ s.start = position ∧ s.head = head := by
  obtain ⟨s, hbefore, hspaced, rfl, -⟩ := package?_eq_some_iff.1 h
  have htext : t = t.take position ++
      (s.keyword ++ (s.space ++ s.quote :: '~' :: s.first :: s.behind)) := by
    have hrest := s.text_eq
    rw [hbefore, List.nil_append] at hrest
    rw [← hrest, List.take_append_drop]
  have hlength := congrArg List.length s.text_eq
  simp only [List.length_drop, List.length_append, List.length_cons] at hlength
  refine ⟨{ s with before := t.take position, text_eq := htext }, hspaced, ?_, rfl⟩
  rw [Site.start, List.length_take]
  omega

theorem Scan.le_of_mem (h : Scan t offset found) : ∀ position ∈ found, offset ≤ position := by
  induction h with
  | finish _ => simp
  | site s _ hoffset _ _ ih =>
    have htilde := s.start_le_tilde
    have hnext := lt_nextQuote t s.tilde
    intro position hposition
    rcases List.mem_cons.1 hposition with rfl | hposition
    · omega
    · have hle := ih position hposition
      omega

theorem Scan.getElem?_of_mem (h : Scan t offset found) :
    ∀ position ∈ found, t[position]? = some '~' := by
  induction h with
  | finish _ => simp
  | site s _ _ _ _ ih => exact List.forall_mem_cons.2 ⟨s.getElem?_tilde, ih⟩

/-- There is one way to scan a text. -/
theorem Scan.unique (h : Scan t offset found) (h' : Scan t offset found') : found = found' := by
  induction h generalizing found' with
  | finish hnone =>
    cases h' with
    | finish _ => rfl
    | site s hspaced hoffset _ _ => exact absurd (hnone s hspaced) (Nat.not_lt.2 hoffset)
  | site s hspaced hoffset hfirst _ ih =>
    cases h' with
    | finish hnone => exact absurd (hnone s hspaced) (Nat.not_lt.2 hoffset)
    | site s' hspaced' hoffset' hfirst' hrest' =>
      have hstart : s.start = s'.start :=
        Nat.le_antisymm (hfirst s' hspaced' hoffset') (hfirst' s hspaced hoffset)
      have hread := s.package?_drop_start hspaced
      rw [hstart, s'.package?_drop_start hspaced', Option.some.injEq, Prod.mk.injEq] at hread
      have htilde : s.tilde = s'.tilde := by
        rw [Site.tilde, Site.tilde, hstart, hread.1]
      rw [← htilde] at hrest' ⊢
      rw [ih hrest']

/-- Where nothing is read, no spaced site starts. -/
theorem Site.le_start_of_none {position : Nat} (s : Site t) (hspaced : s.Spaced)
    (hoffset : offset ≤ s.start)
    (hnone : ∀ n < position, offset ≤ n → package? (t.drop n) = none) : position ≤ s.start := by
  by_contra hlt
  have hread := s.package?_drop_start hspaced
  rw [hnone s.start (by omega) hoffset] at hread
  cases hread

theorem scan_of_none (hnone : ∀ n < t.length, offset ≤ n → package? (t.drop n) = none) :
    Scan t offset [] := by
  refine .finish fun s hspaced => ?_
  by_contra hstart
  have hle := s.le_start_of_none hspaced (by omega) hnone
  have htilde := s.start_le_tilde
  have hlength := s.tilde_lt_length
  omega

/-- The scan finds what is read first. -/
theorem scan_of_package? {position : Nat} {head path : Text} (hoffset : offset ≤ position)
    (hread : package? (t.drop position) = some (head, path))
    (hnone : ∀ n < position, offset ≤ n → package? (t.drop n) = none)
    (hrest : Scan t (nextQuote t (position + head.length)) found) :
    Scan t offset ((position + head.length) :: found) := by
  obtain ⟨s, hspaced, rfl, rfl⟩ := exists_site_of_package? hread
  refine .site s hspaced hoffset (fun s' hspaced' hoffset' => ?_) hrest
  exact s'.le_start_of_none hspaced' hoffset' hnone

theorem exists_scan (t : Text) (offset : Nat) : ∃ found, Scan t offset found := by
  -- Every site that is found leaves less of the text.
  induction hleft : t.length - offset using Nat.strong_induction_on generalizing offset with
  | _ left ih =>
    by_cases hread : ∃ n, offset ≤ n ∧ package? (t.drop n) ≠ none
    · obtain ⟨hoffset, hsome⟩ := Nat.find_spec hread
      obtain ⟨⟨head, path⟩, hpackage⟩ := Option.ne_none_iff_exists'.1 hsome
      obtain ⟨s, -, hstart, hhead⟩ := exists_site_of_package? hpackage
      have hlength := s.tilde_lt_length
      have hnext := lt_nextQuote t s.tilde
      rw [Site.tilde, hstart, hhead] at hlength hnext
      obtain ⟨found, hfound⟩ := ih _ (by omega) (nextQuote t (Nat.find hread + head.length)) rfl
      refine ⟨_, scan_of_package? hoffset hpackage (fun n hn hle => ?_) hfound⟩
      by_contra hne
      exact Nat.find_min hread hn ⟨hle, hne⟩
    · refine ⟨[], scan_of_none fun n _ hle => ?_⟩
      by_contra hne
      exact hread ⟨n, hle, hne⟩

/-! ## Swapping characters -/

/-- The text with a piece in the place of each character at one of the positions.  The text starts
at the offset. -/
def swapFrom (piece : Text) (found : List Nat) (offset : Nat) (t : Text) : Text :=
  (t.zipIdx offset).flatMap fun c => if c.2 ∈ found then piece else [c.1]

/-- The text with a piece in the place of each character at one of the positions. -/
def swap (piece : Text) (found : List Nat) (t : Text) : Text :=
  swapFrom piece found 0 t

theorem swapFrom_append (piece : Text) (found : List Nat) (offset : Nat) (u v : Text) :
    swapFrom piece found offset (u ++ v) =
      swapFrom piece found offset u ++ swapFrom piece found (offset + u.length) v := by
  rw [swapFrom, List.zipIdx_append, List.flatMap_append]
  rfl

theorem swapFrom_congr
    (h : ∀ position, offset ≤ position → (position ∈ found ↔ position ∈ found')) :
    swapFrom piece found offset t = swapFrom piece found' offset t := by
  refine List.flatMap_congr fun c hc => ?_
  simp only [h c.2 (List.mem_zipIdx hc).1]

/-- Text without any of the positions stays as it is. -/
theorem swapFrom_eq_self
    (h : ∀ position ∈ found, position < offset ∨ offset + t.length ≤ position) :
    swapFrom piece found offset t = t := by
  have hkept : swapFrom piece found offset t = (t.zipIdx offset).flatMap fun c => [c.1] := by
    refine List.flatMap_congr fun c hc => if_neg fun hmem => ?_
    obtain ⟨hle, hlt, -⟩ := List.mem_zipIdx hc
    have hout := h c.2 hmem
    omega
  rw [hkept, ← List.map_eq_flatMap, List.zipIdx_map_fst]

theorem swapFrom_cons_of_mem {c : Char} (h : offset ∈ found) :
    swapFrom piece found offset (c :: t) = piece ++ swapFrom piece found (offset + 1) t := by
  rw [swapFrom, List.zipIdx_cons, List.flatMap_cons, if_pos h]
  rfl

/-- Swapping the tilde of a site, and more that stands behind the path. -/
theorem swapFrom_site (s : Site t)
    (h : ∀ position ∈ found, offset + s.tilde + 1 + s.path.length ≤ position) :
    swapFrom piece ((offset + s.tilde) :: found) offset t =
      s.before ++ (s.head ++ (piece ++ (s.path ++
        swapFrom piece found (offset + s.tilde + 1 + s.path.length) s.remainder))) := by
  have htext : t = (s.before ++ s.head) ++ '~' :: (s.path ++ s.remainder) := by
    rw [List.append_assoc]
    exact s.text_eq_path
  have hlength : offset + (s.before ++ s.head).length = offset + s.tilde := by
    rw [List.length_append]
    rfl
  have hfront : swapFrom piece ((offset + s.tilde) :: found) offset (s.before ++ s.head) =
      s.before ++ s.head := by
    refine swapFrom_eq_self (List.forall_mem_cons.2 ⟨?_, fun position hposition => ?_⟩)
    · omega
    · have hle := h position hposition
      omega
  have hpath : swapFrom piece ((offset + s.tilde) :: found) (offset + s.tilde + 1) s.path =
      s.path := by
    refine swapFrom_eq_self (List.forall_mem_cons.2 ⟨?_, fun position hposition => ?_⟩)
    · omega
    · exact .inr (h position hposition)
  have hrest : swapFrom piece ((offset + s.tilde) :: found) (offset + s.tilde + 1 + s.path.length)
      s.remainder = swapFrom piece found (offset + s.tilde + 1 + s.path.length) s.remainder := by
    refine swapFrom_congr fun position hposition => ?_
    rw [List.mem_cons]
    exact or_iff_right (by omega)
  refine (congrArg (swapFrom piece ((offset + s.tilde) :: found) offset) htext).trans ?_
  rw [swapFrom_append, hfront, hlength, swapFrom_cons_of_mem List.mem_cons_self,
    swapFrom_append, hpath, hrest, List.append_assoc]

/-! ## Replacing is swapping -/

/-- From an offset on, replacing is swapping what the scan finds from there. -/
theorem Scan.replace_eq {directory : Text} (h : Scan t offset found) :
    ∀ front rest : Text, t = front ++ rest → offset = front.length →
      replace directory rest = swapFrom (directory ++ ['/']) found offset rest := by
  induction h with
  | finish hnone =>
    rintro front rest rfl rfl
    have hcopied : replace directory (rest ++ []) = rest ++ replace directory [] := by
      apply replace_append_of_le_start
      rw [List.append_nil]
      intro s hspaced
      have hlt := hnone (s.prepend front) hspaced
      rw [Site.start, Site.prepend, List.length_append] at hlt
      omega
    rw [List.append_nil] at hcopied
    rw [hcopied, swapFrom_eq_self (by simp)]
    exact List.append_nil rest
  | site s hspaced hoffset hfirst hrest ih =>
    rename_i found
    rintro front rest rfl rfl
    obtain ⟨s', hstart, hhead, hpath, hspaced'⟩ := s.exists_of_le hoffset
    have htilde : s.tilde = front.length + s'.tilde := by
      rw [Site.tilde, Site.tilde, hstart, hhead, Nat.add_assoc]
    have hnext := s.nextQuote_tilde
    rw [htilde, ← hpath] at hnext
    have hfirst' : ∀ r : Site rest, r.Spaced → s'.start ≤ r.start := by
      intro r hr
      have hle := hfirst (r.prepend front) hr (by simp [Site.start, Site.prepend])
      simp only [Site.start, Site.prepend, List.length_append] at hle hstart ⊢
      omega
    rw [htilde, hnext] at hrest ih
    rw [htilde, replace_of_first_site s' (hspaced'.2 hspaced) hfirst',
      swapFrom_site s' hrest.le_of_mem,
      ih (front ++ (s'.before ++ (s'.head ++ '~' :: s'.path))) s'.remainder ?_ ?_]
    · simp
    · have htext := congrArg (front ++ ·) s'.text_eq_path
      simpa using htext
    · simp [Site.tilde, Site.start]
      omega

end PackageImport

namespace Compilation

open PackageImport

/-- Without a directory of packages a text stays as it is.  With one, the tildes that the scan of
the text finds are swapped for the directory, written with slashes, and a slash. -/
theorem replacePackages_eq_swap (p : Compilation) (t : Text) :
    (p.packageDir = none → p.replacePackages t = t) ∧
      ∀ directory, p.packageDir = some directory →
        ∃ tildes, (∀ found, Scan t 0 found ↔ found = tildes) ∧
          (∀ position ∈ tildes, t[position]? = some '~') ∧
          p.replacePackages t = swap (directory.display ++ ['/']) tildes t := by
  constructor
  · intro hnone
    rw [replacePackages, hnone]
  · intro directory hdirectory
    obtain ⟨tildes, htildes⟩ := exists_scan t 0
    refine ⟨tildes, fun found => ⟨fun h => h.unique htildes, fun h => h ▸ htildes⟩,
      htildes.getElem?_of_mem, ?_⟩
    rw [replacePackages, hdirectory]
    exact htildes.replace_eq [] t rfl rfl

/-! ### An import inside of a path -/

/-- The second tilde stands behind a keyword that is part of the first path. -/
def nestedImports : Text := "@import \"~a @use '~b\";@use\n'~c'".toList

theorem scan_nestedImports : Scan nestedImports 0 [9, 28] := by
  have hquote : nextQuote nestedImports 9 = 17 := by decide
  have hend : nextQuote nestedImports 28 = 30 := by decide
  have hlast : Scan nestedImports 30 [] := scan_of_none (by decide)
  have hsecond : Scan nestedImports 17 [28] :=
    scan_of_package? (by decide)
      (show package? (nestedImports.drop 22) = some ("@use\n'".toList, ['c']) from rfl)
      (by decide) (hend.symm ▸ hlast)
  exact scan_of_package? (Nat.zero_le 0)
    (show package? (nestedImports.drop 0) = some ("@import \"".toList, "a @use ".toList) from rfl)
    (by decide) (hquote.symm ▸ hsecond)

/-- The tilde of the second import is left, because the first path runs over its keyword. -/
theorem nested_swapped :
    (Compilation.mk .passthrough none (some ⟨"/n".toList⟩)).packageDir = some ⟨"/n".toList⟩ ∧
      (Compilation.mk .passthrough none (some ⟨"/n".toList⟩)).replacePackages nestedImports =
        swap "/n/".toList [9, 28] nestedImports ∧
      (Compilation.mk .passthrough none (some ⟨"/n".toList⟩)).replacePackages nestedImports =
        "@import \"/n/a @use '~b\";@use\n'/n/c'".toList := by
  obtain ⟨tildes, hscan, -, hswap⟩ :=
    (replacePackages_eq_swap ⟨.passthrough, none, some ⟨"/n".toList⟩⟩ nestedImports).2
      ⟨"/n".toList⟩ rfl
  obtain rfl : [9, 28] = tildes := (hscan _).1 scan_nestedImports
  exact ⟨rfl, hswap, rfl⟩

/-! ### A directory with a backslash -/

/-- A backslash of the directory is not what comes into the text. -/
theorem backslash_slashed :
    ¬ ∃ found, Scan "@use '~x'".toList 0 found ∧
      (Compilation.mk .passthrough none (some ⟨"n\\m".toList⟩)).replacePackages
        "@use '~x'".toList = swap ("n\\m".toList ++ ['/']) found "@use '~x'".toList := by
  rintro ⟨found, hscan, hswap⟩
  obtain rfl : found = [6] :=
    hscan.unique (scan_of_package? (Nat.zero_le 0)
      (show package? ("@use '~x'".toList.drop 0) = some ("@use '".toList,
        ['x']) from rfl) (by decide)
      (scan_of_none (by decide)))
  revert hswap
  decide

end Compilation

end StyleBundle
