import StyleBundle.Glob.Walk
import StyleBundle.Proofs.FileTree.Locate
import StyleBundle.Proofs.Glob.Matching
import StyleBundle.Proofs.Path.Absolute

/-!
# What a route finds below a directory

A pattern that starts with an escaped directory goes to that directory first, whatever characters
the names in it have.  Behind it, `**` goes down through entries that are not hidden.  So what is
found has the components of the directory and names after them (`Glob.exists_names_of_mem_find`).
-/

namespace StyleBundle

namespace Glob

open Component

/-! ## Escaped texts -/

theorem escape_append (s t : Text) : escape (s ++ t) = escape s ++ escape t := by
  simp [escape]

private theorem tokensFrom_skip_two (sofar : List Token) (previous : Option Char) (position : Nat)
    (c d : Char) (rest : Text) :
    tokensFrom sofar previous position 2 (c :: d :: rest) =
      tokensFrom sofar (some d) (position + 2) 0 rest := rfl

/-- An escaped text is read character by character. -/
theorem tokensFrom_escape (sofar : List Token) (previous : Option Char) (position : Nat)
    (t : Text) :
    tokensFrom sofar previous position 0 (escape t) =
      .ok (sofar.reverse ++ t.map spelled) := by
  induction t generalizing sofar previous position with
  | nil => simp [escape, tokensFrom]
  | cons c t ih =>
    by_cases hc : c = '?' ∨ c = '*' ∨ c = '[' ∨ c = ']'
    · have hescape : escape (c :: t) = '[' :: c :: ']' :: escape t := by
        simp [escape, hc]
      have hclass : charClass? (c :: ']' :: escape t) = some (.within [.single c], 2) := by
        rcases hc with rfl | rfl | rfl | rfl <;> simp [charClass?, Text.cutFirst?, specifiers]
      rw [hescape, tokensFrom, if_neg (by decide), if_neg (by decide), if_pos rfl, hclass]
      simp only [tokensFrom_skip_two, ih]
      simp [spelled, hc]
    · have hescape : escape (c :: t) = c :: escape t := by
        simp [escape, hc]
      rw [not_or, not_or, not_or] at hc
      rw [hescape, tokensFrom, if_neg hc.1, if_neg hc.2.1, if_neg hc.2.2.1, ih]
      simp [spelled, hc]

theorem tokens_escape (t : Text) : tokens (escape t) = .ok (t.map spelled) :=
  tokensFrom_escape [] none 0 t

theorem split_escape (t : Text) : (escape t).split '/' = (t.split '/').map escape := by
  induction t with
  | nil => rfl
  | cons c t ih =>
    by_cases hc : c = '/'
    · have hescape : escape (c :: t) = '/' :: escape t := by simp [escape, hc]
      rw [hescape, Text.split_cons_separator, ih, hc, Text.split_cons_separator]
      rfl
    · obtain ⟨piece, pieces, hrest, hsplit⟩ := Text.split_cons_of_ne hc t
      rw [hrest, List.map_cons] at ih
      have hone : '/' ∉ escape [c] := by
        by_cases hs : c = '?' ∨ c = '*' ∨ c = '[' ∨ c = ']'
        · simp [escape, hs, Ne.symm hc]
        · simp [escape, hs, Ne.symm hc]
      rw [hsplit, List.map_cons, ← List.singleton_append, escape_append,
        Text.split_append_of_notMem hone ih, ← escape_append]
      rfl

/-! ## Steps of a route -/

/-- The step to a name that is written out. -/
def stepTo (piece : Text) : Step :=
  stepOf (piece.map spelled)

private theorem eq_of_literal? {piece name : Text}
    (h : literal? (piece.map spelled) = some name) :
    name = piece := by
  induction piece generalizing name with
  | nil =>
    cases h
    rfl
  | cons c piece ih =>
    rw [List.map_cons, spelled] at h
    split at h
    · cases h
    · obtain ⟨rest, hrest, rfl⟩ := Option.map_eq_some_iff.1 h
      rw [ih hrest]

theorem recursive_notMem_spelled (piece : Text) : .recursive ∉ piece.map spelled := by
  intro h
  obtain ⟨c, _, hc⟩ := List.mem_map.1 h
  rw [spelled] at hc
  split at hc <;> cases hc

theorem stepTo_cases (piece : Text) :
    stepTo piece = .name piece ∨ stepTo piece = .pattern (piece.map spelled) := by
  rw [stepTo, stepOf]
  split
  · rename_i name hname
    exact .inl (by rw [eq_of_literal? hname])
  · rw [if_neg (by rw [List.contains_iff_mem]; exact recursive_notMem_spelled piece)]
    exact .inr rfl

theorem stepOf_sequence (t : Text) :
    stepOf (.sequence :: t.map spelled) = .pattern (.sequence :: t.map spelled) := by
  have hrecursive : .recursive ∉ .sequence :: t.map spelled := by
    rw [List.mem_cons, not_or]
    exact ⟨by simp, recursive_notMem_spelled t⟩
  rw [stepOf]
  simp only [literal?]
  rw [if_neg (by rw [List.contains_iff_mem]; exact hrecursive)]

theorem collapse_stepTo (pieces : List Text) (rest : List Step) :
    collapse (pieces.map stepTo ++ rest) = pieces.map stepTo ++ collapse rest := by
  induction pieces with
  | nil => rfl
  | cons piece pieces ih =>
    rcases stepTo_cases piece with h | h
    · simp [h, collapse, ih]
    · simp [h, collapse, ih]

/-! ## Following steps -/

variable {tree : FileTree} {directoriesOnly : Bool} {p q : Path}

/-- A path that does not start with `.`, so that names are put behind it. -/
structure Firm (p : Path) : Prop where
  text_ne_nil : p.text ≠ []
  current_notMem : .current ∉ p.components

theorem Firm.child_eq_push (h : Firm p) (name : Text) : child p name = p.push name := by
  rw [child, if_neg]
  rw [Path.same_iff]
  intro hsame
  exact h.current_notMem (by rw [hsame]; decide)

theorem Firm.components_push (h : Firm p) {piece : Text} (hslash : '/' ∉ piece) :
    (p.push piece).components = p.components ++ [piece].filterMap ofPiece? := by
  rw [Path.push, Path.components_join h.text_ne_nil (Path.isAbsolute_mk_of_notMem hslash),
    Text.split_of_notMem hslash]

theorem firm_of_isAbsolute (h : p.isAbsolute = true) : Firm p :=
  ⟨Path.text_ne_nil_of_isAbsolute h, fun hmem => Path.ne_current_of_isAbsolute h hmem rfl⟩

theorem mem_visibleChildren_iff {name : Text} :
    (name, q) ∈ visibleChildren tree p ↔
      ∃ names, tree.names p = .ok names ∧ name ∈ names ∧ name.head? ≠ some '.' ∧
      q = child p name := by
  rw [visibleChildren]
  cases tree.names p with
  | error cause => simp
  | ok names =>
    simp only [List.mem_map, List.mem_filter, decide_eq_true_eq, Prod.mk.injEq, Except.ok.injEq,
      exists_eq_left']
    constructor
    · rintro ⟨other, ⟨hmem, hvisible⟩, rfl, rfl⟩
      exact ⟨hmem, hvisible, rfl⟩
    · rintro ⟨hmem, hvisible, rfl⟩
      exact ⟨name, ⟨hmem, hvisible⟩, rfl, rfl⟩

/-- A path shows a name only if it names a directory that holds the name. -/
theorem exists_place_of_mem_visibleChildren {name : Text}
    (h : (name, q) ∈ visibleChildren tree p) :
    q = child p name ∧ name.head? ≠ some '.' ∧ ∃ place, tree.locate p = .ok place ∧
      tree.isDirectoryAt place = true ∧ name ∈ tree.namesIn place := by
  obtain ⟨names, hnames, hname, hvisible, rfl⟩ := mem_visibleChildren_iff.1 h
  obtain ⟨place, hplace, hnames⟩ := bind_eq_ok_iff.1 hnames
  split_ifs at hnames with hdirectory
  cases hnames
  exact ⟨rfl, hvisible, place, hplace, hdirectory, hname⟩

/-- A directory shows names that are not hidden. -/
theorem of_mem_visibleChildren (hp : p.isAbsolute = true) {name : Text}
    (h : (name, q) ∈ visibleChildren tree p) :
    (∃ place, name ∈ tree.namesIn place) ∧ name.head? ≠ some '.' ∧ q = p.push name := by
  obtain ⟨rfl, hvisible, place, _, _, hname⟩ := exists_place_of_mem_visibleChildren h
  exact ⟨⟨place, hname⟩, hvisible, (firm_of_isAbsolute hp).child_eq_push name⟩

/-- A step to a name that is written out leads to that name and nowhere else. -/
theorem mem_follow_stepTo {piece : Text} {rest : List Step} (hp : p.isAbsolute = true)
    (h : q ∈ follow tree directoriesOnly (stepTo piece :: rest) p) :
    q ∈ follow tree directoriesOnly rest (p.push piece) := by
  rcases stepTo_cases piece with hstep | hstep
  · rw [hstep, follow] at h
    simp only [(firm_of_isAbsolute hp).child_eq_push] at h
    by_cases hthere :
      (if isDots piece then tree.isDirectory p else tree.hasEntry (p.push piece)) = true
    · rw [if_pos hthere] at h
      exact h
    · rw [if_neg hthere] at h
      cases h
  · rw [hstep, follow] at h
    split at h
    · simp only [List.mem_flatMap, List.mem_append, List.mem_map, List.mem_filter,
        Prod.exists] at h
      obtain ⟨next, ⟨name, hname, rfl⟩ | ⟨name, other, ⟨hchild, haccepts⟩, rfl⟩, hq⟩ := h
      · have haccepts : accepts (piece.map spelled) name = true := by
          rw [dotEntries] at hname
          split at hname
          · exact (List.mem_filter.1 hname).2
          · cases hname
        rw [eq_of_accepts_spelled haccepts] at hq
        exact hq
      · obtain ⟨_, _, rfl⟩ := of_mem_visibleChildren hp hchild
        rw [eq_of_accepts_spelled haccepts] at hq
        exact hq
    · cases h

/-- Steps to names that are written out lead to the path with these names. -/
theorem exists_of_mem_follow {pieces : List Text} {rest : List Step} (hp : p.isAbsolute = true)
    (hpieces : ∀ piece ∈ pieces, '/' ∉ piece)
    (h : q ∈ follow tree directoriesOnly (pieces.map stepTo ++ rest) p) :
    ∃ directory : Path, directory.isAbsolute = true ∧
      directory.components = p.components ++ pieces.filterMap ofPiece? ∧
      q ∈ follow tree directoriesOnly rest directory := by
  induction pieces generalizing p with
  | nil => exact ⟨p, hp, by simp, h⟩
  | cons piece pieces ih =>
    have hnext := mem_follow_stepTo hp h
    obtain ⟨directory, habs, hcomponents, hq⟩ := ih (Path.isAbsolute_push hp piece)
      (fun other hother => hpieces other (List.mem_cons_of_mem _ hother)) hnext
    refine ⟨directory, habs, ?_, hq⟩
    rw [hcomponents, (firm_of_isAbsolute hp).components_push (hpieces piece List.mem_cons_self),
      List.append_assoc,
      ← List.filterMap_append, List.singleton_append]

/-- What lies below a directory is reached through names that are not hidden. -/
theorem exists_names_of_mem_below (hnamed : tree.WellNamed) {found : Text → Path → List Path}
    {depth : Nat} (hp : p.isAbsolute = true) (h : q ∈ below tree found depth p) :
    ∃ names name, ∃ last : Path, (∀ n ∈ names ++ [name], IsName n ∧ n.head? ≠ some '.') ∧
      last.components = p.components ++ (names ++ [name]).map .normal ∧ q ∈ found name last := by
  induction depth generalizing p with
  | zero => cases h
  | succ depth ih =>
    rw [below, List.mem_flatMap] at h
    obtain ⟨⟨name, next⟩, hchild, hq⟩ := h
    obtain ⟨⟨place, hplace⟩, hvisible, rfl⟩ := of_mem_visibleChildren hp hchild
    have hname := hnamed.isName_of_mem_namesIn hplace
    have hpush := Path.components_push_name p hname
    rw [List.mem_append] at hq
    rcases hq with hq | hq
    · exact ⟨[], name, p.push name, by simpa using ⟨hname, hvisible⟩, by simpa using hpush, hq⟩
    · split at hq
      · obtain ⟨names, last, path, hnames, hcomponents, hq⟩ :=
          ih (Path.isAbsolute_push hp name) hq
        refine ⟨name :: names, last, path, ?_, ?_, hq⟩
        · intro n hn
          rw [List.cons_append, List.mem_cons] at hn
          rcases hn with rfl | hn
          · exact ⟨hname, hvisible⟩
          · exact hnames n hn
        · rw [hcomponents, hpush]
          simp
      · cases hq

/-! ## Routes below a directory -/

theorem mapM_tokens_escape {pieces : List Text} {tail : Text} {last : List Token}
    (htail : tokens tail = .ok last) :
    (pieces.map escape ++ [['*', '*'], tail]).mapM tokens =
      .ok (pieces.map (List.map spelled) ++ [[.recursive], last]) := by
  have hstars : tokens ['*', '*'] = .ok [.recursive] := rfl
  rw [mapM_eq_ok_iff]
  apply List.rel_append
  · rw [List.forall₂_map_left_iff, List.forall₂_map_right_iff, List.forall₂_same]
    exact fun piece _ => tokens_escape piece
  · exact .cons hstars (.cons htail .nil)

private theorem route_absolute {rest : Text} {components : List (List Token)} {r : Route}
    (hne : rest ≠ []) (hcomponents : (pieces rest).mapM tokens = .ok components)
    (h : route ('/' :: rest) = .ok r) :
    r.start = ⟨['/']⟩ ∧ r.steps = collapse (components.map stepOf) := by
  obtain ⟨_, _, h⟩ := bind_eq_ok_iff.1 h
  simp only [hcomponents] at h
  cases h
  refine ⟨rfl, ?_⟩
  rw [if_neg (by simpa using hne)]

private theorem pieces_below {tail ext : Text} (hext : '/' ∉ ext) :
    pieces (escape tail ++ '/' :: '*' :: '*' :: '/' :: '*' :: ext) =
      (tail.split '/').map escape ++ [['*', '*'], '*' :: ext] := by
  have hname : '/' ∉ '*' :: ext := by simp [hext]
  have hstars : Text.split '/' ('*' :: '*' :: '/' :: '*' :: ext) = [['*', '*'], '*' :: ext] := by
    have hrest := Text.split_append_separator '/' ['*', '*'] ('*' :: ext)
    rw [Text.split_of_notMem hname] at hrest
    exact hrest
  rw [pieces, Text.split_append_separator, split_escape, hstars]
  simp

private theorem exists_tail {directory : Path} (h : directory.isAbsolute = true) :
    ∃ tail : Text, directory.text = '/' :: tail ∧
      directory.components = .root :: (tail.split '/').filterMap ofPiece? := by
  obtain ⟨text⟩ := directory
  cases text with
  | nil => cases h
  | cons c tail =>
    have hc : c = '/' := by simpa [Path.isAbsolute] using h
    refine ⟨tail, by rw [hc], ?_⟩
    rw [Path.components_eq, Path.leadComponents, if_pos h, hc, Text.split_cons_separator]
    rfl

/-- The route to the files with an extension goes down to the directory name by name, then
anywhere. -/
private theorem route_below {tail ext : Text} {r : Route} (hext : '/' ∉ ext)
    (hlast : tokens ('*' :: ext) = .ok (.sequence :: ext.map spelled))
    (h : route (escape ('/' :: tail) ++ '/' :: '*' :: '*' :: '/' :: '*' :: ext) = .ok r) :
    r.start = ⟨['/']⟩ ∧ r.steps = (tail.split '/').map stepTo ++
      [.recursive, .pattern (.sequence :: ext.map spelled)] := by
  have hescape : escape ('/' :: tail) = '/' :: escape tail := by simp [escape]
  rw [hescape, List.cons_append] at h
  have htokens : ((tail.split '/').map escape ++ [['*', '*'], '*' :: ext]).mapM tokens = _ :=
    mapM_tokens_escape hlast
  rw [← pieces_below hext] at htokens
  obtain ⟨hstart, hsteps⟩ := route_absolute (by simp) htokens h
  refine ⟨hstart, ?_⟩
  have hmap : (tail.split '/').map (stepOf ∘ List.map spelled) =
      (tail.split '/').map stepTo := rfl
  rw [hsteps, List.map_append, List.map_map, hmap, collapse_stepTo, List.map_cons,
    List.map_singleton, stepOf_sequence]
  rfl

theorem eq_of_mem_result {directoriesOnly : Bool} (h : q ∈ result tree directoriesOnly p) :
    q = p := by
  rw [result] at h
  split at h
  · cases h
  · exact List.mem_singleton.1 h

/-- What is found at any depth below a directory lies below it under names that are not hidden. -/
theorem exists_names_of_mem_find (hnamed : tree.WellNamed) {directory : Path}
    (hdirectory : directory.isAbsolute = true) {ext : Text} (hext : '/' ∉ ext)
    (hlast : tokens ('*' :: ext) = .ok (.sequence :: ext.map spelled)) {paths : List Path}
    (h : find tree (escape directory.text ++ '/' :: '*' :: '*' :: '/' :: '*' :: ext) = .ok paths)
    (hq : q ∈ paths) :
    ∃ names front, (∀ n ∈ names ++ [front ++ ext], IsName n ∧ n.head? ≠ some '.') ∧
      q.components = directory.components ++ (names ++ [front ++ ext]).map .normal := by
  obtain ⟨tail, htail, hcomponents⟩ := exists_tail hdirectory
  obtain ⟨r, hroute, hpaths⟩ := bind_eq_ok_iff.1 h
  cases hpaths
  rw [htail] at hroute
  obtain ⟨hstart, hsteps⟩ := route_below hext hlast hroute
  rw [Route.destinations, hstart, hsteps, if_neg (by simp)] at hq
  obtain ⟨above, habove, hsteps, hbelow⟩ := exists_of_mem_follow (by decide)
    (fun piece hpiece => Text.notMem_of_mem_split hpiece) hq
  rw [follow] at hbelow
  obtain ⟨names, name, last, hnames, hlast, hfound⟩ :=
    exists_names_of_mem_below hnamed habove hbelow
  split at hfound
  · rename_i haccepts
    obtain ⟨front, rfl⟩ := exists_front_of_accepts haccepts
    rw [follow] at hfound
    refine ⟨names, front, hnames, ?_⟩
    rw [eq_of_mem_result hfound, hlast, hsteps, hcomponents]
    rfl
  · cases hfound

end Glob

end StyleBundle
