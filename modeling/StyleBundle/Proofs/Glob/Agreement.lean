import StyleBundle.Proofs.Glob.Reach

/-!
# Matching and finding agree

A pattern is searched for in a directory by putting the escaped text of the directory in front of
it.  The steps to the directory lead to one path or nowhere (`Glob.exists_find_below`).  From
there, the pattern finds the paths whose relative text it matches
(`Glob.Canonical.accepts_eq_covers`), if no piece of it is empty, `.` or `.*`, and `**` is not the
last piece.
-/

namespace StyleBundle

namespace Glob

open Component

variable {tree : FileTree} {base p q : Path} {pattern : Text} {parts : List (List Token)}

/-! ## The way to the directory -/

/-- A step to a name that is written out leads to that name or nowhere, whatever comes behind
it. -/
private theorem exists_follow_stepTo (tree : FileTree) (p : Path) (piece : Text) :
    ∃ there : Bool, ∀ directoriesOnly rest q,
      q ∈ follow tree directoriesOnly (stepTo piece :: rest) p ↔
        there = true ∧ q ∈ follow tree directoriesOnly rest (child p piece) := by
  rcases stepTo_cases piece with hstep | hstep
  · refine ⟨if isDots piece then tree.isDirectory p else tree.hasEntry (child p piece), ?_⟩
    intro directoriesOnly rest q
    rw [hstep, follow]
    exact List.mem_ite_nil_right
  · refine ⟨tree.isDirectory p && (visibleChildren tree p).any
      fun shown => accepts (piece.map spelled) shown.1, ?_⟩
    intro directoriesOnly rest q
    have hspecial : dotEntries (piece.map spelled) = [] := by
      rw [dotEntries]
      split
      · rw [List.filter_eq_nil_iff]
        intro name hname haccepts
        have hdots : piece = ['.', '.'] ∨ piece = ['.'] := by
          rw [← eq_of_accepts_spelled haccepts]
          simpa using hname
        -- dots are looked up as they are
        rcases hdots with rfl | rfl
        · cases hstep
        · cases hstep
      · rfl
    rw [hstep, follow, hspecial, List.mem_ite_nil_right, Bool.and_eq_true,
      List.any_eq_true, and_assoc]
    refine and_congr_right fun _ => ?_
    simp only [List.map_nil, List.nil_append, List.mem_flatMap, List.mem_map, List.mem_filter,
      Prod.exists]
    constructor
    · rintro ⟨_, ⟨name, next, ⟨hchild, haccepts⟩, rfl⟩, hq⟩
      obtain ⟨rfl, _⟩ := exists_place_of_mem_visibleChildren hchild
      refine ⟨⟨name, _, hchild, haccepts⟩, ?_⟩
      rw [← eq_of_accepts_spelled haccepts]
      exact hq
    · rintro ⟨⟨name, next, hchild, haccepts⟩, hq⟩
      obtain ⟨rfl, _⟩ := exists_place_of_mem_visibleChildren hchild
      refine ⟨child p name, ⟨name, _, ⟨hchild, haccepts⟩, rfl⟩, ?_⟩
      rw [eq_of_accepts_spelled haccepts]
      exact hq

private theorem exists_follow_stepsTo (tree : FileTree) (p : Path) (names : List Text) :
    ∃ there : Bool, ∀ directoriesOnly rest q,
      q ∈ follow tree directoriesOnly (names.map stepTo ++ rest) p ↔
        there = true ∧ q ∈ follow tree directoriesOnly rest (names.foldl child p) := by
  induction names generalizing p with
  | nil => exact ⟨true, fun _ _ _ => by simp⟩
  | cons name names ih =>
    obtain ⟨here, hhere⟩ := exists_follow_stepTo tree p name
    obtain ⟨there, hthere⟩ := ih (child p name)
    refine ⟨here && there, fun directoriesOnly rest q => ?_⟩
    rw [List.map_cons, List.cons_append, hhere, hthere, Bool.and_eq_true, and_assoc]
    rfl

/-- Where a text is followed from, and what is left of it. -/
def anchor (text : Text) : Text × Text :=
  match text with
  | '/' :: rest => (['/'], rest)
  | rest => (['.'], rest)

/-- Where the escaped text of a directory leads. -/
def entrance (base : Path) : Path :=
  ((anchor base.text).2.split '/').foldl child ⟨(anchor base.text).1⟩

theorem route_eq (text : Text) :
    route text = do
      let _ ← tokens text
      let components ← (pieces (anchor text).2).mapM tokens
      return ⟨⟨(anchor text).1⟩,
        collapse (if text = ['/'] then [.name []] else components.map stepOf),
        text.getLast? = some '/'⟩ := rfl

theorem anchor_cases (text : Text) :
    (∃ tail, text = '/' :: tail ∧ anchor text = (['/'], tail)) ∨
      text.head? ≠ some '/' ∧ anchor text = (['.'], text) := by
  rw [anchor.eq_def]
  split
  · rename_i rest
    exact .inl ⟨rest, rfl, rfl⟩
  · rename_i hother
    right
    refine ⟨?_, rfl⟩
    intro hhead
    obtain ⟨rest, rfl⟩ := List.head?_eq_some_iff.1 hhead
    exact hother rest rfl

private theorem anchor_escape {t : Text} (ht : t ≠ []) (rest : Text) :
    anchor (escape t ++ '/' :: rest) = ((anchor t).1, escape (anchor t).2 ++ '/' :: rest) := by
  obtain ⟨c, t, rfl⟩ := List.exists_cons_of_ne_nil ht
  rcases anchor_cases (c :: t) with ⟨tail, htail, hanchor⟩ | ⟨hhead, hanchor⟩
  · have hescape : escape ('/' :: tail) = '/' :: escape tail := by simp [escape]
    rw [hanchor, htail, hescape]
    rfl
  · rw [hanchor]
    rcases anchor_cases (escape (c :: t) ++ '/' :: rest) with ⟨tail, htail, _⟩ | ⟨_, hescape⟩
    · have hc : c ≠ '/' := by simpa using hhead
      rw [← List.singleton_append, escape_append] at htail
      by_cases hspecial : c = '?' ∨ c = '*' ∨ c = '[' ∨ c = ']'
      · simp [escape, hspecial] at htail
      · simp [escape, hspecial, hc] at htail
    · exact hescape

/-- The pieces of a text are all that stands between slashes, but for an empty piece at the
end. -/
theorem split_eq_pieces (t : Text) :
    t.split '/' = pieces t ∧ ('/' :: t).getLast? ≠ some '/' ∨
      t.split '/' = pieces t ++ [[]] ∧ ('/' :: t).getLast? = some '/' := by
  have htext := Text.joinWith_split '/' t
  obtain ⟨front, last, hsplit⟩ :=
    (List.eq_nil_or_concat (t.split '/')).resolve_left (Text.split_ne_nil '/' t)
  rw [List.concat_eq_append] at hsplit
  have hslash : '/' ∉ last := Text.notMem_of_mem_split (by rw [hsplit]; simp)
  -- the text behind the slash that is put in front ends with the last piece
  have hend : ∃ before, '/' :: t = before ++ '/' :: last := by
    rw [← htext, hsplit]
    by_cases hfront : front = []
    · exact ⟨[], by rw [hfront]; rfl⟩
    · exact ⟨'/' :: Text.joinWith ['/'] front, by
        rw [Text.joinWith_append_singleton _ hfront]; simp⟩
  obtain ⟨before, hbefore⟩ := hend
  rw [pieces, hbefore, List.getLast?_append_of_ne_nil _ (by simp)]
  by_cases hlast : last = []
  · right
    simp only [hsplit, hlast]
    simp
  · left
    obtain ⟨c, rest, rfl⟩ := List.exists_cons_of_ne_nil hlast
    rw [List.getLast?_cons_cons]
    refine ⟨?_, fun hmem => hslash (List.mem_of_getLast? hmem)⟩
    rw [hsplit]
    simp

private theorem pieces_append (front rest : Text) :
    pieces (front ++ '/' :: rest) = front.split '/' ++ pieces rest := by
  have hne := Text.split_ne_nil '/' rest
  rw [pieces, pieces]
  simp only [Text.split_append_separator]
  rw [List.getLast?_append_of_ne_nil _ hne, List.dropLast_append_of_ne_nil hne]
  split_ifs <;> rfl

/-! ## The directory that is reached -/

private theorem components_mk_piece {piece : Text} (hslash : '/' ∉ piece) (hdot : piece ≠ ['.']) :
    (Path.mk piece).components = [piece].filterMap ofPiece? := by
  have hrelative := Path.isAbsolute_mk_of_notMem hslash
  rw [Path.components_eq, Path.leadComponents, if_neg (by simp [hrelative]),
    Text.split_of_notMem hslash, if_neg (by simpa using hdot), List.nil_append]

private theorem firm_mk {piece : Text} (hslash : '/' ∉ piece) (hne : piece ≠ [])
    (hdot : piece ≠ ['.']) : Firm ⟨piece⟩ := by
  refine ⟨hne, ?_⟩
  rw [components_mk_piece hslash hdot]
  intro hmem
  obtain ⟨_, _, hstep⟩ := List.mem_filterMap.1 hmem
  rcases (ofPiece?_eq_some hstep).2 with h | h <;> cases h

/-- The escaped text of a directory leads to a path with its components. -/
theorem firm_entrance (hbase : base.text ≠ []) (hcurrent : .current ∉ base.components) :
    Firm (entrance base) ∧ (entrance base).components = base.components := by
  obtain ⟨text⟩ := base
  rw [entrance]
  rcases anchor_cases text with ⟨tail, rfl, hanchor⟩ | ⟨hhead, hanchor⟩
  · have hroot : Firm ⟨['/']⟩ := ⟨by simp, by decide⟩
    obtain ⟨hfold, hfirm, hcomponents⟩ :=
      hroot.foldl_child fun piece (hpiece : piece ∈ Text.split '/' tail) =>
        Text.notMem_of_mem_split hpiece
    simp only [hanchor]
    rw [hfold]
    refine ⟨hfirm, ?_⟩
    rw [hcomponents, Path.components_eq ⟨'/' :: tail⟩, Path.leadComponents,
      if_pos (by simp [Path.isAbsolute]), Text.split_cons_separator]
    rfl
  · obtain ⟨piece, pieces, hsplit⟩ := List.exists_cons_of_ne_nil (Text.split_ne_nil '/' text)
    have hslash : ∀ other ∈ piece :: pieces, '/' ∉ other := by
      intro other hother
      rw [← hsplit] at hother
      exact Text.notMem_of_mem_split hother
    have hrelative : (Path.mk text).isAbsolute = false := by
      rw [← Bool.not_eq_true]
      simpa [Path.isAbsolute] using hhead
    have hne : piece ≠ [] := by
      rintro rfl
      have htext := Text.joinWith_split '/' text
      rw [hsplit] at htext
      cases pieces with
      | nil => exact hbase htext.symm
      | cons next pieces => exact hhead (by rw [← htext]; rfl)
    have hdot : piece ≠ ['.'] := by
      rintro rfl
      apply hcurrent
      rw [Path.components_eq, Path.leadComponents, if_neg (by simp [hrelative]), hsplit,
        if_pos List.head?_cons]
      exact List.mem_cons_self
    have hfirm := firm_mk (hslash piece List.mem_cons_self) hne hdot
    obtain ⟨hfold, hfirm, hcomponents⟩ :=
      hfirm.foldl_child fun other hother => hslash other (List.mem_cons_of_mem piece hother)
    have hstart : child ⟨['.']⟩ piece = ⟨piece⟩ := if_pos (Path.same_refl _)
    simp only [hanchor]
    rw [hsplit, List.foldl_cons, hstart, hfold]
    refine ⟨hfirm, ?_⟩
    rw [hcomponents, components_mk_piece (hslash piece List.mem_cons_self) hdot,
      Path.components_eq ⟨text⟩, Path.leadComponents, if_neg (by simp [hrelative]), hsplit,
      if_neg (by simpa using hdot), ← List.filterMap_append]
    rfl

/-! ## What a pattern finds in a directory -/

/-- The tokens of the pieces, with those of an empty piece at the end. -/
private theorem exists_forall₂_split (h : (pieces pattern).mapM tokens = .ok parts) :
    ∃ all, List.Forall₂ (fun piece part => tokens piece = .ok part) (pattern.split '/') all := by
  rw [mapM_eq_ok_iff] at h
  rcases split_eq_pieces pattern with ⟨hsplit, _⟩ | ⟨hsplit, _⟩
  · exact ⟨parts, hsplit ▸ h⟩
  · refine ⟨parts ++ [[]], ?_⟩
    rw [hsplit]
    exact List.rel_append h (.cons rfl .nil)

private theorem forall₂_tokens_escape (names : List Text) :
    List.Forall₂ (fun piece part => tokens piece = .ok part) (names.map escape)
      (names.map (List.map spelled)) := by
  rw [List.forall₂_map_left_iff, List.forall₂_map_right_iff, List.forall₂_same]
  exact fun name _ => tokens_escape name

private theorem exists_tokens_below (text : Text) (h : (pieces pattern).mapM tokens = .ok parts) :
    ∃ read, tokens (escape text ++ '/' :: pattern) = .ok read := by
  obtain ⟨all, hall⟩ := exists_forall₂_split h
  have hpieces : List.Forall₂ (fun piece part => tokens piece = .ok part)
      (Text.split '/' (escape text ++ '/' :: pattern))
      ((text.split '/').map (List.map spelled) ++ all) := by
    rw [Text.split_append_separator, split_escape]
    exact List.rel_append (forall₂_tokens_escape _) hall
  obtain ⟨read, hread, _⟩ := exists_tokensFrom_join hpieces
    (fun piece hpiece => Text.notMem_of_mem_split hpiece) (.inl rfl)
  rw [Text.joinWith_split] at hread
  exact ⟨read, hread⟩

private theorem route_below_base (hbase : base.text ≠ [])
    (h : (pieces pattern).mapM tokens = .ok parts) :
    route (escape base.text ++ '/' :: pattern) = .ok
      ⟨⟨(anchor base.text).1⟩,
        ((anchor base.text).2.split '/').map stepTo ++ collapse (parts.map stepOf),
        ('/' :: pattern).getLast? = some '/'⟩ := by
  obtain ⟨read, hread⟩ := exists_tokens_below base.text h
  have hcomponents : (pieces (anchor (escape base.text ++ '/' :: pattern)).2).mapM tokens =
      .ok (((anchor base.text).2.split '/').map (List.map spelled) ++ parts) := by
    rw [anchor_escape hbase, pieces_append, split_escape, mapM_eq_ok_iff]
    exact List.rel_append (forall₂_tokens_escape _) (mapM_eq_ok_iff.1 h)
  have hslash : escape base.text ++ '/' :: pattern ≠ ['/'] := by
    obtain ⟨c, t, hcons⟩ := List.exists_cons_of_ne_nil hbase
    rw [hcons, ← List.singleton_append, escape_append]
    by_cases hspecial : c = '?' ∨ c = '*' ∨ c = '[' ∨ c = ']'
    · simp [escape, hspecial]
    · simp [escape, hspecial]
  have hsteps : (((anchor base.text).2.split '/').map (List.map spelled) ++ parts).map stepOf =
      ((anchor base.text).2.split '/').map stepTo ++ parts.map stepOf := by
    rw [List.map_append, List.map_map]
    rfl
  rw [route_eq, hread, hcomponents, anchor_escape hbase, ← collapse_stepTo, ← hsteps,
    List.getLast?_append_of_ne_nil _ (by simp)]
  simp only [if_neg hslash]
  rfl

/-- In a directory, a pattern whose pieces can be read finds what its steps lead to from there.
Whether the directory is reached does not depend on the pattern. -/
theorem exists_find_below (tree : FileTree) (hbase : base.text ≠ []) :
    ∃ there : Bool, ∀ (pattern : Text) (parts : List (List Token)),
      (pieces pattern).mapM tokens = .ok parts →
      ∃ paths, find tree (escape base.text ++ '/' :: pattern) = .ok paths ∧
        ∀ q, q ∈ paths ↔ there = true ∧ q ∈ follow tree (('/' :: pattern).getLast? = some '/')
          (collapse (parts.map stepOf)) (entrance base) := by
  obtain ⟨there, hthere⟩ :=
    exists_follow_stepsTo tree ⟨(anchor base.text).1⟩ ((anchor base.text).2.split '/')
  refine ⟨there, fun pattern parts hparts => ?_⟩
  refine ⟨_, bind_eq_ok_iff.2 ⟨_, route_below_base hbase hparts, rfl⟩, fun q => ?_⟩
  have hsteps : ((anchor base.text).2.split '/').map stepTo ++
      collapse (parts.map stepOf) ≠ [] := by
    simp [Text.split_ne_nil]
  rw [Route.destinations, if_neg (by simpa using hsteps)]
  exact hthere _ _ q

theorem exists_parts_of_find (hbase : base.text ≠ []) {paths : List Path}
    (h : find tree (escape base.text ++ '/' :: pattern) = .ok paths) :
    ∃ parts, (pieces pattern).mapM tokens = .ok parts := by
  obtain ⟨r, hroute, _⟩ := bind_eq_ok_iff.1 h
  rw [route_eq] at hroute
  obtain ⟨_, _, hroute⟩ := bind_eq_ok_iff.1 hroute
  obtain ⟨all, hall, _⟩ := bind_eq_ok_iff.1 hroute
  rw [anchor_escape hbase, pieces_append, mapM_eq_ok_iff] at hall
  obtain ⟨_, parts, _, hparts, _⟩ := forall₂_append_left_iff.1 hall
  exact ⟨parts, mapM_eq_ok_iff.2 hparts⟩

/-! ## Patterns that match what they find -/

/-- No piece of the pattern is empty, `.` or `.*`, and the last one is not `**`. -/
structure Canonical (pattern : Text) : Prop where
  each : ∀ piece ∈ pieces pattern, piece ≠ [] ∧ piece ≠ ['.'] ∧ piece ≠ ['.', '*']
  last : (pieces pattern).getLast? ≠ some ['*', '*']

instance (pattern : Text) : Decidable (Canonical pattern) :=
  decidable_of_iff ((∀ piece ∈ pieces pattern, piece ≠ [] ∧ piece ≠ ['.'] ∧ piece ≠ ['.', '*']) ∧
      (pieces pattern).getLast? ≠ some ['*', '*'])
    ⟨fun h => ⟨h.1, h.2⟩, fun h => ⟨h.each, h.last⟩⟩

theorem slash_notMem_pieces {piece : Text} (h : piece ∈ pieces pattern) : '/' ∉ piece := by
  apply Text.notMem_of_mem_split
  rcases split_eq_pieces pattern with ⟨hsplit, _⟩ | ⟨hsplit, _⟩
  · rw [hsplit]
    exact h
  · rw [hsplit]
    exact List.mem_append_left _ h

private theorem areParts_of_mapM (h : (pieces pattern).mapM tokens = .ok parts) :
    AreParts parts := by
  intro part hpart
  obtain ⟨piece, hpiece, hread⟩ := exists_left_of_forall₂ (mapM_eq_ok_iff.1 h) hpart
  rcases tokens_cases hread (slash_notMem_pieces hpiece) with ⟨_, hrecursive⟩ | ⟨hinside, _⟩
  · exact .inl hrecursive
  · exact .inr hinside

private theorem eq_map_of_literal? {part : List Token} {name : Text}
    (h : literal? part = some name) : part = name.map .literal := by
  induction part generalizing name with
  | nil =>
    cases h
    rfl
  | cons token part ih =>
    cases token with
    | literal c =>
      obtain ⟨rest, hrest, rfl⟩ := Option.map_eq_some_iff.1 h
      rw [ih hrest]
      rfl
    | any => cases h
    | sequence => cases h
    | recursive => cases h
    | within specifiers => cases h
    | except specifiers => cases h

theorem slash_notMem_of_literal? {part : List Token} {name : Text}
    (hinside : ∀ token ∈ part, token.inComponent = true) (h : literal? part = some name) :
    '/' ∉ name := by
  obtain rfl := eq_map_of_literal? h
  intro hmem
  have hliteral := hinside (.literal '/') (List.mem_map_of_mem hmem)
  cases hliteral

/-- The step of a piece that is neither empty nor `.` nor `.*` adds one component. -/
private theorem advances_stepOf {piece : Text} {part : List Token} (h : tokens piece = .ok part)
    (hslash : '/' ∉ piece) (hne : piece ≠ []) (hdot : piece ≠ ['.'])
    (hstar : piece ≠ ['.', '*']) :
    (stepOf part).Advances := by
  rcases tokens_cases h hslash with ⟨_, rfl⟩ | ⟨hinside, _⟩
  · trivial
  have hnodot : ∀ rest, part = .literal '.' :: rest → ¬ fits rest [] = true := by
    rintro rest rfl hnil
    have hstars : ∀ token ∈ rest, token = .sequence := by
      intro token htoken
      rcases eq_of_fits_nil hnil htoken with rfl | rfl
      · rfl
      · exact absurd (List.mem_cons_of_mem _ htoken) (recursive_notMem hinside)
    rcases eq_of_tokens_dot h hslash hstars with hpiece | hpiece
    · exact hdot hpiece
    · exact hstar hpiece
  rw [stepOf]
  split
  · rename_i name hname
    refine ⟨slash_notMem_of_literal? hinside hname, ?_⟩
    obtain rfl := eq_map_of_literal? hname
    rw [← Bool.not_eq_true, idle, Bool.or_eq_true, beq_iff_eq, beq_iff_eq]
    rintro (rfl | rfl)
    · exact tokens_ne_nil h hne hslash rfl
    · exact hnodot [] rfl rfl
  · rw [if_neg (by rw [List.contains_iff_mem]; exact recursive_notMem hinside)]
    intro hmem
    rw [dotEntries] at hmem
    split at hmem
    · rename_i hhead
      obtain ⟨rest, rfl⟩ := List.head?_eq_some_iff.1 hhead
      have haccepts := (List.mem_filter.1 hmem).2
      rw [accepts_eq_fits] at haccepts
      exact hnodot rest rfl haccepts
    · cases hmem

theorem mem_of_mem_collapse {step : Step} {steps : List Step} (h : step ∈ collapse steps) :
    step ∈ steps := by
  induction steps with
  | nil => exact h
  | cons first rest ih =>
    cases first with
    | name wanted =>
      rw [collapse, List.mem_cons] at h
      · exact List.mem_cons.2 (h.imp_right ih)
      · simp
    | pattern tokens =>
      rw [collapse, List.mem_cons] at h
      · exact List.mem_cons.2 (h.imp_right ih)
      · simp
    | recursive =>
      rw [collapse] at h
      split at h
      · rename_i later hlater
        rw [← hlater] at h
        exact List.mem_cons_of_mem _ (ih h)
      · rw [List.mem_cons] at h
        exact List.mem_cons.2 (h.imp_right ih)

namespace Canonical

theorem advances (hpattern : Canonical pattern) (h : (pieces pattern).mapM tokens = .ok parts) :
    ∀ step ∈ collapse (parts.map stepOf), step.Advances := by
  intro step hstep
  obtain ⟨part, hpart, rfl⟩ := List.mem_map.1 (mem_of_mem_collapse hstep)
  obtain ⟨piece, hpiece, hread⟩ := exists_left_of_forall₂ (mapM_eq_ok_iff.1 h) hpart
  obtain ⟨hne, hdot, hstar⟩ := hpattern.each piece hpiece
  exact advances_stepOf hread (slash_notMem_pieces hpiece) hne hdot hstar

/-- The last piece is read into tokens of one component. -/
private theorem inComponent_last (hpattern : Canonical pattern)
    (h : (pieces pattern).mapM tokens = .ok parts) {part : List Token}
    (hlast : parts.getLast? = some part) :
    part ≠ [] ∧ ∀ token ∈ part, token.inComponent = true := by
  obtain ⟨piece, hpiece, hread⟩ := exists_getLast?_of_forall₂ (mapM_eq_ok_iff.1 h) hlast
  have hmem := List.mem_of_getLast? hpiece
  have hslash := slash_notMem_pieces hmem
  refine ⟨tokens_ne_nil hread (hpattern.each piece hmem).1 hslash, ?_⟩
  rcases tokens_cases hread hslash with ⟨rfl, _⟩ | ⟨hinside, _⟩
  · exact absurd hpiece hpattern.last
  · exact hinside

theorem separated (hpattern : Canonical pattern) (h : (pieces pattern).mapM tokens = .ok parts) :
    Separated (collapse (parts.map stepOf)) := by
  apply separated_collapse
  rw [List.getLast?_map]
  intro hlast
  obtain ⟨part, hpart, hstep⟩ := Option.map_eq_some_iff.1 hlast
  exact stepOf_ne_recursive (hpattern.inComponent_last h hpart).2 hstep

/-- A pattern matches the paths of names that its steps take.  One with a slash at the end matches
none. -/
theorem accepts_eq_covers (hpattern : Canonical pattern)
    (h : (pieces pattern).mapM tokens = .ok parts) {read : List Token}
    (hread : tokens pattern = .ok read) {names : List Text} (hne : names ≠ [])
    (hnames : ∀ name ∈ names, Plain name) :
    accepts read (Text.joinWith ['/'] names) =
      (decide (('/' :: pattern).getLast? ≠ some '/') &&
        covers (collapse (parts.map stepOf)) names) := by
  have hfits : ∀ all, List.Forall₂ (fun piece part => tokens piece = .ok part)
      (pattern.split '/') all → fits read = fits (joined all) := by
    intro all hall
    obtain ⟨read', hread', hfits⟩ := exists_tokensFrom_join hall
      (fun piece hpiece => Text.notMem_of_mem_split hpiece) (.inl rfl)
    rw [Text.joinWith_split] at hread'
    have hsame : read' = read := Except.ok.inj (hread'.symm.trans hread)
    rw [← hsame, hfits]
    rfl
  have hparts := mapM_eq_ok_iff.1 h
  rw [accepts_eq_fits, covers_collapse]
  rcases split_eq_pieces pattern with ⟨hsplit, hend⟩ | ⟨hsplit, hend⟩
  · have hall := hfits parts (by rw [hsplit]; exact hparts)
    have hsome : parts ≠ [] := by
      rintro rfl
      rw [List.forall₂_nil_right_iff] at hparts
      exact Text.split_ne_nil '/' pattern (hsplit.trans hparts)
    have hlast := List.getLast?_eq_some_getLast hsome
    obtain ⟨hempty, hinside⟩ := hpattern.inComponent_last h hlast
    rw [hall, fits_joined_eq_covers (areParts_of_mapM h) hlast hinside hempty hne hnames]
    simp [hend]
  · have hall := hfits (parts ++ [[]])
      (by rw [hsplit]; exact List.rel_append hparts (.cons rfl .nil))
    have hlast : parts.getLast? ≠ some [.recursive] := by
      intro hlast
      exact recursive_notMem (hpattern.inComponent_last h hlast).2 List.mem_cons_self
    rw [hall, fits_joined_append_nil hlast hne hnames]
    simp [hend]

end Canonical

end Glob

end StyleBundle
