import StyleBundle.Proofs.Directive.Grammar
import StyleBundle.Proofs.Expansion.InPlace
import StyleBundle.Proofs.Expansion.Repetition

/-!
# Expansion line by line

No directive goes over the end of a line, so two texts with a newline between them can be expanded
apart.

* A directive at the start of a text is the same with and without a line behind the text
  (`Directive.occurrence?_append_newline`).
* The directives of both texts are found, those of the second one further behind
  (`Directive.parse_append_newline`), and the text falls into the pieces of both
  (`Piece.ofText_append_newline`).
* An expansion succeeds exactly when every directive of the text can be worked out, wherever it
  stands (`Catalog.exists_outcome_iff`).  So it succeeds for the whole when it does for both
  parts.

`Catalog.expandText_append_newline` puts this together.
-/

namespace StyleBundle

namespace Directive

/-! ## Directives end before the line does -/

theorem Blanks.newline_notMem {t : Text} (h : Blanks t) : '\n' ∉ t := by
  intro hmem
  rcases h _ hmem with heq | heq
  · cases heq
  · cases heq

theorem Quotes.newline_notMem {target t : Text} (h : Quotes target t) : '\n' ∉ t := by
  obtain ⟨_, hnewline, quote, rfl | rfl, _, rfl⟩ := h
  · simp [hnewline]
  · simp [hnewline]

theorem Spells.newline_notMem {o : Opener} {kind : Kind} {target t : Text}
    (h : Spells o kind target t) : '\n' ∉ t := by
  obtain ⟨before, between, behind, quoted, hbefore, hbetween, hbehind, _, hquotes, rfl⟩ := h
  have hopener : '\n' ∉ o.text := by cases o <;> decide
  have hkeyword : '\n' ∉ kind.keyword := by cases kind <;> decide
  simp [hopener, hkeyword, hbefore.newline_notMem, hbetween.newline_notMem,
    hbehind.newline_notMem, hquotes.newline_notMem]

theorem IsCloser.newline_notMem {t : Text} (h : IsCloser t) : '\n' ∉ t := by
  obtain ⟨blanks, hblanks, rfl⟩ := h
  simp [hblanks.newline_notMem]

/-- A text without a newline that begins several lines begins the first one. -/
theorem prefix_append_newline {front a b : Text} (h : '\n' ∉ front) :
    front <+: a ++ '\n' :: b ↔ front <+: a := by
  refine ⟨fun hfront => ?_, fun hfront => hfront.trans (List.prefix_append _ _)⟩
  rcases List.prefix_or_prefix_of_prefix hfront (List.prefix_append a _) with hshort | ⟨more, rfl⟩
  · exact hshort
  · -- The front goes on behind the line, so it would have the newline.
    rw [List.prefix_append_right_inj] at hfront
    cases more with
    | nil => rw [List.append_nil]
    | cons c more =>
      obtain ⟨rfl, -⟩ := List.cons_prefix_cons.1 hfront
      simp at h

theorem occurrence?_append_newline (a b : Text) :
    occurrence? (a ++ '\n' :: b) = occurrence? a := by
  cases hfound : occurrence? a with
  | none =>
    rw [occurrence?_eq_none_iff] at hfound ⊢
    rintro ⟨o, kind, target, body, hbody, hprefix⟩
    exact hfound ⟨o, kind, target, body, hbody,
      (prefix_append_newline hbody.newline_notMem).1 hprefix⟩
  | some found =>
    obtain ⟨o, kind, target, body, closer, rest, hbody, hcloser, rfl, rfl⟩ :=
      exists_spells_of_occurrence? hfound
    have hcloses : Closes closer (rest ++ '\n' :: b) := by
      refine hcloser.imp_right fun ⟨hnil, hnone⟩ => ⟨hnil, fun c hc hprefix => ?_⟩
      exact hnone c hc ((prefix_append_newline hc.newline_notMem).1 hprefix)
    rw [List.append_assoc, occurrence?_of_spells hbody hcloses]

theorem consumed_le_length {t : Text} {found : Occurrence} (h : occurrence? t = some found) :
    found.consumed ≤ t.length := by
  obtain ⟨o, kind, target, body, closer, rest, _, _, rfl, rfl⟩ := exists_spells_of_occurrence? h
  exact (List.prefix_append (body ++ closer) rest).length_le

/-! ## The directives of two texts -/

/-- The directive, some bytes further behind. -/
def shift (n : Nat) (d : Directive) : Directive :=
  { d with start := d.start + n }

theorem scan_shift (n : Nat) (t : Text) (skip offset : Nat) :
    scan skip (offset + n) t = (scan skip offset t).map (shift n) := by
  induction t generalizing skip offset with
  | nil => rfl
  | cons c t ih =>
    have hoffset : offset + n + c.utf8Size = offset + c.utf8Size + n := by omega
    cases skip with
    | succ skip => rw [scan, scan, hoffset, ih]
    | zero =>
      rw [scan, scan, hoffset]
      cases occurrence? (c :: t) with
      | none => exact ih 0 _
      | some found =>
        simp only [ih, List.map_cons]
        rfl

/-- The scan of the first text ends before the newline, and the second text is scanned from its
start. -/
theorem scan_append_newline (a b : Text) (skip offset : Nat) (hskip : skip ≤ a.length) :
    scan skip offset (a ++ '\n' :: b) =
      scan skip offset a ++ scan 0 (offset + (a.byteLength + 1)) b := by
  induction a generalizing skip offset with
  | nil =>
    obtain rfl : skip = 0 := Nat.le_zero.1 hskip
    have hnone : occurrence? ('\n' :: b) = none := occurrence?_append_newline [] b
    rw [List.nil_append, scan, scan, hnone]
    rfl
  | cons c a ih =>
    have hoffset : offset + c.utf8Size + (Text.byteLength a + 1) =
        offset + (Text.byteLength (c :: a) + 1) := by
      rw [Text.byteLength_cons]
      omega
    have hfirst : occurrence? (c :: (a ++ '\n' :: b)) = occurrence? (c :: a) :=
      occurrence?_append_newline (c :: a) b
    rw [List.cons_append]
    cases skip with
    | succ skip => rw [scan, scan, ih _ _ (Nat.le_of_succ_le_succ hskip), hoffset]
    | zero =>
      rw [scan, scan, hfirst]
      cases hfound : occurrence? (c :: a) with
      | none =>
        simp only
        rw [ih _ _ (Nat.zero_le _), hoffset]
      | some found =>
        have hconsumed := consumed_le_length hfound
        rw [List.length_cons] at hconsumed
        simp only
        rw [ih _ _ (by omega), hoffset, List.cons_append]

theorem parse_append_newline (a b : Text) :
    parse (a ++ '\n' :: b) = parse a ++ (parse b).map (shift (a.byteLength + 1)) := by
  rw [parse, scan_append_newline a b 0 0 (Nat.zero_le _), scan_shift]
  rfl

end Directive

namespace Piece

open Directive

theorem scan_append_newline (a b : Text) (covered skip : Nat) (hcovered : covered ≤ a.length)
    (hskip : skip ≤ a.length) :
    scan covered skip (a ++ '\n' :: b) = scan covered skip a ++ .copied '\n' :: scan 0 0 b := by
  induction a generalizing covered skip with
  | nil =>
    obtain rfl : skip = 0 := Nat.le_zero.1 hskip
    obtain rfl : covered = 0 := Nat.le_zero.1 hcovered
    have hnone : occurrence? ('\n' :: b) = none := occurrence?_append_newline [] b
    rw [List.nil_append, scan, scan, hnone]
    rfl
  | cons c a ih =>
    have hfirst : occurrence? (c :: (a ++ '\n' :: b)) = occurrence? (c :: a) :=
      occurrence?_append_newline (c :: a) b
    rw [List.length_cons] at hcovered hskip
    rw [List.cons_append]
    cases covered with
    | succ covered => rw [scan, scan, ih _ _ (by omega) (by omega)]
    | zero =>
      cases skip with
      | succ skip => rw [scan, scan, ih _ _ (by omega) (by omega), List.cons_append]
      | zero =>
        rw [scan, scan, hfirst]
        cases hfound : occurrence? (c :: a) with
        | none =>
          simp only
          rw [ih _ _ (by omega) (by omega), List.cons_append]
        | some found =>
          have hconsumed := consumed_le_length hfound
          obtain ⟨_, _, hraw⟩ := occurrence?_bounds hfound
          rw [List.length_cons] at hconsumed
          simp only
          rw [ih _ _ (by omega) (by omega), List.cons_append]

theorem ofText_append_newline (a b : Text) :
    ofText (a ++ '\n' :: b) = ofText a ++ .copied '\n' :: ofText b :=
  scan_append_newline a b 0 0 (Nat.zero_le _) (Nat.zero_le _)

end Piece

namespace Catalog

open Expansion

variable {c : Catalog} {flight : InFlight}

/-! ## Two texts in one file -/

/-- Plain inclusion keeps the newline between two texts. -/
theorem inlined_append_newline {a b x y : Text} {p : Path} (ha : c.inlined a p = some x)
    (hb : c.inlined b p = some y) : c.inlined (a ++ '\n' :: b) p = some (x ++ '\n' :: y) := by
  rw [inlined.eq_def, Option.bind_eq_bind, Option.bind_eq_some_iff] at ha hb
  obtain ⟨parts, hparts, hx⟩ := ha
  obtain ⟨parts', hparts', hy⟩ := hb
  cases hx
  cases hy
  have hnewline := inlinedPiece_copied (c := c) p.normalize.directory '\n'
  rw [inlined.eq_def, Piece.ofText_append_newline, Option.bind_eq_bind, Option.bind_eq_some_iff]
  refine ⟨parts ++ ['\n'] :: parts',
    mapM_eq_some_iff.2 (List.rel_append (mapM_eq_some_iff.1 hparts)
    (.cons hnewline (mapM_eq_some_iff.1 hparts'))), ?_⟩
  simp

section Success

variable {child : Path → Expanded → Prop} {directory : Path}

/-- The directive finds its file, if it asks for one, and all that it leads to expands.  A tree
may have no members. -/
def WorksOut (c : Catalog) (child : Path → Expanded → Prop) (directory : Path) (d : Directive) :
    Prop :=
  (d.kind = .require → ∃ found, c.LeadsTo directory d found) ∧
    ∀ r, c.LeadsTo directory d r → ∃ e, child r e

theorem exists_contributes_iff {d : Directive} :
    (∃ x, c.Contributes child directory d x) ↔ c.WorksOut child directory d := by
  constructor
  · rintro ⟨x, hx⟩
    refine ⟨fun hkind => ?_, fun r hr => hx.exists_child hr⟩
    cases hx with
    | file found e _ hlocate _ => exact ⟨found, (leadsTo_require hkind).2 hlocate⟩
    | tree members htree _ =>
      rw [hkind] at htree
      cases htree
  · rintro ⟨hfound, hexpands⟩
    cases hkind : d.kind with
    | require =>
      obtain ⟨found, hlead⟩ := hfound hkind
      obtain ⟨e, he⟩ := hexpands found hlead
      exact ⟨_, .file found e hkind ((leadsTo_require hkind).1 hlead) he⟩
    | requireTree =>
      have hchild : ∀ p ∈ membersByName c.source (treeDirectory d.target directory),
          ∃ m : Path × Expanded, m.1 = p ∧ child p m.2 := by
        intro p hp
        obtain ⟨e, he⟩ := hexpands p ((leadsTo_requireTree hkind).2 (mem_membersByName.1 hp))
        exact ⟨(p, e), rfl, he⟩
      obtain ⟨members, hmembers⟩ := exists_forall₂ hchild
      exact ⟨_, .tree members hkind hmembers⟩

theorem exists_assembled_iff {text : Text} :
    (∃ e, c.Assembled child text directory e) ↔
      ∀ d ∈ Directive.parse text, c.WorksOut child directory d := by
  constructor
  · rintro ⟨_, contributions, hcontributions, _⟩ d hd
    obtain ⟨x, _, hx⟩ := exists_right_of_forall₂ hcontributions (mem_inTwoPasses.2 hd)
    exact exists_contributes_iff.1 ⟨x, hx⟩
  · intro h
    obtain ⟨contributions, hcontributions⟩ := exists_forall₂ fun d hd =>
      exists_contributes_iff.2 (h d (mem_inTwoPasses.1 hd))
    exact ⟨_, contributions, hcontributions, rfl⟩

end Success

/-- A text expands when its path is not in flight and each of its directives can be worked out. -/
theorem exists_outcome_iff {depth : Nat} {text : Text} {p : Path} :
    (∃ e, outcome (c.expandWithin (depth + 1) text p) flight = .ok e) ↔
      flight.contains p.normalize = false ∧ ∀ d ∈ Directive.parse text,
        c.WorksOut (fun q e => c.fileOutcome depth (entered flight p) q = .ok e)
          p.normalize.directory d := by
  simp only [outcome_expandWithin_eq_ok_iff, exists_and_left, exists_assembled_iff]

theorem exists_outcome_append_newline_iff {depth : Nat} {a b : Text} {p : Path} :
    (∃ e, outcome (c.expandWithin (depth + 1) (a ++ '\n' :: b) p) flight = .ok e) ↔
      (∃ e, outcome (c.expandWithin (depth + 1) a p) flight = .ok e) ∧
        ∃ e, outcome (c.expandWithin (depth + 1) b p) flight = .ok e := by
  rw [exists_outcome_iff, exists_outcome_iff, exists_outcome_iff, Directive.parse_append_newline,
    List.forall_mem_append, List.forall_mem_map]
  -- Where a directive leads does not depend on its offset.
  exact and_and_left

theorem exists_expandText_iff {text : Text} {p : Path} {s : Session} :
    (∃ e s', c.expandText text p s = .ok e s') ↔
      ∃ e, outcome (c.expandWithin (c.source.chainLimit + 1) text p) s.inFlight = .ok e := by
  have hframed := framed_expandWithin c c.depth text p
  constructor
  · rintro ⟨e, s', h⟩
    exact ⟨e, hframed.outcome_of_ok h⟩
  · rintro ⟨e, h⟩
    exact ⟨e, hframed.exists_ok h⟩

/-- Two texts with a newline between them expand in one file exactly when both do.  The content is
that of the two with a newline between them, and the dependencies are those of both. -/
theorem expandText_append_newline (c : Catalog) (a b : Text) (p : Path) (s : Session) :
    ((∃ e s', c.expandText (a ++ '\n' :: b) p s = .ok e s') ↔
        (∃ e s', c.expandText a p s = .ok e s') ∧ ∃ e s', c.expandText b p s = .ok e s') ∧
      ∀ e₁ e₂ e s₁ s₂ s', c.expandText a p s = .ok e₁ s₁ → c.expandText b p s = .ok e₂ s₂ →
        c.expandText (a ++ '\n' :: b) p s = .ok e s' →
          e.content = e₁.content ++ '\n' :: e₂.content ∧
            ∀ q : Path, q.isIn e.dependencies = true ↔
              q.isIn e₁.dependencies = true ∨ q.isIn e₂.dependencies = true := by
  constructor
  · rw [exists_expandText_iff, exists_expandText_iff, exists_expandText_iff]
    exact exists_outcome_append_newline_iff
  · intro e₁ e₂ e s₁ s₂ s' h₁ h₂ h
    have houtcome₁ := (framed_expandWithin c c.depth a p).outcome_of_ok h₁
    have houtcome₂ := (framed_expandWithin c c.depth b p).outcome_of_ok h₂
    have houtcome := (framed_expandWithin c c.depth (a ++ '\n' :: b) p).outcome_of_ok h
    constructor
    · have hinlined := inlined_append_newline (inlined_of_outcome houtcome₁)
        (inlined_of_outcome houtcome₂)
      rw [inlined_of_outcome houtcome] at hinlined
      exact Option.some.inj hinlined
    · intro q
      rw [isIn_dependencies_of_outcome houtcome, isIn_dependencies_of_outcome houtcome₁,
        isIn_dependencies_of_outcome houtcome₂, Directive.parse_append_newline]
      simp only [List.mem_append, List.mem_map, or_and_right, exists_or, exists_exists_and_eq_and]
      exact Iff.rfl

/-! ### A tree and a file, one line each -/

/-- The line with the tree. -/
def mixedFront : Text := "x//= require_tree 't'".toList

/-- The line with the file. -/
def mixedBack : Text := "y//= require 'b'".toList

/-- What the first line expands to. -/
def mixedFrontExpanded : Expanded where
  content := 'x' :: (Boundary.ofPath mixedMember).wrap "CB".toList
  dependencies := [mixedMember, mixedFile]

/-- What the second line expands to. -/
def mixedBackExpanded : Expanded where
  content := "yB".toList
  dependencies := [mixedFile]

private theorem mixed_front :
    ∃ s, mixed.expandText mixedFront mixedEntry .start = .ok mixedFrontExpanded s := by
  have hparse : Directive.parse mixedFront =
      [⟨.requireTree, "t".toList, "//= require_tree 't'".toList, 1⟩] := by decide
  have hmembers : membersByName mixed.source
      (treeDirectory "t".toList mixedEntry.normalize.directory) = [mixedMember] := by decide
  apply (framed_expandWithin mixed mixed.depth mixedFront mixedEntry).exists_ok
  refine outcome_expandWithin_eq_ok_iff.2 ⟨rfl, assembled_of_parse_eq_singleton hparse
    (.tree [(mixedMember, ⟨"CB".toList, [mixedFile]⟩)] rfl ?_) ?_ ?_⟩
  · rw [hmembers]
    exact .cons ⟨rfl, mixed_member⟩ .nil
  · decide
  · decide

private theorem mixed_back :
    ∃ s, mixed.expandText mixedBack mixedEntry .start = .ok mixedBackExpanded s := by
  have hparse : Directive.parse mixedBack =
      [⟨.require, "b".toList, "//= require 'b'".toList, 1⟩] := by decide
  apply (framed_expandWithin mixed mixed.depth mixedBack mixedEntry).exists_ok
  refine outcome_expandWithin_eq_ok_iff.2 ⟨rfl, assembled_of_parse_eq_singleton hparse
    (.file mixedFile ⟨"B".toList, []⟩ rfl rfl (mixed_file ?_)) ?_ ?_⟩
  · decide
  · decide
  · decide

theorem mixed_lines :
    (∃ s, mixed.expandText mixedFront mixedEntry .start = .ok mixedFrontExpanded s) ∧
      (∃ s, mixed.expandText mixedBack mixedEntry .start = .ok mixedBackExpanded s) ∧
      ∃ e s, mixed.expandText (mixedFront ++ '\n' :: mixedBack) mixedEntry .start = .ok e s ∧
        e.content = mixedFrontExpanded.content ++ '\n' :: mixedBackExpanded.content ∧
        ∀ q : Path, q.isIn e.dependencies = true ↔
          q.isIn mixedFrontExpanded.dependencies = true ∨
          q.isIn mixedBackExpanded.dependencies = true := by
  obtain ⟨s₁, h₁⟩ := mixed_front
  obtain ⟨s₂, h₂⟩ := mixed_back
  obtain ⟨hiff, hparts⟩ := expandText_append_newline mixed mixedFront mixedBack mixedEntry .start
  obtain ⟨e, s, h⟩ := hiff.2 ⟨⟨_, s₁, h₁⟩, _, s₂, h₂⟩
  exact ⟨⟨s₁, h₁⟩, ⟨s₂, h₂⟩, e, s, h, hparts _ _ e s₁ s₂ s h₁ h₂ h⟩

end Catalog

end StyleBundle
