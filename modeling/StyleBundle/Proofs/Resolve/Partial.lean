import Mathlib.Data.List.Induction
import StyleBundle.Proofs.Resolve.AliasBase

/-!
# The partial of an import

For every import two files are tried in a directory, the one that it names and its partial.  The
first takes the import as a whole.  The second is put together from the text in front of the last
slash and the name behind it.

`Path.IsPartialOf` says that a path lies beside another one and has its name with an underscore.
`Catalog.partialCandidate_iff` says when the second candidate is the partial of the first.  Two
things may come between them.

* An import that is a slash and a name.  The whole import is absolute, but the text in front of
  the slash is empty, and an empty text leads nowhere.
* An extension that leads on to another name.  `Catalog.KeepsName` excludes it.

The proof compares the stacks of folded components.  Whatever is folded behind a name leaves names
on top of the stack, after it took some steps up (`Path.exists_foldl_foldStep`).
-/

namespace StyleBundle

namespace Component

/-- More text behind a name is part of the name. -/
theorem IsName.append {name more : Text} (h : IsName name) (hmore : '/' ∉ more) :
    IsName (name ++ more) := by
  have hne := h.ne_nil
  obtain ⟨hslash, hcounts⟩ := h
  refine .of_ne (by simp [hslash, hmore]) (by simp [hne]) ?_ ?_
  · intro heq
    obtain ⟨rfl, -⟩ | ⟨rfl, -⟩ := List.append_eq_singleton_iff.1 heq
    · exact hne rfl
    · cases hcounts
  · intro heq
    rcases List.append_eq_cons_iff.1 heq with ⟨rfl, -⟩ | ⟨rest, rfl, hrest⟩
    · exact hne rfl
    · obtain ⟨rfl, -⟩ | ⟨rfl, -⟩ := List.append_eq_singleton_iff.1 hrest.symm
      · cases hcounts
      · cases hcounts

theorem IsName.cons_underscore {name : Text} (h : '/' ∉ name) : IsName ('_' :: name) :=
  .of_ne (by simp [h]) (by simp) (by simp) (by simp)

end Component

namespace Path

open Component

/-! ## Folding on top of a stack -/

/-- Folding steps up and names takes some steps up from the stack and leaves some names on it.
Which names and how many steps does not depend on the stack. -/
theorem exists_foldl_foldStep (steps : List Component)
    (h : ∀ step ∈ steps, step = .parent ∨ ∃ name, IsName name ∧ step = .normal name) :
    ∃ (names : List Text) (ups : Nat), ∀ stack, steps.foldl foldStep stack =
      names.map .normal ++ (List.replicate ups .parent).foldl foldStep stack := by
  -- The last step works on the top of the stack.
  induction steps using List.reverseRecOn with
  | nil => exact ⟨[], 0, fun _ => rfl⟩
  | append_singleton steps step ih =>
    obtain ⟨hsteps, hstep⟩ := List.forall_mem_append.1 h
    obtain ⟨names, ups, hfold⟩ := ih hsteps
    rcases hstep step (List.mem_singleton_self step) with rfl | ⟨name, _, rfl⟩
    · cases names with
      | nil =>
        refine ⟨[], ups + 1, fun stack => ?_⟩
        rw [List.foldl_append, hfold, List.replicate_succ', List.foldl_append]
        rfl
      | cons last names =>
        refine ⟨names, ups, fun stack => ?_⟩
        rw [List.foldl_append, hfold]
        rfl
    · refine ⟨name :: names, ups, fun stack => ?_⟩
      rw [List.foldl_append, hfold]
      rfl

/-- Steps up from the root lead to the root. -/
theorem foldl_foldStep_root (ups : Nat) :
    (List.replicate ups Component.parent).foldl foldStep [.root] = [.root] := by
  induction ups with
  | zero => rfl
  | succ ups ih => exact ih

/-- Two stacks that got a name on top, one of them with an underscore, and then the same steps.
The underscore stays the only difference when the steps lead back and there was no difference
below. -/
theorem foldl_foldStep_underscore_iff {steps : List Component} {x : Text}
    {stack stack' : List Component}
    (hsteps : ∀ step ∈ steps, step = .parent ∨ ∃ name, IsName name ∧ step = .normal name)
    (hstack : stack = stack' ∨ stack = [.root]) :
    (∃ below name, steps.foldl foldStep (.normal x :: stack) = .normal name :: below ∧
      steps.foldl foldStep (.normal ('_' :: x) :: stack') = .normal ('_' :: name) :: below) ↔
        foldComponents steps = [] ∧ stack = stack' := by
  obtain ⟨names, ups, hfold⟩ := exists_foldl_foldStep steps hsteps
  have hempty : foldComponents steps = [] ↔ names = [] ∧ ups = 0 := by
    have hups := foldl_foldStep_ups ups 0
    rw [List.replicate_zero] at hups
    rw [foldComponents, List.reverse_eq_nil_iff, hfold, hups]
    simp
  have hne : ∀ name : Text, Component.normal name ≠ .normal ('_' :: name) := by
    intro name heq
    have hlength := congrArg List.length (Component.normal.inj heq)
    simp at hlength
  rw [hempty, hfold, hfold]
  constructor
  · rintro ⟨below, name, hx, hy⟩
    cases names with
    | cons top names =>
      -- The name on top comes from the steps, so it is the same on both stacks.
      exact absurd ((List.cons.inj hx).1.symm.trans (List.cons.inj hy).1) (hne name)
    | nil =>
      cases ups with
      | zero => exact ⟨⟨rfl, rfl⟩, (List.cons.inj hx).2.trans (List.cons.inj hy).2.symm⟩
      | succ ups =>
        -- The first step up takes the name back.
        replace hx : (List.replicate ups .parent).foldl foldStep stack =
          .normal name :: below := hx
        replace hy : (List.replicate ups .parent).foldl foldStep stack' =
          .normal ('_' :: name) :: below := hy
        rcases hstack with rfl | rfl
        · exact absurd (List.cons.inj (hx.symm.trans hy)).1 (hne name)
        · rw [foldl_foldStep_root] at hx
          cases hx
  · rintro ⟨⟨rfl, rfl⟩, rfl⟩
    exact ⟨stack, x, rfl, rfl⟩

/-! ## A path and its partial -/

/-- `q` lies in the directory of `p` and has its name with an underscore in front. -/
structure IsPartialOf (q p : Path) : Prop where
  directory_same : q.directory.same p.directory = true
  fileName_eq : ∃ name, p.fileName? = some name ∧ q.fileName? = some ('_' :: name)

theorem components_of_fileName? {p : Path} {name : Text} (h : p.fileName? = some name) :
    p.components = p.directory.components ++ [.normal name] := by
  have hlast : p.components.getLast? = some (.normal name) := by
    rw [fileName?] at h
    split at h
    · rename_i hlast
      rw [hlast, Option.some.inj h]
    · cases h
  cases hparent : p.parent? with
  | none =>
    rw [components_of_parent?_eq_none hparent] at hlast
    rcases lead_cases p with ⟨_, _, hlead, _⟩ | ⟨_, _, hlead, _⟩ | ⟨_, _, hlead, _⟩
    all_goals
      rw [hlead] at hlast
      cases hlast
  | some up =>
    obtain ⟨step, hstep⟩ := components_of_parent? hparent
    rw [hstep, List.getLast?_concat, Option.some.injEq] at hlast
    rw [directory, hparent, hstep, hlast]
    rfl

theorem isPartialOf_iff {p q : Path} :
    IsPartialOf q p ↔ ∃ steps name, p.components = steps ++ [.normal name] ∧
      q.components = steps ++ [.normal ('_' :: name)] := by
  constructor
  · rintro ⟨hsame, name, hp, hq⟩
    refine ⟨p.directory.components, name, components_of_fileName? hp, ?_⟩
    rw [← same_iff.1 hsame]
    exact components_of_fileName? hq
  · rintro ⟨steps, name, hp, hq⟩
    have hpname : p.fileName? = some name := by rw [fileName?, hp, List.getLast?_concat]
    have hqname : q.fileName? = some ('_' :: name) := by rw [fileName?, hq, List.getLast?_concat]
    have hpsteps := (List.append_inj' (hp.symm.trans (components_of_fileName? hpname)) rfl).1
    have hqsteps := (List.append_inj' (hq.symm.trans (components_of_fileName? hqname)) rfl).1
    exact ⟨same_iff.2 (hqsteps.symm.trans hpsteps), name, hpname, hqname⟩

/-- Of two normal paths, one is the partial of the other when the stacks differ by an underscore
at the top. -/
theorem isPartialOf_normalize_iff {p q : Path} :
    IsPartialOf q.normalize p.normalize ↔ ∃ below name,
      p.components.foldl foldStep [] = .normal name :: below ∧
        q.components.foldl foldStep [] = .normal ('_' :: name) :: below := by
  simp only [isPartialOf_iff, components_normalize, foldComponents, List.reverse_eq_append_iff,
    List.reverse_singleton, List.singleton_append]
  constructor
  · rintro ⟨steps, name, hp, hq⟩
    exact ⟨steps.reverse, name, hp, hq⟩
  · rintro ⟨below, name, hp, hq⟩
    exact ⟨below.reverse, name, by rw [hp, List.reverse_reverse], by
      rw [hq, List.reverse_reverse]⟩

/-! ## Components of joined texts -/

/-- The components of a text that starts with a name. -/
theorem filterMap_split_append {name extension piece : Text} {pieces : List Text}
    (hname : IsName name) (hextension : extension.split '/' = piece :: pieces) :
    (Text.split '/' (name ++ extension)).filterMap ofPiece? =
      .normal (name ++ piece) :: pieces.filterMap ofPiece? := by
  have hpiece : IsName (name ++ piece) :=
    hname.append (Text.notMem_of_mem_split (hextension ▸ List.mem_cons_self))
  rw [Text.split_append_of_notMem hname.one_piece hextension,
    List.filterMap_cons_some hpiece.counts]

/-- A text that starts with a name adds this name and what follows it. -/
theorem components_push_append (p : Path) {name extension piece : Text} {pieces : List Text}
    (hname : IsName name) (hextension : extension.split '/' = piece :: pieces) :
    (p.push (name ++ extension)).components =
      p.components ++ .normal (name ++ piece) :: pieces.filterMap ofPiece? := by
  have hrelative : (Path.mk (name ++ extension)).isAbsolute = false := by
    obtain ⟨c, rest, rfl⟩ := List.exists_cons_of_ne_nil hname.ne_nil
    have hc : c ≠ '/' := fun hc => hname.one_piece (hc ▸ List.mem_cons_self)
    simp [isAbsolute, hc]
  have hsteps := filterMap_split_append hname hextension
  by_cases hp : p.text = []
  · -- The empty path has no component, and a name is no lead.
    obtain ⟨text⟩ := p
    obtain rfl : text = [] := hp
    have hlead : (Path.mk (name ++ extension)).leadComponents = [] := by
      have hdot : name ++ piece ≠ ['.'] := by
        have hpiece : IsName (name ++ piece) :=
          hname.append (Text.notMem_of_mem_split (hextension ▸ List.mem_cons_self))
        intro hdot
        have hidle := hpiece.idle_eq_false
        rw [hdot] at hidle
        cases hidle
      simp [leadComponents, hrelative,
        Text.split_append_of_notMem hname.one_piece hextension, hdot]
    have hempty : (Path.mk []).components = [] := by decide
    rw [push, join, if_neg (by simp [hrelative]), if_pos (by simp), hempty, List.nil_append,
      List.nil_append, components_eq, hlead, hsteps, List.nil_append]
  · rw [push, components_join hp hrelative, hsteps]

/-- Text behind a slash that is not the first character comes behind the text in front of it. -/
theorem components_push_slash (p : Path) {front : Text} (hfront : front ≠ []) (back : Text) :
    (p.push (front ++ '/' :: back)).components =
      (p.push front).components ++ (back.split '/').filterMap ofPiece? := by
  have hpush : p.push (front ++ '/' :: back) = ⟨(p.push front).text ++ '/' :: back⟩ := by
    have habsolute : (Path.mk (front ++ '/' :: back)).isAbsolute =
        (Path.mk front).isAbsolute := by
      obtain ⟨c, rest, rfl⟩ := List.exists_cons_of_ne_nil hfront
      rfl
    rw [push, push, join, join, habsolute]
    split_ifs
    · rfl
    · simp
    · simp
  have hne : (p.push front).text ≠ [] := by
    rw [push, join]
    split_ifs
    · exact hfront
    · simp [hfront]
    · simp
  rw [hpush]
  exact components_append_slash hne back

theorem components_push_nil (p : Path) : (p.push []).components = p.components := by
  by_cases hp : p.text = []
  · obtain ⟨text⟩ := p
    obtain rfl : text = [] := hp
    rfl
  · have hnone : (Text.split '/' []).filterMap ofPiece? = [] := rfl
    rw [push, components_join hp rfl, hnone, List.append_nil]

theorem components_push_absolute (p : Path) (t : Text) :
    (p.push ('/' :: t)).components = .root :: (t.split '/').filterMap ofPiece? := by
  have habsolute : (Path.mk ('/' :: t)).isAbsolute = true := rfl
  have hpush : p.push ('/' :: t) = ⟨'/' :: t⟩ := by
    rw [push, join, if_pos habsolute]
  have hlead : (Path.mk ('/' :: t)).leadComponents = [.root] := rfl
  have hnone : ofPiece? [] = none := rfl
  rw [hpush, components_eq, hlead, Text.split_cons_separator, List.filterMap_cons_none hnone]
  rfl

theorem normalize_eq_root_iff {p : Path} :
    p.normalize = ⟨['/']⟩ ↔ p.components.foldl foldStep [] = [.root] := by
  have hroot : (Path.mk ['/']).components = [.root] := by decide
  have hfold : foldComponents p.components = [.root] ↔ p.components.foldl foldStep [] = [.root] :=
    List.reverse_eq_iff
  rw [← hfold]
  constructor
  · intro h
    rw [← components_normalize, h, hroot]
  · intro h
    rw [normalize, h]
    rfl

end Path

namespace Catalog

open StyleBundle.Path Component

/-! ## The two candidates of an import -/

/-- What stands behind the first slash of the extension leads back to where it starts.  An
extension without a slash is part of the name. -/
def KeepsName (extension : Text) : Prop :=
  foldComponents ((extension.split '/').tail.filterMap ofPiece?) = []

/-- The components of the two candidates, before they are folded.  They come behind one path,
unless the import is a slash and a name. -/
theorem exists_candidates (root : Path) {target extension piece : Text} {pieces : List Text}
    (hname : IsName target.lastPiece) (hextension : extension.split '/' = piece :: pieces) :
    ∃ p q : Path, ∃ front back : List Component,
      plainCandidate root target extension = p.normalize ∧
        partialCandidate root target extension = q.normalize ∧
        p.components = front ++ .normal (target.lastPiece ++ piece) :: pieces.filterMap ofPiece? ∧
        q.components = back ++ .normal ('_' :: (target.lastPiece ++ piece)) ::
          pieces.filterMap ofPiece? ∧
        (target ≠ '/' :: target.lastPiece ∧ front = back ∨
          target = '/' :: target.lastPiece ∧ front = [.root] ∧ back = root.components) := by
  have hunderscored : IsName ('_' :: target.lastPiece) := .cons_underscore hname.one_piece
  by_cases hslash : '/' ∈ target
  · obtain ⟨before, name, rfl, hafter⟩ := Text.exists_last_of_mem hslash
    rw [Text.lastPiece_append before hafter] at hname hunderscored ⊢
    have hpartial : partialCandidate root (before ++ '/' :: name) extension =
        ((root.push before).push (('_' :: name) ++ extension)).normalize := by
      rw [partialCandidate, Text.cutLast?_append before hafter]
    have hback := components_push_append (root.push before) hunderscored hextension
    have hplain : (before ++ '/' :: name) ++ extension =
        before ++ '/' :: (name ++ extension) := by simp
    have hsteps := filterMap_split_append hname hextension
    by_cases hbefore : before = []
    · subst hbefore
      refine ⟨_, _, [.root], (root.push []).components, rfl, hpartial, ?_, hback,
        .inr ⟨rfl, rfl, ?_⟩⟩
      · rw [hplain, List.nil_append, components_push_absolute, hsteps]
        rfl
      · exact components_push_nil root
    · refine ⟨_, _, _, _, rfl, hpartial, ?_, hback, .inl ⟨?_, rfl⟩⟩
      · rw [hplain, components_push_slash root hbefore, hsteps]
      · intro heq
        have hlength := congrArg List.length heq
        simp only [List.length_append, List.length_cons] at hlength
        exact hbefore (List.length_eq_zero_iff.1 (by omega))
  · rw [Text.lastPiece_of_notMem hslash] at hname hunderscored ⊢
    refine ⟨_, root.push (('_' :: target) ++ extension), _, _, rfl, ?_,
      components_push_append root hname hextension,
      components_push_append root hunderscored hextension, .inl ⟨?_, rfl⟩⟩
    · rw [partialCandidate, Text.cutLast?_of_notMem hslash]
    · intro heq
      exact hslash (heq ▸ List.mem_cons_self)

theorem keepsName_of_notMem {extension : Text} (h : '/' ∉ extension) : KeepsName extension := by
  rw [KeepsName, Text.split_of_notMem h]
  rfl

/-- The second candidate of an import that ends in a name is the partial of the first one exactly
when the extension does not lead on to another name, and the directory is the root in case
the import is a slash and a name. -/
theorem partialCandidate_iff (root : Path) (target extension : Text)
    (hempty : target.lastPiece ≠ []) (hdot : target.lastPiece ≠ ['.'])
    (hup : target.lastPiece ≠ ['.', '.']) :
    IsPartialOf (partialCandidate root target extension) (plainCandidate root target extension) ↔
      KeepsName extension ∧ (target = '/' :: target.lastPiece → root.normalize = ⟨['/']⟩) := by
  have hname : IsName target.lastPiece :=
    .of_ne (Text.notMem_slash_lastPiece target) hempty hdot hup
  obtain ⟨piece, pieces, hextension⟩ :=
    List.exists_cons_of_ne_nil (Text.split_ne_nil '/' extension)
  obtain ⟨p, q, front, back, hplain, hpartial, hp, hq, hbases⟩ :=
    exists_candidates root hname hextension
  have hsteps : ∀ step ∈ pieces.filterMap ofPiece?,
      step = .parent ∨ ∃ name, IsName name ∧ step = .normal name := by
    intro step hstep
    obtain ⟨text, htext, hcounts⟩ := List.mem_filterMap.1 hstep
    refine eq_parent_or_isName (p := ⟨extension⟩) (List.mem_filterMap.2 ⟨text, ?_, hcounts⟩)
    rw [hextension]
    exact List.mem_cons_of_mem piece htext
  have hkeeps : KeepsName extension ↔ foldComponents (pieces.filterMap ofPiece?) = [] := by
    rw [KeepsName, hextension, List.tail_cons]
  rw [hplain, hpartial, isPartialOf_normalize_iff, hp, hq, List.foldl_append,
    List.foldl_append, hkeeps]
  rcases hbases with ⟨hother, rfl⟩ | ⟨hslash, rfl, rfl⟩
  · refine (foldl_foldStep_underscore_iff hsteps (.inl rfl)).trans ?_
    simp [hother]
  · refine (foldl_foldStep_underscore_iff hsteps (.inr rfl)).trans ?_
    rw [normalize_eq_root_iff]
    exact and_congr_right fun _ => ⟨fun h _ => h.symm, fun h => (h hslash).symm⟩

/-! ### Imports with steps up, and with a slash in front -/

/-- An import with a step up and pieces that do not count. -/
def windingImport : Text := "../a//./b".toList

theorem winding_partial :
    windingImport.lastPiece = "b".toList ∧
      IsPartialOf (partialCandidate ⟨"lib".toList⟩ windingImport ".scss".toList)
        (plainCandidate ⟨"lib".toList⟩ windingImport ".scss".toList) := by
  have hlast : windingImport.lastPiece = "b".toList := by decide
  refine ⟨hlast, (partialCandidate_iff _ _ _ ?_ ?_ ?_).2 ⟨keepsName_of_notMem (by decide), ?_⟩⟩
  · decide
  · decide
  · decide
  · decide

/-- The file is looked for at the root, but its partial below the directory. -/
theorem slash_misplaced :
    Text.lastPiece "/x".toList = "x".toList ∧
      plainCandidate ⟨"/app".toList⟩ "/x".toList ".scss".toList = ⟨"/x.scss".toList⟩ ∧
      partialCandidate ⟨"/app".toList⟩ "/x".toList ".scss".toList = ⟨"/app/_x.scss".toList⟩ ∧
      ¬ IsPartialOf (partialCandidate ⟨"/app".toList⟩ "/x".toList ".scss".toList)
        (plainCandidate ⟨"/app".toList⟩ "/x".toList ".scss".toList) := by
  refine ⟨by decide, by decide, by decide, fun h => ?_⟩
  have hapart : (partialCandidate ⟨"/app".toList⟩ "/x".toList ".scss".toList).directory.same
      (plainCandidate ⟨"/app".toList⟩ "/x".toList ".scss".toList).directory = false := by decide
  rw [h.directory_same] at hapart
  cases hapart

end Catalog

end StyleBundle
