import StyleBundle.Proofs.Expansion.Inclusion
import StyleBundle.Proofs.Expansion.Outcome
import StyleBundle.Proofs.Lists
import StyleBundle.Proofs.Path.Dedup

/-!
# What an expansion is assembled from

An expansion of a text succeeds exactly when everything that its directives lead to does.  The
result is then assembled from the contributions of the directives, `require` directives first.  An
expansion that fails does so because of a target that is not found, or because of one of the files
that the directives lead to.

`Catalog.Assembled` states the first fact for any way `child` of expanding the files that the
directives lead to, and `Catalog.outcome_expandDirectives_eq_ok_iff` proves it.
`Catalog.outcome_expandDirectives_eq_error` is the second fact.

The last section puts both together for `Catalog.expandWithin`.
-/

namespace StyleBundle

namespace Catalog

open Expansion

variable {c : Catalog} {flight : InFlight}

/-! ## Contributions -/

/-- What a directive in a file of the directory contributes, when `child` tells what the files
that it leads to expand to. -/
inductive Contributes (c : Catalog) (child : Path → Expanded → Prop) (directory : Path)
    (d : Directive) : Contribution → Prop
  /-- A `require` directive contributes one file. -/
  | file (found : Path) (e : Expanded) (hkind : d.kind = .require)
    (hlocate : c.locate d.target directory = .ok found) (hchild : child found e) :
    Contributes c child directory d (contribute d e.content (found :: e.dependencies))
  /-- A `require_tree` directive contributes its members one after the other. -/
  | tree (members : List (Path × Expanded)) (hkind : d.kind = .requireTree)
    (hmembers : List.Forall₂ (fun p m => m.1 = p ∧ child p m.2)
      (membersByName c.source (treeDirectory d.target directory)) members) :
    Contributes c child directory d
      (contribute d (joinMembers members).content (joinMembers members).dependencies)

/-- The directives in the order in which they are worked out. -/
def inTwoPasses (directives : List Directive) : List Directive :=
  ofKind .require directives ++ ofKind .requireTree directives

/-- The text expands to `e` when its directives are worked out one after the other. -/
def Assembled (c : Catalog) (child : Path → Expanded → Prop) (text : Text) (directory : Path)
    (e : Expanded) : Prop :=
  ∃ contributions,
    List.Forall₂ (c.Contributes child directory) (inTwoPasses (Directive.parse text))
        contributions ∧
      e = assemble text contributions

theorem mem_ofKind {kind : Directive.Kind} {directives : List Directive} {d : Directive} :
    d ∈ ofKind kind directives ↔ d ∈ directives ∧ d.kind = kind := by
  simp [ofKind]

theorem mem_inTwoPasses {directives : List Directive} {d : Directive} :
    d ∈ inTwoPasses directives ↔ d ∈ directives := by
  rw [inTwoPasses, List.mem_append, mem_ofKind, mem_ofKind]
  cases hkind : d.kind <;> simp

/-- Both passes together go through the directives in another order. -/
theorem inTwoPasses_perm (directives : List Directive) :
    (inTwoPasses directives).Perm directives := by
  have hother : ofKind .requireTree directives =
      directives.filter fun d => !decide (d.kind = .require) := by
    apply List.filter_congr
    intro d _
    cases d.kind <;> rfl
  rw [inTwoPasses, hother]
  exact List.filter_append_perm _ _

/-! ## What a result is made of -/

section Parts

variable {child child' : Path → Expanded → Prop} {directory : Path} {text : Text} {d : Directive}
  {x : Contribution} {e : Expanded}

/-- The members of a tree are its paths, each with what it expands to. -/
theorem eq_map_fst_of_members {paths : List Path} {members : List (Path × Expanded)}
    (h : List.Forall₂ (fun p m => m.1 = p ∧ child p m.2) paths members) :
    paths = members.map Prod.fst ∧ ∀ m ∈ members, child m.1 m.2 := by
  constructor
  · rw [← List.forall₂_eq_eq_eq, List.forall₂_map_right_iff]
    exact h.imp fun p m hm => hm.1.symm
  · intro m hm
    obtain ⟨p, _, hp, hchild⟩ := exists_left_of_forall₂ h hm
    rw [hp]
    exact hchild

/-- Every file that the directive leads to is expanded. -/
theorem Contributes.exists_child (h : c.Contributes child directory d x) {r : Path}
    (hr : c.LeadsTo directory d r) : ∃ e, child r e := by
  cases h with
  | file found e hkind hlocate hchild =>
    rw [leadsTo_require hkind, hlocate] at hr
    cases hr
    exact ⟨e, hchild⟩
  | tree members hkind hmembers =>
    have hmem := mem_membersByName.2 ((leadsTo_requireTree hkind).1 hr)
    obtain ⟨m, _, _, hchild⟩ := exists_right_of_forall₂ hmembers hmem
    exact ⟨m.2, hchild⟩

theorem Assembled.exists_child (h : c.Assembled child text directory e) {r : Path}
    (hd : d ∈ Directive.parse text) (hr : c.LeadsTo directory d r) : ∃ e, child r e := by
  obtain ⟨contributions, hcontributions, _⟩ := h
  obtain ⟨x, _, hx⟩ := exists_right_of_forall₂ hcontributions (mem_inTwoPasses.2 hd)
  exact hx.exists_child hr

/-- A text without directives stays as it is. -/
theorem assembled_of_parse_eq_nil (h : Directive.parse text = []) :
    c.Assembled child text directory ⟨text, []⟩ := by
  refine ⟨[], ?_, ?_⟩
  · rw [h]
    exact .nil
  · simp [assemble, Replacement.sorted, Replacement.splice, Replacement.spliceFrom, Path.dedup,
      firstOccurrences]

/-- A text with one directive has in its place what the directive contributes. -/
theorem assembled_of_parse_eq_singleton (h : Directive.parse text = [d])
    (hx : c.Contributes child directory d x)
    (hcontent : Replacement.splice text [x.replacement] = e.content)
    (hdependencies : Path.dedup x.dependencies = e.dependencies) :
    c.Assembled child text directory e := by
  have hpasses : inTwoPasses [d] = [d] := List.perm_singleton.1 (inTwoPasses_perm [d])
  have hsorted : Replacement.sorted [x.replacement] = [x.replacement] :=
    List.mergeSort_singleton _
  refine ⟨[x], ?_, ?_⟩
  · rw [h, hpasses]
    exact .cons hx .nil
  · rw [assemble, List.map_singleton, hsorted, List.flatMap_singleton, hcontent, hdependencies]

/-- A contribution stays one when the files that went into it expand to the same in another
way. -/
theorem Contributes.imp (h : c.Contributes child directory d x)
    (himp : ∀ r e, c.LeadsTo directory d r → child r e →
      (∀ q ∈ r :: e.dependencies, q ∈ x.dependencies) → child' r e) :
    c.Contributes child' directory d x := by
  cases h with
  | file found e hkind hlocate hchild =>
    exact .file found e hkind hlocate
      (himp found e ((leadsTo_require hkind).2 hlocate) hchild fun q hq => hq)
  | tree members hkind hmembers =>
    refine .tree members hkind (forall₂_imp_of_mem hmembers ?_)
    rintro p ⟨_, e⟩ hp hm ⟨rfl, hchild⟩
    refine ⟨rfl, himp _ e ((leadsTo_requireTree hkind).2 (mem_membersByName.1 hp)) hchild ?_⟩
    intro q hq
    exact List.mem_flatMap.2 ⟨_, hm, hq⟩

theorem Assembled.imp (h : c.Assembled child text directory e)
    (himp : ∀ d ∈ Directive.parse text, ∀ r e', c.LeadsTo directory d r → child r e' →
      (∀ q ∈ r :: e'.dependencies, q.isIn e.dependencies = true) → child' r e') :
    c.Assembled child' text directory e := by
  obtain ⟨contributions, hcontributions, rfl⟩ := h
  refine ⟨contributions, forall₂_imp_of_mem hcontributions fun d x hd hx hdx => ?_, rfl⟩
  refine hdx.imp fun r e' hlead hchild hmem => ?_
  refine himp d (mem_inTwoPasses.1 hd) r e' hlead hchild fun q hq => ?_
  exact Path.isIn_dedup.2 (Path.isIn_of_mem (List.mem_flatMap.2 ⟨x, hx, hmem q hq⟩))

end Parts

/-! ## Outcomes of expanding directives -/

section Directives

variable {expand : Path → Expansion Expanded} (hexpand : ∀ p, Framed (expand p))

include hexpand

theorem outcome_expandTreeWith_eq_ok_iff {tree : Text} {directory : Path} {e : Expanded} :
    outcome (c.expandTreeWith expand tree directory) flight = .ok e ↔
      ∃ members, List.Forall₂ (fun p m => m.1 = p ∧ outcome (expand p) flight = .ok m.2)
        (membersByName c.source (treeDirectory tree directory)) members ∧
          e = joinMembers members := by
  have hmember : ∀ (p : Path) (m : Path × Expanded),
      (do let expanded ← outcome (expand p) flight; return (p, expanded)) = .ok m ↔
        m.1 = p ∧ outcome (expand p) flight = .ok m.2 := by
    intro p m
    rw [bind_eq_ok_iff]
    constructor
    · rintro ⟨e, he, h⟩
      cases h
      exact ⟨rfl, he⟩
    · rintro ⟨rfl, he⟩
      exact ⟨m.2, he, rfl⟩
  rw [outcome_expandTreeWith hexpand, bind_eq_ok_iff, treeMembers_eq]
  simp only [mapM_eq_ok_iff, hmember]
  constructor
  · rintro ⟨members, hmembers, h⟩
    cases h
    exact ⟨members, hmembers, rfl⟩
  · rintro ⟨members, hmembers, rfl⟩
    exact ⟨members, hmembers, rfl⟩

private theorem outcome_contributeFile_eq_ok_iff {directory : Path} {d : Directive}
    (hkind : d.kind = .require) {x : Contribution} :
    outcome (c.contributeFile expand directory d) flight = .ok x ↔
      c.Contributes (fun p e => outcome (expand p) flight = .ok e) directory d x := by
  rw [outcome_contributeFile hexpand, bind_eq_ok_iff]
  constructor
  · rintro ⟨found, hfound, h⟩
    obtain ⟨e, he, h⟩ := bind_eq_ok_iff.1 h
    cases h
    exact .file found e hkind hfound he
  · intro h
    cases h with
    | file found e _ hlocate hchild =>
      exact ⟨found, hlocate, bind_eq_ok_iff.2 ⟨e, hchild, rfl⟩⟩
    | tree members htree _ =>
      rw [hkind] at htree
      cases htree

private theorem outcome_contributeTree_eq_ok_iff {directory : Path} {d : Directive}
    (hkind : d.kind = .requireTree) {x : Contribution} :
    outcome (c.contributeTree expand directory d) flight = .ok x ↔
      c.Contributes (fun p e => outcome (expand p) flight = .ok e) directory d x := by
  rw [outcome_contributeTree hexpand, bind_eq_ok_iff]
  simp only [outcome_expandTreeWith_eq_ok_iff hexpand]
  constructor
  · rintro ⟨_, ⟨members, hmembers, rfl⟩, h⟩
    cases h
    exact .tree members hkind hmembers
  · intro h
    cases h with
    | file found e hfile _ _ =>
      rw [hkind] at hfile
      cases hfile
    | tree members _ hmembers => exact ⟨_, ⟨members, hmembers, rfl⟩, rfl⟩

theorem outcome_expandDirectives_eq_ok_iff {text : Text} {directory : Path} {e : Expanded} :
    outcome (c.expandDirectives expand text directory) flight = .ok e ↔
      c.Assembled (fun p e => outcome (expand p) flight = .ok e) text directory e := by
  rw [outcome_expandDirectives hexpand, bind_eq_ok_iff]
  constructor
  · rintro ⟨files, hfiles, h⟩
    obtain ⟨trees, htrees, h⟩ := bind_eq_ok_iff.1 h
    cases h
    refine ⟨files ++ trees, forall₂_append_left_iff.2 ⟨files, trees, ?_, ?_, rfl⟩, rfl⟩
    · refine forall₂_imp_of_mem (mapM_eq_ok_iff.1 hfiles) fun d x hd _ => ?_
      exact (outcome_contributeFile_eq_ok_iff hexpand (mem_ofKind.1 hd).2).1
    · refine forall₂_imp_of_mem (mapM_eq_ok_iff.1 htrees) fun d x hd _ => ?_
      exact (outcome_contributeTree_eq_ok_iff hexpand (mem_ofKind.1 hd).2).1
  · rintro ⟨contributions, hcontributions, rfl⟩
    obtain ⟨files, trees, hfiles, htrees, rfl⟩ := forall₂_append_left_iff.1 hcontributions
    refine ⟨files, mapM_eq_ok_iff.2 ?_, bind_eq_ok_iff.2 ⟨trees, mapM_eq_ok_iff.2 ?_, rfl⟩⟩
    · refine forall₂_imp_of_mem hfiles fun d x hd _ => ?_
      exact (outcome_contributeFile_eq_ok_iff hexpand (mem_ofKind.1 hd).2).2
    · refine forall₂_imp_of_mem htrees fun d x hd _ => ?_
      exact (outcome_contributeTree_eq_ok_iff hexpand (mem_ofKind.1 hd).2).2

private theorem outcome_contributeFile_eq_error {directory : Path} {d : Directive}
    (hkind : d.kind = .require) {cause : ResolveError}
    (h : outcome (c.contributeFile expand directory d) flight = .error cause) :
    c.locate d.target directory = .error cause ∨
      ∃ q, c.LeadsTo directory d q ∧ outcome (expand q) flight = .error cause := by
  rw [outcome_contributeFile hexpand] at h
  rcases bind_eq_error h with hlocate | ⟨found, hfound, h⟩
  · exact .inl hlocate
  · rcases bind_eq_error h with he | ⟨e, _, h⟩
    · exact .inr ⟨found, (leadsTo_require hkind).2 hfound, he⟩
    · cases h

private theorem outcome_contributeTree_eq_error {directory : Path} {d : Directive}
    (hkind : d.kind = .requireTree) {cause : ResolveError}
    (h : outcome (c.contributeTree expand directory d) flight = .error cause) :
    ∃ q, c.LeadsTo directory d q ∧ outcome (expand q) flight = .error cause := by
  rw [outcome_contributeTree hexpand, outcome_expandTreeWith hexpand, treeMembers_eq] at h
  rcases bind_eq_error h with htree | ⟨e, _, h⟩
  · rcases bind_eq_error htree with hmembers | ⟨members, _, h⟩
    · obtain ⟨q, hq, hmember⟩ := exists_of_mapM_eq_error hmembers
      rcases bind_eq_error hmember with he | ⟨e, _, h⟩
      · exact ⟨q, (leadsTo_requireTree hkind).2 (mem_membersByName.1 hq), he⟩
      · cases h
    · cases h
  · cases h

theorem outcome_expandDirectives_eq_error {text : Text} {directory : Path} {cause : ResolveError}
    (h : outcome (c.expandDirectives expand text directory) flight = .error cause) :
    ∃ d ∈ Directive.parse text,
      (d.kind = .require ∧ c.locate d.target directory = .error cause) ∨
        ∃ q, c.LeadsTo directory d q ∧ outcome (expand q) flight = .error cause := by
  rw [outcome_expandDirectives hexpand] at h
  rcases bind_eq_error h with hfiles | ⟨files, _, h⟩
  · obtain ⟨d, hd, hfile⟩ := exists_of_mapM_eq_error hfiles
    obtain ⟨hmem, hkind⟩ := mem_ofKind.1 hd
    refine ⟨d, hmem, ?_⟩
    rcases outcome_contributeFile_eq_error hexpand hkind hfile with hlocate | hchild
    · exact .inl ⟨hkind, hlocate⟩
    · exact .inr hchild
  · rcases bind_eq_error h with htrees | ⟨trees, _, h⟩
    · obtain ⟨d, hd, htree⟩ := exists_of_mapM_eq_error htrees
      obtain ⟨hmem, hkind⟩ := mem_ofKind.1 hd
      exact ⟨d, hmem, .inr (outcome_contributeTree_eq_error hexpand hkind htree)⟩
    · cases h

end Directives

/-! ## Expanding files -/

/-- The outcome of reading a file and expanding it along chains of at most `depth` files. -/
def fileOutcome (c : Catalog) (depth : Nat) (flight : InFlight) (p : Path) :
    Except ResolveError Expanded :=
  outcome (c.expandRead (c.expandWithin depth) p) flight

/-- The paths in flight while the file `p` is being expanded. -/
def entered (flight : InFlight) (p : Path) : InFlight :=
  ⟨p.normalize :: flight.paths⟩

theorem fileOutcome_of_expandFile {p : Path} {e : Expanded} {s s' : Session}
    (h : c.expandFile p s = .ok e s') : c.fileOutcome c.depth s.inFlight p = .ok e :=
  (framed_expandFile c p).outcome_of_ok h

theorem fileOutcome_of_expandFile_error {p : Path} {cause : ResolveError} {s s' : Session}
    (h : c.expandFile p s = .error cause s') :
    c.fileOutcome c.depth s.inFlight p = .error cause :=
  (framed_expandFile c p).outcome_of_error h

theorem exists_expandFile_of_fileOutcome {p : Path} {e : Expanded} {s : Session}
    (h : c.fileOutcome c.depth s.inFlight p = .ok e) : ∃ s', c.expandFile p s = .ok e s' :=
  (framed_expandFile c p).exists_ok h

/-- No text expands where no depth is left. -/
theorem outcome_expandWithin_zero_ne_ok {text : Text} {p : Path} {e : Expanded} :
    outcome (c.expandWithin 0 text p) flight ≠ .ok e := by
  rw [outcome_expandWithin_zero]
  simp

/-- A text expands when its path is not in flight and its directives contribute. -/
theorem outcome_expandWithin_eq_ok_iff {depth : Nat} {text : Text} {p : Path} {e : Expanded} :
    outcome (c.expandWithin (depth + 1) text p) flight = .ok e ↔
      flight.contains p.normalize = false ∧
        c.Assembled (fun q e => c.fileOutcome depth (entered flight p) q = .ok e) text
          p.normalize.directory e := by
  cases hcontains : flight.contains p.normalize with
  | true =>
    rw [outcome_expandWithin_of_contains _ text hcontains]
    simp
  | false =>
    have hframed := framed_expandRead (c := c) (framed_expandWithin c depth)
    rw [outcome_expandWithin_of_not_contains depth text hcontains,
      outcome_expandDirectives_eq_ok_iff hframed]
    simp [fileOutcome, entered]

/-- A file expands when it can be read and its text expands. -/
theorem fileOutcome_eq_ok_iff_expandWithin {depth : Nat} {p : Path} {e : Expanded} :
    c.fileOutcome depth flight p = .ok e ↔
      ∃ text, c.source.read p = .ok text ∧
        outcome (c.expandWithin depth text p) flight = .ok e := by
  rw [fileOutcome, outcome_expandRead (framed_expandWithin c depth)]
  cases c.source.read p with
  | error cause => simp
  | ok text => simp

theorem fileOutcome_zero_ne_ok {p : Path} {e : Expanded} : c.fileOutcome 0 flight p ≠ .ok e := by
  rw [ne_eq, fileOutcome_eq_ok_iff_expandWithin]
  rintro ⟨text, _, h⟩
  exact outcome_expandWithin_zero_ne_ok h

theorem fileOutcome_eq_ok_iff {depth : Nat} {p : Path} {e : Expanded} :
    c.fileOutcome (depth + 1) flight p = .ok e ↔
      ∃ text, c.source.read p = .ok text ∧ flight.contains p.normalize = false ∧
        c.Assembled (fun q e => c.fileOutcome depth (entered flight p) q = .ok e) text
          p.normalize.directory e := by
  simp only [fileOutcome_eq_ok_iff_expandWithin (p := p), outcome_expandWithin_eq_ok_iff]

/-- Why a file does not expand, when `child` tells how the files that it leads to fail. -/
inductive Fails (c : Catalog) (child : Path → ResolveError → Prop) (flight : InFlight)
    (p : Path) :
    ResolveError → Prop
  | unreadable (failure : IoFailure) (hread : c.source.read p = .error failure) :
    Fails c child flight p (.unreadable p failure)
  | circular (text : Text) (hread : c.source.read p = .ok text)
    (hcontains : flight.contains p.normalize = true) :
    Fails c child flight p (.circular p.normalize)
  | notFound (text : Text) (d : Directive) (hread : c.source.read p = .ok text)
    (hd : d ∈ Directive.parse text) (hkind : d.kind = .require)
    (hlocate : c.locate d.target p.normalize.directory = .error (.fileNotFound d.target)) :
    Fails c child flight p (.fileNotFound d.target)
  | child (text : Text) (d : Directive) (r : Path) (cause : ResolveError)
    (hread : c.source.read p = .ok text) (hcontains : flight.contains p.normalize = false)
    (hd : d ∈ Directive.parse text) (hlead : c.LeadsTo p.normalize.directory d r)
    (hchild : child r cause) : Fails c child flight p cause

theorem fails_of_fileOutcome {depth : Nat} {p : Path} {cause : ResolveError}
    (h : c.fileOutcome (depth + 1) flight p = .error cause) :
    c.Fails (fun q cause => c.fileOutcome depth (entered flight p) q = .error cause) flight p
      cause := by
  rw [fileOutcome, outcome_expandRead (framed_expandWithin c _)] at h
  cases hread : c.source.read p with
  | error failure =>
    rw [hread] at h
    cases h
    exact .unreadable failure hread
  | ok text =>
    rw [hread] at h
    cases hcontains : flight.contains p.normalize with
    | true =>
      simp only [outcome_expandWithin_of_contains _ text hcontains] at h
      cases h
      exact .circular text hread hcontains
    | false =>
      have hframed := framed_expandRead (c := c) (framed_expandWithin c depth)
      simp only [outcome_expandWithin_of_not_contains depth text hcontains] at h
      obtain ⟨d, hd, ⟨hkind, hlocate⟩ | ⟨r, hlead, hchild⟩⟩ :=
        outcome_expandDirectives_eq_error hframed h
      · have hcause := locate_eq_error hlocate
        subst hcause
        exact .notFound text d hread hd hkind hlocate
      · exact .child text d r cause hread hcontains hd hlead hchild

end Catalog

end StyleBundle
