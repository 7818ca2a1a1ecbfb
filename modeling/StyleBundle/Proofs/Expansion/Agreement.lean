import StyleBundle.Proofs.Expansion.Sufficiency

/-!
# Expansions that agree

Two sources may have different files, as long as they agree on some paths (`Catalog.AgreeOn`).  If
one file expands on both of them, and everything that either expansion uses is among those paths,
then both give the same result (`Catalog.eq_of_fileOutcome`).

A target is looked up in one list of places (`Catalog.candidates`).  A place that comes before the
file which the other source finds is a file on neither of them, or it would have been found there.
-/

namespace StyleBundle

namespace Catalog

variable {settings : Settings} {s₁ s₂ : Source} {seen : Path → Prop} {c : Catalog}

/-! ## Lookups -/

/-- The places where a target is looked up, in their order. -/
def candidates (s : Settings) (target : Text) (directory : Path) : List Path :=
  (s.mappings.flatMap fun m => if m.pattern.accepts target then mappingCandidates s m else []) ++
    (searchRoots s directory).flatMap fun root =>
      (extensionsFor target).flatMap fun extension =>
        [plainCandidate root target extension, partialCandidate root target extension]

/-- A lookup gives the first place that is a file. -/
theorem findFile?_eq_find? (c : Catalog) (target : Text) (directory : Path) :
    c.findFile? target directory =
      (candidates c.settings target directory).find? c.source.isFile := by
  rw [findFile?, findMapped?, search?, candidates, List.find?_append, List.find?_flatMap,
    List.find?_flatMap]
  congr 2
  · funext m
    split_ifs <;> rfl
  · funext root
    rw [List.find?_flatMap]
    rfl

theorem locate_eq_ok_iff {target : Text} {directory p : Path} :
    c.locate target directory = .ok p ↔
    (candidates c.settings (applyAlias c.settings.aliases target) directory).find?
      c.source.isFile = some p := by
  rw [locate, findFile?_eq_find?]
  cases (candidates c.settings (applyAlias c.settings.aliases target) directory).find?
    c.source.isFile with
  | none => simp
  | some found => simp

theorem locate_eq_error_iff {target : Text} {directory : Path} {cause : ResolveError} :
    c.locate target directory = .error cause ↔ cause = .fileNotFound target ∧
      (candidates c.settings (applyAlias c.settings.aliases target) directory).find?
        c.source.isFile = none := by
  rw [locate, findFile?_eq_find?]
  cases (candidates c.settings (applyAlias c.settings.aliases target) directory).find?
    c.source.isFile with
  | none => simp [eq_comm]
  | some found => simp

/-! ## Sources that agree -/

/-- The sources have the same files among the paths, and the same stylesheets in a directory whose
stylesheets are all among the paths. -/
structure AgreeOn (seen : Path → Prop) (s₁ s₂ : Source) : Prop where
  isFile_eq : ∀ p, seen p → s₁.isFile p = s₂.isFile p
  members_eq : ∀ directory, (∀ p ∈ membersByName s₁ directory, seen p) →
    (∀ p ∈ membersByName s₂ directory, seen p) →
    membersByName s₁ directory = membersByName s₂ directory

theorem AgreeOn.locate_eq (h : AgreeOn seen s₁ s₂) {target : Text} {directory q₁ q₂ : Path}
    (h₁ : (Catalog.mk settings s₁).locate target directory = .ok q₁)
    (h₂ : (Catalog.mk settings s₂).locate target directory = .ok q₂) (hq₁ : seen q₁)
    (hq₂ : seen q₂) :
    q₁ = q₂ := by
  have hfind₁ :
      (candidates settings (applyAlias settings.aliases target) directory).find? s₁.isFile =
      some q₁ := locate_eq_ok_iff.1 h₁
  have hfind₂ :
      (candidates settings (applyAlias settings.aliases target) directory).find? s₂.isFile =
      some q₂ := locate_eq_ok_iff.1 h₂
  exact eq_of_find?_eq_some hfind₁ hfind₂ (h.isFile_eq q₁ hq₁) (h.isFile_eq q₂ hq₂)

/-- A directive contributes the same from both sources, if the files that it leads to expand to
the same. -/
theorem AgreeOn.contribution_eq (h : AgreeOn seen s₁ s₂) {child₁ child₂ : Path → Expanded → Prop}
    {directory : Path} {d : Directive} {x₁ x₂ : Contribution}
    (h₁ : (Catalog.mk settings s₁).Contributes child₁ directory d x₁)
    (h₂ : (Catalog.mk settings s₂).Contributes child₂ directory d x₂)
    (hseen₁ : ∀ q ∈ x₁.dependencies, seen q) (hseen₂ : ∀ q ∈ x₂.dependencies, seen q)
    (hchild : ∀ r e₁ e₂, (Catalog.mk settings s₁).LeadsTo directory d r → child₁ r e₁ →
      child₂ r e₂ →
      (∀ q ∈ r :: e₁.dependencies, q ∈ x₁.dependencies) →
      (∀ q ∈ r :: e₂.dependencies, q ∈ x₂.dependencies) → e₁ = e₂) : x₁ = x₂ := by
  cases h₁ with
  | file found₁ e₁ hkind hlocate₁ he₁ =>
    cases h₂ with
    | tree members htree _ =>
      rw [hkind] at htree
      cases htree
    | file found₂ e₂ _ hlocate₂ he₂ =>
      obtain rfl := h.locate_eq hlocate₁ hlocate₂ (hseen₁ found₁ List.mem_cons_self)
        (hseen₂ found₂ List.mem_cons_self)
      rw [hchild found₁ e₁ e₂ ((leadsTo_require hkind).2 hlocate₁) he₁ he₂ (fun q hq => hq)
        fun q hq => hq]
  | tree members₁ hkind hmembers₁ =>
    cases h₂ with
    | file found e hfile _ _ =>
      rw [hkind] at hfile
      cases hfile
    | tree members₂ _ hmembers₂ =>
      have hpaths₁ : ∀ p ∈ membersByName s₁ (treeDirectory d.target directory), seen p := by
        intro p hp
        obtain ⟨m, hm, rfl, _⟩ := exists_right_of_forall₂ hmembers₁ hp
        exact hseen₁ m.1 (List.mem_flatMap.2 ⟨m, hm, List.mem_cons_self⟩)
      have hpaths₂ : ∀ p ∈ membersByName s₂ (treeDirectory d.target directory), seen p := by
        intro p hp
        obtain ⟨m, hm, rfl, _⟩ := exists_right_of_forall₂ hmembers₂ hp
        exact hseen₂ m.1 (List.mem_flatMap.2 ⟨m, hm, List.mem_cons_self⟩)
      have hpaths := h.members_eq _ hpaths₁ hpaths₂
      have hlead : ∀ p ∈ membersByName s₁ (treeDirectory d.target directory),
          (Catalog.mk settings s₁).LeadsTo directory d p := fun p hp =>
        (leadsTo_requireTree hkind).2 (mem_membersByName.1 hp)
      have hmembers : members₁ = members₂ := by
        have hmembers₁' := forall₂_imp_of_mem hmembers₁ fun p m hp _ hm =>
          And.intro (hlead p hp) hm
        refine eq_of_forall₂ hmembers₁' (hpaths ▸ hmembers₂) ?_
        rintro p ⟨_, e₁⟩ ⟨_, e₂⟩ hm₁ hm₂ ⟨hp, rfl, he₁⟩ ⟨rfl, he₂⟩
        rw [hchild _ e₁ e₂ hp he₁ he₂ (fun q hq => List.mem_flatMap.2 ⟨_, hm₁, hq⟩)
          fun q hq => List.mem_flatMap.2 ⟨_, hm₂, hq⟩]
      rw [hmembers]

/-- Two texts are expanded alike, if all that goes into them is among the paths and expands to the
same. -/
theorem AgreeOn.assembled_eq (h : AgreeOn seen s₁ s₂) {child₁ child₂ : Path → Expanded → Prop}
    {text : Text} {directory : Path} {e₁ e₂ : Expanded}
    (h₁ : (Catalog.mk settings s₁).Assembled child₁ text directory e₁)
    (h₂ : (Catalog.mk settings s₂).Assembled child₂ text directory e₂)
    (hseen₁ : ∀ q, q.isIn e₁.dependencies = true → seen q)
    (hseen₂ : ∀ q, q.isIn e₂.dependencies = true → seen q)
    (hchild : ∀ r e₁' e₂', s₁.isFile r = true → child₁ r e₁' → child₂ r e₂' →
      (∀ q ∈ r :: e₁'.dependencies, q.isIn e₁.dependencies = true) →
      (∀ q ∈ r :: e₂'.dependencies, q.isIn e₂.dependencies = true) → e₁' = e₂') : e₁ = e₂ := by
  obtain ⟨contributions₁, hcontributions₁, rfl⟩ := h₁
  obtain ⟨contributions₂, hcontributions₂, rfl⟩ := h₂
  have hin : ∀ (contributions : List Contribution) (x : Contribution), x ∈ contributions →
      ∀ q ∈ x.dependencies, q.isIn (assemble text contributions).dependencies = true :=
    fun contributions x hx q hq =>
      Path.isIn_dedup.2 (Path.isIn_of_mem (List.mem_flatMap.2 ⟨x, hx, hq⟩))
  have hsame : contributions₁ = contributions₂ := by
    refine eq_of_forall₂ hcontributions₁ hcontributions₂ fun d x₁ x₂ hx₁ hx₂ hdx₁ hdx₂ => ?_
    refine h.contribution_eq hdx₁ hdx₂ (fun q hq => hseen₁ q (hin _ x₁ hx₁ q hq))
      (fun q hq => hseen₂ q (hin _ x₂ hx₂ q hq)) ?_
    intro r e₁' e₂' hlead he₁ he₂ hused₁ hused₂
    exact hchild r e₁' e₂' hlead.isFile he₁ he₂ (fun q hq => hin _ x₁ hx₁ q (hused₁ q hq))
      fun q hq => hin _ x₂ hx₂ q (hused₂ q hq)
  rw [hsame]

/-! ## Two expansions -/

/-- What is a dependency of a part is, in some spelling, a dependency of the whole. -/
private theorem isIn_of_forall {paths others : List Path} (h : ∀ q ∈ paths, q.isIn others = true)
    {q : Path} (hq : q.isIn paths = true) : q.isIn others = true := by
  obtain ⟨r, hr, hsame⟩ := Path.isIn_iff.1 hq
  obtain ⟨r', hr', hsame'⟩ := Path.isIn_iff.1 (h r hr)
  exact Path.isIn_iff.2 ⟨r', hr', hsame.trans hsame'⟩

/-- A file that both sources expand expands to the same, if the dependencies on both sides are
among the paths on which the sources agree, and the dependencies on one side have the same texts
on the other. -/
theorem eq_of_fileOutcome (h : AgreeOn seen s₁ s₂) {depth₁ depth₂ : Nat}
    {flight₁ flight₂ : InFlight} {p : Path} {e₁ e₂ : Expanded}
    (h₁ : (Catalog.mk settings s₁).fileOutcome depth₁ flight₁ p = .ok e₁)
    (h₂ : (Catalog.mk settings s₂).fileOutcome depth₂ flight₂ p = .ok e₂)
    (hp : s₁.read p = s₂.read p)
    (hread : ∀ q, s₁.isFile q = true → q.isIn e₁.dependencies = true → s₁.read q = s₂.read q)
    (hseen₁ : ∀ q, q.isIn e₁.dependencies = true → seen q)
    (hseen₂ : ∀ q, q.isIn e₂.dependencies = true → seen q) : e₁ = e₂ := by
  induction depth₁ generalizing depth₂ flight₁ flight₂ p e₁ e₂ with
  | zero => exact absurd h₁ fileOutcome_zero_ne_ok
  | succ depth₁ ih =>
    cases depth₂ with
    | zero => exact absurd h₂ fileOutcome_zero_ne_ok
    | succ depth₂ =>
      obtain ⟨text, htext, _, hassembled₁⟩ := fileOutcome_eq_ok_iff.1 h₁
      obtain ⟨text₂, htext₂, _, hassembled₂⟩ := fileOutcome_eq_ok_iff.1 h₂
      obtain rfl : text₂ = text := Except.ok.inj (htext₂.symm.trans (hp.symm.trans htext))
      refine h.assembled_eq hassembled₁ hassembled₂ hseen₁ hseen₂ ?_
      intro r e₁' e₂' hfile he₁ he₂ hused₁ hused₂
      have hlater₁ := fun q hq => isIn_of_forall (q := q)
        (fun q hq => hused₁ q (List.mem_cons_of_mem r hq)) hq
      have hlater₂ := fun q hq => isIn_of_forall (q := q)
        (fun q hq => hused₂ q (List.mem_cons_of_mem r hq)) hq
      exact ih he₁ he₂ (hread r hfile (hused₁ r List.mem_cons_self))
        (fun q hq hin => hread q hq (hlater₁ q hin)) (fun q hq => hseen₁ q (hlater₁ q hq))
        fun q hq => hseen₂ q (hlater₂ q hq)

end Catalog

end StyleBundle
