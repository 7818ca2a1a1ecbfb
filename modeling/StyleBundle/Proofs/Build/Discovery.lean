import StyleBundle.Build.Discovery
import StyleBundle.Proofs.Glob.Routes
import StyleBundle.Proofs.Path.Order
import StyleBundle.Proofs.Path.Relative

/-!
# Where entries lie

An entry lies in the directory of the stylesheets or below it, under names that are not hidden,
and the last one ends in `.scss` or `.sass` (`Discovery.exists_entryAt`).  Its path relative to
that directory has exactly these names (`Discovery.EntryAt.isRest_relative`).  No entry is found
twice (`Discovery.pairwise_entries`).
-/

namespace StyleBundle

namespace Discovery

variable {d : Discovery} {tree : FileTree} {groups : List GroupPatterns} {entries : List Path}
  {p : Path} {dirs : List Text} {stem ext : Text}

/-- The path has the components of the directory of the stylesheets, names of directories, and the
name of a stylesheet that is not hidden. -/
structure EntryAt (d : Discovery) (p : Path) (dirs : List Text) (stem ext : Text) : Prop where
  components : p.components = d.stylesDir.components ++ (dirs ++ [stem ++ '.' :: ext]).map .normal
  stem_ne_nil : stem ≠ []
  stem_visible : stem.head? ≠ some '.'
  extension : ext = "scss".toList ∨ ext = "sass".toList

theorem mem_of_mem_dropRepeats {paths : List Path} (h : p ∈ dropRepeats paths) : p ∈ paths := by
  fun_induction dropRepeats paths with
  | case1 q r rest hsame ih =>
    have hmem := ih h
    rw [List.mem_cons] at hmem
    rcases hmem with rfl | hmem
    · simp
    · simp [hmem]
  | case2 q r rest hsame ih =>
    rw [List.mem_cons] at h
    rcases h with rfl | h
    · simp
    · exact List.mem_cons_of_mem _ (ih h)
  | case3 paths hpaths => exact h

theorem mem_of_mem_ordered {paths : List Path} (h : p ∈ ordered paths) : p ∈ paths :=
  List.mem_mergeSort.1 (mem_of_mem_dropRepeats h)

/-- In a list in order, equal paths stand together, so none is left twice. -/
theorem pairwise_dropRepeats {paths : List Path} (h : paths.Pairwise fun p q => p.le q = true) :
    (dropRepeats paths).Pairwise fun p q => p.le q = true ∧ p.components ≠ q.components := by
  fun_induction dropRepeats paths with
  | case1 p q rest hsame ih =>
    apply ih
    rw [List.pairwise_cons] at h ⊢
    exact ⟨fun r hr => h.1 r (List.mem_cons_of_mem _ hr), (List.pairwise_cons.1 h.2).2⟩
  | case2 p q rest hsame ih =>
    rw [List.pairwise_cons] at h
    rw [List.pairwise_cons]
    refine ⟨fun r hr => ?_, ih h.2⟩
    have hmem := mem_of_mem_dropRepeats hr
    refine ⟨h.1 r hmem, fun heq => hsame ?_⟩
    -- What lies between two equal paths is equal to them.
    have hqr : q.le r = true := by
      rcases List.mem_cons.1 hmem with rfl | hmem
      · exact (Path.leComponents_total _ _).elim id id
      · exact (List.pairwise_cons.1 h.2).1 r hmem
    rw [Path.le, ← heq] at hqr
    exact Path.same_iff.2 (Path.leComponents_antisymm (h.1 q List.mem_cons_self) hqr)
  | case3 paths hpaths =>
    rcases paths with _ | ⟨p, _ | ⟨q, rest⟩⟩
    · exact .nil
    · exact List.pairwise_singleton _ _
    · exact absurd rfl (hpaths p q rest)

theorem pairwise_ordered (paths : List Path) :
    (ordered paths).Pairwise fun p q => p.le q = true ∧ p.components ≠ q.components :=
  pairwise_dropRepeats (Path.pairwise_mergeSort_le paths)

@[simp] theorem ordered_nil : ordered [] = [] := by
  simp [ordered, dropRepeats]

@[simp] theorem ordered_singleton (p : Path) : ordered [p] = [p] := by
  simp [ordered, dropRepeats]

theorem pairwise_entries (h : d.entries tree groups = .ok entries) :
    entries.Pairwise fun p q => p.le q = true ∧ p.components ≠ q.components := by
  obtain ⟨found, _, h⟩ := bind_eq_ok_iff.1 h
  cases h
  exact pairwise_ordered _

/-- Paths that look alike from the directory of the stylesheets are the same. -/
theorem components_eq_of_relative (hdir : d.stylesDir.isAbsolute = true) {q : Path}
    (hp : p.isAbsolute = true) (hq : q.isAbsolute = true) (h : d.relative p = d.relative q) :
    p.components = q.components := by
  rw [relative, relative] at h
  cases hstrip : p.stripPrefix? d.stylesDir with
  | none =>
    cases hstrip' : q.stripPrefix? d.stylesDir with
    | none =>
      rw [hstrip, hstrip'] at h
      exact congrArg Path.components h
    | some r =>
      have hrelative := (Path.components_of_stripPrefix? hdir hq hstrip').1
      rw [hstrip, hstrip', Option.getD_none, Option.getD_some] at h
      rw [← h, hp] at hrelative
      cases hrelative
  | some r =>
    obtain ⟨hrelative, hcomponents⟩ := Path.components_of_stripPrefix? hdir hp hstrip
    cases hstrip' : q.stripPrefix? d.stylesDir with
    | none =>
      rw [hstrip, hstrip', Option.getD_none, Option.getD_some] at h
      rw [h, hq] at hrelative
      cases hrelative
    | some r' =>
      rw [hstrip, hstrip', Option.getD_some, Option.getD_some] at h
      rw [hcomponents, h, (Path.components_of_stripPrefix? hdir hq hstrip').2]

theorem exists_find_of_mem_findAll {patterns : List Text} {found : List Path}
    (h : d.findAll tree patterns = .ok found) (hp : p ∈ found) :
    ∃ pattern ∈ patterns, ∃ paths, d.find tree pattern = .ok paths ∧ p ∈ paths := by
  obtain ⟨lists, hlists, h⟩ := bind_eq_ok_iff.1 h
  cases h
  obtain ⟨paths, hpaths, hp⟩ := List.mem_flatten.1 hp
  obtain ⟨pattern, hpattern, hfind⟩ := exists_left_of_forall₂ (mapM_eq_ok_iff.1 hlists) hpaths
  exact ⟨pattern, hpattern, paths, hfind, hp⟩

/-- What a pattern for all stylesheets finds. -/
theorem exists_entryAt_of_find (hnamed : tree.WellNamed) (hdir : d.stylesDir.isAbsolute = true)
    (hback : '\\' ∉ d.stylesDir.text) {paths : List Path}
    (hext : ext = "scss".toList ∨ ext = "sass".toList)
    (h : d.find tree ("**/*.".toList ++ ext) = .ok paths) (hp : p ∈ paths) :
    ∃ dirs stem, d.EntryAt p dirs stem ext := by
  rw [find, Path.display, Text.slashed_of_notMem hback] at h
  split at h
  · rename_i found hfound
    cases h
    have hslash : '/' ∉ '.' :: ext := by rcases hext with rfl | rfl <;> decide
    have htokens : Glob.tokens ('*' :: '.' :: ext) =
        .ok (.sequence :: ('.' :: ext).map Glob.spelled) := by
      rcases hext with rfl | rfl <;> rfl
    obtain ⟨dirs, stem, hnames, hcomponents⟩ :=
      Glob.exists_names_of_mem_find hnamed hdir hslash htokens hfound hp
    have hvisible := (hnames (stem ++ '.' :: ext) (by simp)).2
    refine ⟨dirs, stem, hcomponents, ?_, ?_, hext⟩
    · rintro rfl
      exact hvisible rfl
    · cases stem with
      | nil => simp
      | cons c rest => simpa using hvisible
  · cases h

theorem exists_entryAt (hnamed : tree.WellNamed) (hdir : d.stylesDir.isAbsolute = true)
    (hback : '\\' ∉ d.stylesDir.text) (h : d.entries tree groups = .ok entries)
    (hp : p ∈ entries) :
    ∃ dirs stem ext, d.EntryAt p dirs stem ext := by
  obtain ⟨found, hfound, h⟩ := bind_eq_ok_iff.1 h
  cases h
  obtain ⟨pattern, hpattern, paths, hfind, hp⟩ :=
    exists_find_of_mem_findAll hfound (List.mem_of_mem_filter (mem_of_mem_ordered hp))
  have hcases : pattern = "**/*.".toList ++ "scss".toList ∨
      pattern = "**/*.".toList ++ "sass".toList := by
    simpa [entryPatterns] using hpattern
  rcases hcases with rfl | rfl
  · obtain ⟨dirs, stem, hentry⟩ := exists_entryAt_of_find hnamed hdir hback (.inl rfl) hfind hp
    exact ⟨dirs, stem, _, hentry⟩
  · obtain ⟨dirs, stem, hentry⟩ := exists_entryAt_of_find hnamed hdir hback (.inr rfl) hfind hp
    exact ⟨dirs, stem, _, hentry⟩

/-- Seen from the directory of the stylesheets, only the names are left. -/
theorem EntryAt.isRest_relative (h : d.EntryAt p dirs stem ext)
    (hdir : d.stylesDir.isAbsolute = true) :
    Path.IsRest (d.relative p) (dirs ++ [stem ++ '.' :: ext]) := by
  obtain ⟨r, hr, hrest⟩ := Path.exists_stripPrefix? hdir h.components (by simp)
  rw [relative, hr]
  exact hrest

end Discovery

end StyleBundle
