import StyleBundle.Proofs.Build.Invalidation

/-!
# A build that stops at a pattern

A build makes its output directory anew before it reads the patterns of the groups
(`BuildPlan.build_of_groupPatterns`).  So a pattern that is wrong stops a build that has removed
the old stylesheets already: of the output directory nothing is left but the two directories that
every build starts with (`Layout.Recreated`).
-/

namespace StyleBundle

open FileTree

namespace Layout

variable {l : Layout} {d d' : Disk} {t t' : FileTree} {place : Location}

/-- The place is one of the directories that every build starts with, or the path of the output
directory leads through it. -/
def Skeleton (l : Layout) (place : Location) : Prop :=
  l.root.LeadsThrough place ∨ place = l.singleDir.place ∨ place = l.groupDir.place

/-- In the output directory there is the skeleton and nothing else. -/
def Bare (l : Layout) (t : FileTree) : Prop :=
  ∀ place, l.root.place <+: place →
    l.Skeleton place ∧ t.node? place = some .directory ∨ ¬ l.Skeleton place ∧ t.node? place = none

/-- The output directory was removed, if it was there, and the skeleton was made. -/
structure Recreated (l : Layout) (t t' : FileTree) : Prop where
  outside : SameOutside l.root t t'
  skeleton : ∀ place, l.Skeleton place → t'.node? place = some .directory
  cleared : t.isDirectory l.root = true → ∀ place, l.root.place <+: place → ¬ l.Skeleton place →
    t'.node? place = none
  kept : t.isDirectory l.root = false → ∀ place, ¬ l.Skeleton place →
    t'.node? place = t.node? place

theorem Recreated.bare (h : l.Recreated t t') (hdir : t.isDirectory l.root = true) :
    l.Bare t' := by
  intro place hin
  by_cases hplace : l.Skeleton place
  · exact .inl ⟨hplace, h.skeleton place hplace⟩
  · exact .inr ⟨hplace, h.cleared hdir place hin hplace⟩

theorem Bare.node?_eq (h : l.Bare t) (h' : l.Bare t') (hin : l.root.place <+: place) :
    t'.node? place = t.node? place := by
  rcases h place hin with ⟨hplace, hnode⟩ | ⟨hplace, hnode⟩
  · rcases h' place hin with ⟨_, hnode'⟩ | ⟨hno, _⟩
    · rw [hnode, hnode']
    · exact absurd hplace hno
  · rcases h' place hin with ⟨hyes, _⟩ | ⟨_, hnode'⟩
    · exact absurd hyes hplace
    · rw [hnode, hnode']

/-- The output directory stays as it is just if there was nothing else in it. -/
theorem Recreated.unchanged_iff (h : l.Recreated t t') (hdir : t.isDirectory l.root = true) :
    (∀ place, l.root.place <+: place → t'.node? place = t.node? place) ↔ l.Bare t := by
  refine ⟨fun hsame place hin => ?_, fun hbare place hin => hbare.node?_eq (h.bare hdir) hin⟩
  rw [← hsame place hin]
  exact h.bare hdir place hin

/-! ## Making the output directory -/

theorem skeleton_root (l : Layout) : l.Skeleton l.root.place :=
  .inl ⟨_, List.prefix_rfl, rfl⟩

/-- Only directories of the skeleton are made. -/
theorem skeleton_of_mem_ancestors {directory p : Path}
    (hdir : directory ∈ [l.singleDir, l.groupDir]) (hp : p ∈ directory.ancestors) :
    l.Skeleton p.place := by
  have hname : ∃ name, directory.components = l.root.components ++ [.normal name] ∧
      (directory = l.singleDir ∨ directory = l.groupDir) := by
    simp only [List.mem_cons, List.not_mem_nil, or_false] at hdir
    rcases hdir with rfl | rfl
    · exact ⟨_, Path.components_push_name l.root (by decide), .inl rfl⟩
    · exact ⟨_, Path.components_push_name l.root (by decide), .inr rfl⟩
  obtain ⟨name, hcomponents, hdirectory⟩ := hname
  have habove := Path.prefix_of_mem_ancestors hp
  rw [hcomponents, List.prefix_concat_iff] at habove
  rcases habove with hsame | habove
  · rw [← hcomponents] at hsame
    rw [Path.place_congr hsame]
    rcases hdirectory with rfl | rfl
    · exact .inr (.inl rfl)
    · exact .inr (.inr rfl)
  · exact .inl ⟨_, habove, rfl⟩

theorem isAbsolute_of_mem (hroot : l.root.isAbsolute = true) {directory : Path}
    (hdir : directory ∈ [l.singleDir, l.groupDir]) : directory.isAbsolute = true := by
  simp only [List.mem_cons, List.not_mem_nil, or_false] at hdir
  rcases hdir with rfl | rfl
  · exact Path.isAbsolute_push hroot _
  · exact Path.isAbsolute_push hroot _

/-- Everywhere else it is only the removal that counts. -/
theorem node?_prepare (hroot : l.root.isAbsolute = true) (hplace : ¬ l.Skeleton place)
    (d : Disk) :
    (stateAfter l.prepare d).tree.node? place =
      (stateAfter (removeDirectory l.root) d.tree).node? place := by
  refine holds_after_prepare (P := fun t => t.node? place =
    (stateAfter (removeDirectory l.root) d.tree).node? place) (fun directory hdir => ?_) rfl
  intro t p hp hne _ _ hsame
  have habs : p.isAbsolute = true :=
    (Path.isAbsolute_of_mem_ancestors hp).trans (isAbsolute_of_mem hroot hdir)
  rw [node?_set hne, if_neg, hsame]
  rintro rfl
  rw [Path.placeOf_eq_place t habs] at hplace
  exact hplace (skeleton_of_mem_ancestors hdir hp)

theorem node?_of_isDirectory {p : Path} (hp : p.isAbsolute = true) (h : t.isDirectory p = true) :
    t.node? p.place = some .directory := by
  obtain ⟨place, hplace, hdir⟩ := isDirectory_iff.1 h
  rw [locate_eq_placeOf hplace, Path.placeOf_eq_place t hp] at hdir
  exact eq_of_beq hdir

theorem node?_of_skeleton (hroot : l.root.isAbsolute = true) (h : l.prepare d = .ok () d')
    (hplace : l.Skeleton place) : d'.tree.node? place = some .directory := by
  obtain ⟨_, d₁, _, h⟩ := exists_of_bind_ok h
  obtain ⟨_, d₂, hsingle, hgroup⟩ := exists_of_bind_ok h
  have hgroupDir := isDirectory_of_onFiles (Path.isAbsolute_push hroot _) hgroup
  rcases hplace with hthrough | rfl | rfl
  · obtain ⟨_, hlocate, _⟩ := isDirectory_iff.1 hgroupDir
    exact eq_of_beq (isDirectoryAt_of_leadsThrough hroot
      (Path.components_push_name l.root (by decide)) (by simp) hlocate hthrough)
  · -- The directory of groups is made later, at a free place.
    have hthere := node?_of_isDirectory (Path.isAbsolute_push hroot _)
      (isDirectory_of_onFiles (Path.isAbsolute_push hroot _) hsingle)
    exact (Building.keeps_onFiles (P := fun d => d.tree.node? _ = _)
      (fun _ => keeps_makeDirectories (growthInvariant_node? _ _ _)) _).of_ok hthere hgroup
  · exact node?_of_isDirectory (Path.isAbsolute_push hroot _) hgroupDir

theorem recreated_of_prepare (hroot : l.root.isAbsolute = true) (h : l.prepare d = .ok () d') :
    l.Recreated d.tree d'.tree := by
  have hafter := stateAfter_of_ok h
  refine ⟨hafter ▸ l.sameOutside_prepare hroot d, fun place => node?_of_skeleton hroot h, ?_, ?_⟩
  · intro hdir place hin hplace
    have hne : place ≠ l.root.place := fun heq => hplace (heq ▸ l.skeleton_root)
    rw [← hafter, node?_prepare hroot hplace]
    -- The directory itself may have stayed, emptied, but it is part of the skeleton.
    rcases removeDirectory_cases d.tree l.root with ⟨_, hno⟩ | ⟨root, hlocate, _, hremoved⟩
    · rw [hdir] at hno
      cases hno
    · rw [locate_eq_placeOf hlocate, Path.placeOf_eq_place _ hroot] at hremoved
      rcases hremoved with hremoved | ⟨hroot', hremoved⟩
      · rw [hremoved, node?_emptied, if_neg (by simp [hne, hin])]
      · rw [hremoved, node?_erased _ hroot', if_pos hin]
  · intro hdir place hplace
    rw [← hafter, node?_prepare hroot hplace]
    rcases removeDirectory_cases d.tree l.root with ⟨hsame, _⟩ | ⟨root, hlocate, hroot', _⟩
    · rw [hsame]
    · rw [isDirectory_iff.2 ⟨root, hlocate, hroot'⟩] at hdir
      cases hdir

theorem exists_of_onFiles_error {e : BuildError} {p : Path} {step : FileTree.Action Unit}
    (h : Building.onFiles p step d = .error e d') : ∃ cause, e = .write p cause := by
  rw [Building.onFiles] at h
  split at h
  · cases h
  · rename_i cause _ _
    cases h
    exact ⟨cause, rfl⟩

theorem exists_of_prepare_error {e : BuildError} (h : l.prepare d = .error e d') :
    ∃ p cause, e = .write p cause := by
  rcases cases_of_bind_error h with h | ⟨_, _, _, h⟩
  · exact ⟨_, exists_of_onFiles_error h⟩
  · rcases cases_of_bind_error h with h | ⟨_, _, _, h⟩
    · exact ⟨_, exists_of_onFiles_error h⟩
    · exact ⟨_, exists_of_onFiles_error h⟩

end Layout

/-! ## Patterns that are wrong -/

namespace Glob

/-- The pattern can be read. -/
def Compiles (pattern : Text) : Prop :=
  ∃ read, tokens pattern = .ok read

end Glob

theorem GroupPatterns.errorOf?_compile (patterns : List Text) :
    errorOf? (compile patterns) =
      patterns.findSome? fun pattern =>
        (errorOf? (Glob.tokens pattern)).map (.pattern pattern) := by
  rw [compile]
  refine (errorOf?_bind_ok _ _).trans ?_
  rw [errorOf?_mapM]
  congr 1
  funext pattern
  cases Glob.tokens pattern <;> rfl

namespace BuildPlan

variable {tree : FileTree} {env : Environment} {path : Option Path} {overrides : Option Overrides}
  {c : Config} {run : Sass.Runner} {scratch : Path} {b : BuildPlan} {d d' : Disk} {source : Text}
  {cause : Glob.PatternError}

/-- The patterns of all groups, in the order of the configuration. -/
def patterns (b : BuildPlan) : List Text :=
  b.groups.flatMap EntryGroup.patterns

/-- The first pattern that is wrong is the one that is reported. -/
theorem errorOf?_groupPatterns (b : BuildPlan) :
    errorOf? b.groupPatterns =
      b.patterns.findSome? fun pattern =>
        (errorOf? (Glob.tokens pattern)).map (.pattern pattern) := by
  rw [groupPatterns, errorOf?_mapM, patterns]
  induction b.groups with
  | nil => rfl
  | cons group groups ih =>
    rw [List.findSome?_cons, List.flatMap_cons, List.findSome?_append, ih,
      GroupPatterns.errorOf?_compile]
    cases group.patterns.findSome? _ <;> rfl

theorem exists_split_of_groupPatterns (h : b.groupPatterns = .error (.pattern source cause)) :
    ∃ front rest, b.patterns = front ++ source :: rest ∧
    (∀ pattern ∈ front, Glob.Compiles pattern) ∧
      Glob.tokens source = .error cause := by
  rw [← errorOf?_eq_some_iff, errorOf?_groupPatterns, List.findSome?_eq_some_iff] at h
  obtain ⟨front, pattern, rest, hpatterns, hpattern, hfront⟩ := h
  obtain ⟨_, htokens, heq⟩ := Option.map_eq_some_iff.1 hpattern
  cases heq
  refine ⟨front, rest, hpatterns, fun pattern hmem => ?_, errorOf?_eq_some_iff.1 htokens⟩
  exact errorOf?_eq_none_iff.1 (Option.map_eq_none_iff.1 (hfront pattern hmem))

theorem exists_error_of_not_compiles (h : ∃ pattern ∈ b.patterns, ¬ Glob.Compiles pattern) :
    ∃ e, b.groupPatterns = .error e := by
  obtain ⟨pattern, hmem, hnot⟩ := h
  have hsome : (b.patterns.findSome? fun pattern =>
      (errorOf? (Glob.tokens pattern)).map (BuildError.pattern pattern)).isSome := by
    rw [List.findSome?_isSome_iff]
    refine ⟨pattern, hmem, ?_⟩
    rw [Option.isSome_map, ← Option.ne_none_iff_isSome]
    exact fun hnone => hnot (errorOf?_eq_none_iff.1 hnone)
  rw [← errorOf?_groupPatterns] at hsome
  obtain ⟨e, he⟩ := Option.isSome_iff_exists.1 hsome
  exact ⟨e, errorOf?_eq_some_iff.1 he⟩

/-- Patterns are read after the output directory is made. -/
theorem build_of_groupPatterns {e : BuildError} (h : b.groupPatterns = .error e)
    (hprepare : b.layout.prepare d.clearCache = .ok () d') : b.build d = .error e d' := by
  have hclear : clearCache d = .ok () d.clearCache := rfl
  have hask : asking (fun _ => b.groupPatterns) d' = .error e d' := by rw [asking, h]
  rw [build, bind_of_ok hclear, bind_of_ok hprepare, bind_of_error hask]

/-- A pattern error comes after the output directory is made, because making it gives other
errors. -/
theorem prepare_of_build {e : BuildError} (hpatterns : b.groupPatterns = .error e)
    (h : b.build d = .error (.pattern source cause) d') :
    b.layout.prepare d.clearCache = .ok () d' ∧ e = .pattern source cause := by
  cases hprepare : b.layout.prepare d.clearCache with
  | ok _ between =>
    rw [build_of_groupPatterns hpatterns hprepare] at h
    cases h
    exact ⟨rfl, rfl⟩
  | error e' between =>
    have hclear : clearCache d = .ok () d.clearCache := rfl
    rw [build, bind_of_ok hclear, bind_of_error hprepare] at h
    cases h
    obtain ⟨_, _, heq⟩ := Layout.exists_of_prepare_error hprepare
    cases heq

/-- The output directory of an accepted configuration is made anew by every build.  A build that
stops because a pattern of a group is wrong has done that already: it reports the first wrong
pattern, and it leaves an output directory with nothing in it but the directories that every build
starts with.  The old output stays only if there was nothing else. -/
theorem recreated_of_pattern_error (hload : Config.load tree env path overrides = .ok c)
    (hplan : ofConfig c run scratch = .ok b)
    (hbroken : ∃ pattern ∈ b.patterns, ¬ Glob.Compiles pattern)
    (h : b.build d = .error (.pattern source cause) d') :
    (∃ front rest, b.patterns = front ++ source :: rest ∧
      (∀ pattern ∈ front, Glob.Compiles pattern) ∧ Glob.tokens source = .error cause) ∧
    b.layout.Recreated d.tree d'.tree ∧
    (d.tree.isDirectory b.layout.root = true →
      ((∀ place, b.layout.root.place <+: place → d'.tree.node? place = d.tree.node? place) ↔
        b.layout.Bare d.tree)) := by
  obtain ⟨hroot, _⟩ := isAbsolute_of_ofConfig hload hplan
  obtain ⟨e, he⟩ := exists_error_of_not_compiles hbroken
  obtain ⟨hprepare, rfl⟩ := prepare_of_build he h
  have hrecreated := Layout.recreated_of_prepare hroot hprepare
  exact ⟨exists_split_of_groupPatterns he, hrecreated, hrecreated.unchanged_iff⟩

/-! ### An old stylesheet and a wrong pattern -/

/-- A pattern with too many stars. -/
def spoiledPattern : Text := "a***".toList

/-- A configuration with one group, which has this pattern. -/
def spoiledText : Text :=
  ("[project]\noutput_dir = \"o\"\n[compiler]\nbackend = \"passthrough\"\n" ++
    "[entry_groups]\ng = [\"").toList ++ spoiledPattern ++ "\"]\n".toList

/-- Where the output of an earlier build is. -/
def spoiledOld : Location := ["r".toList, "o".toList, "old.css".toList]

/-- A project with the output of an earlier build. -/
def spoiledTree : FileTree where
  entries := [(["r".toList], .directory),
    (["r".toList, Config.fileName], .file (.text spoiledText)),
    (["r".toList, "o".toList], .directory), (spoiledOld, .file (.text ".b".toList))]
  workingDirectory := ["r".toList]

/-- The files when the build stops. -/
def spoiledLeft : FileTree where
  entries := [(["r".toList], .directory),
    (["r".toList, Config.fileName], .file (.text spoiledText)),
    (["r".toList, "o".toList], .directory),
    (["r".toList, "o".toList, "single".toList], .directory),
    (["r".toList, "o".toList, "group".toList], .directory)]
  workingDirectory := ["r".toList]

/-- The plan of the project. -/
def spoiledPlan : BuildPlan :=
  { twinPlan with groups := [⟨"g".toList, [spoiledPattern]⟩] }

private theorem spoiled_load :
    ∃ c, Config.load spoiledTree ⟨[], none⟩ none none = .ok c ∧
      ofConfig c strayRunner ⟨"/t".toList⟩ = .ok spoiledPlan := by
  apply exists_of_sections { twinConfig with groups := spoiledPlan.groups }
  · rfl
  · decide +kernel

private theorem spoiled_build : spoiledPlan.build ⟨spoiledTree, []⟩ =
    .error (.pattern spoiledPattern ⟨3, .tooManyStars⟩) ⟨spoiledLeft, []⟩ :=
  build_of_groupPatterns (by decide) (by decide)

private theorem spoiled_broken : ∃ pattern ∈ spoiledPlan.patterns, ¬ Glob.Compiles pattern := by
  refine ⟨spoiledPattern, by decide, ?_⟩
  rintro ⟨read, hread⟩
  have herror : Glob.tokens spoiledPattern = .error ⟨3, .tooManyStars⟩ := by decide
  rw [herror] at hread
  cases hread

theorem spoiled_recreated :
    ∃ c b d', Config.load spoiledTree ⟨[], none⟩ none none = .ok c ∧
      ofConfig c strayRunner ⟨"/t".toList⟩ = .ok b ∧
      b.build ⟨spoiledTree, []⟩ = .error (.pattern spoiledPattern ⟨3, .tooManyStars⟩) d' ∧
      b.layout.Recreated spoiledTree d'.tree := by
  obtain ⟨c, hload, hplan⟩ := spoiled_load
  obtain ⟨_, hrecreated, _⟩ := recreated_of_pattern_error hload hplan spoiled_broken spoiled_build
  exact ⟨c, _, _, hload, hplan, spoiled_build, hrecreated⟩

/-- The old stylesheet is gone, although nothing was built. -/
theorem spoiled_old_removed :
    ∃ c b d', Config.load spoiledTree ⟨[], none⟩ none none = .ok c ∧
      ofConfig c strayRunner ⟨"/t".toList⟩ = .ok b ∧
      b.build ⟨spoiledTree, []⟩ = .error (.pattern spoiledPattern ⟨3, .tooManyStars⟩) d' ∧
      b.layout.root.place <+: spoiledOld ∧
      spoiledTree.node? spoiledOld = some (.file (.text ".b".toList)) ∧
      d'.tree.node? spoiledOld = none := by
  obtain ⟨c, hload, hplan⟩ := spoiled_load
  exact ⟨c, _, _, hload, hplan, spoiled_build, by decide, by decide, by decide⟩

end BuildPlan

end StyleBundle
