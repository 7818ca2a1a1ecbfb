import StyleBundle.Proofs.Resolve.FirstFile
import StyleBundle.Source.Memory

/-!
# Aliases and the root

The replacement of an alias is no path below the root.  It is the start of an import, and
that import is mapped and searched like any other.  So the file that it names below the root is
found from everywhere only if the root is among the directories that are searched, or a mapping
leads there (`Settings.Draft.ReachesRoot`).

`Catalog.alias_found_iff_reachesRoot` says that this condition is exact.
-/

namespace StyleBundle

namespace Text

/-- The piece behind the last slash. -/
def lastPiece (t : Text) : Text :=
  (t.split '/').getLastD []

theorem notMem_slash_lastPiece (t : Text) : '/' ∉ t.lastPiece := by
  have hlast : t.lastPiece ∈ t.split '/' := by
    rw [lastPiece, List.getLastD_eq_getLast?, List.getLast?_eq_some_getLast (split_ne_nil _ _)]
    exact List.getLast_mem _
  exact notMem_of_mem_split hlast

theorem lastPiece_append (before : Text) {name : Text} (h : '/' ∉ name) :
    lastPiece (before ++ '/' :: name) = name := by
  rw [lastPiece, split_append_separator, split_of_notMem h, List.getLastD_concat]

theorem lastPiece_of_notMem {t : Text} (h : '/' ∉ t) : t.lastPiece = t := by
  rw [lastPiece, split_of_notMem h]
  rfl

end Text

namespace Path

/-- Names below an absolute directory come behind its normal form. -/
theorem components_resolveIn_names {base q : Path} {names : List Text}
    (hbase : base.isAbsolute = true) (hq : q.isAbsolute = false)
    (hnames : (q.text.split '/').filterMap Component.ofPiece? = names.map .normal) :
    (base.resolveIn q).components = base.normalize.components ++ names.map .normal := by
  rw [resolveIn, components_normalize,
    components_join (text_ne_nil_of_isAbsolute hbase) hq, hnames,
    foldComponents_append_names, components_normalize]

/-- A name below any path is the last component. -/
theorem components_resolveIn_name (base : Path) {name : Text} (h : Component.IsName name) :
    (base.resolveIn ⟨name⟩).components = foldComponents base.components ++ [.normal name] := by
  have hpush : (base.join ⟨name⟩).components = base.components ++ [.normal name] :=
    components_push_name base h
  rw [resolveIn, components_normalize, hpush]
  exact foldComponents_append_names base.components [name]

private theorem filterMap_ofPiece?_of_notMem_dot {pieces : List Text}
    (h : ∀ piece ∈ pieces, '.' ∉ piece) :
    pieces.filterMap Component.ofPiece? = (pieces.filter (· ≠ [])).map .normal := by
  induction pieces with
  | nil => rfl
  | cons piece pieces ih =>
    obtain ⟨hdot, hpieces⟩ := List.forall_mem_cons.1 h
    by_cases hnil : piece = []
    · rw [hnil, List.filterMap_cons_none rfl, ih hpieces]
      rfl
    · have hname : Component.ofPiece? piece = some (.normal piece) := by
        have hidle : Component.idle piece = false := by
          have hone : piece ≠ ['.'] := fun heq => hdot (heq ▸ List.mem_singleton_self '.')
          simp [Component.idle, hnil, hone]
        refine ((Component.ofPiece?_cases hidle).resolve_left fun hup => hdot ?_).2
        rw [hup.1]
        exact List.mem_cons_self
      rw [List.filterMap_cons_some hname, ih hpieces,
        List.filter_cons_of_pos (by simpa using hnil), List.map_cons]

/-- The components of a text without dots are names. -/
theorem exists_names_of_notMem_dot {t : Text} (h : '.' ∉ t) :
    ∃ names : List Text, (t.split '/').filterMap Component.ofPiece? = names.map .normal :=
  ⟨_, filterMap_ofPiece?_of_notMem_dot fun _ hpiece hmem => h (Text.mem_of_mem_split hpiece hmem)⟩

end Path

namespace Settings

/-! ## Imports without a dot -/

variable {target ending : Text}

theorem notMem_slash_of_mem_knownExtensions (h : ending ∈ Catalog.knownExtensions) :
    '/' ∉ ending := by
  revert ending
  decide

theorem isName_append_ending {name : Text} (hname : '/' ∉ name)
    (h : ending ∈ Catalog.knownExtensions) :
    Component.IsName (name ++ ending) := by
  have hlength : ∀ ending ∈ Catalog.knownExtensions, 4 ≤ ending.length := by decide
  have hlong : 4 ≤ (name ++ ending).length := by
    rw [List.length_append]
    exact Nat.le_add_left_of_le (hlength ending h)
  refine .of_ne ?_ ?_ ?_ ?_
  · rw [List.mem_append, not_or]
    exact ⟨hname, notMem_slash_of_mem_knownExtensions h⟩
  all_goals
    intro heq
    rw [heq] at hlong
    simp at hlong

/-- The components of an import without a dot are names, and the ending belongs to the last
one. -/
theorem exists_directories (hdot : '.' ∉ target) : ∃ directories : List Text,
    ∀ ending ∈ Catalog.knownExtensions,
      (Text.split '/' (target ++ ending)).filterMap Component.ofPiece? =
      (directories ++ [target.lastPiece ++ ending]).map .normal := by
  by_cases hslash : '/' ∈ target
  · obtain ⟨before, name, rfl, hname⟩ := Text.exists_last_of_mem hslash
    have hbefore : '.' ∉ before := fun hmem => hdot (List.mem_append_left _ hmem)
    obtain ⟨directories, hdirectories⟩ := Path.exists_names_of_notMem_dot hbefore
    refine ⟨directories, fun ending hending => ?_⟩
    have hpiece := isName_append_ending hname hending
    rw [Text.lastPiece_append before hname, List.append_assoc, List.cons_append,
      Text.split_append_separator,
      Text.split_of_notMem hpiece.one_piece, List.filterMap_append, hdirectories, List.map_append,
      List.filterMap_cons_some hpiece.counts]
    rfl
  · refine ⟨[], fun ending hending => ?_⟩
    have hpiece := isName_append_ending hslash hending
    rw [Text.lastPiece_of_notMem hslash, Text.split_of_notMem hpiece.one_piece,
      List.filterMap_cons_some hpiece.counts]
    rfl

theorem isAbsolute_append_ending (target : Text) (h : ending ∈ Catalog.knownExtensions) :
    (Path.mk (target ++ ending)).isAbsolute = (Path.mk target).isAbsolute := by
  cases target with
  | nil =>
    revert ending
    decide
  | cons c target => rfl

/-- An import without a dot, below an absolute directory. -/
theorem exists_components_resolveIn (htarget : (Path.mk target).isAbsolute = false)
    (hdot : '.' ∉ target) : ∃ directories : List Text, ∀ base : Path, base.isAbsolute = true →
      ∀ ending ∈ Catalog.knownExtensions, (base.resolveIn ⟨target ++ ending⟩).components =
        base.normalize.components ++
          (directories ++ [target.lastPiece ++ ending]).map .normal := by
  obtain ⟨directories, hdirectories⟩ := exists_directories hdot
  refine ⟨directories, fun base hbase ending hending => ?_⟩
  refine Path.components_resolveIn_names hbase ?_ (hdirectories ending hending)
  rw [isAbsolute_append_ending target hending, htarget]

/-- The last component of a place with an underscore. -/
theorem exists_components_underscored (base : Path) (target : Text)
    (h : ending ∈ Catalog.knownExtensions) :
    ∃ steps, (underscored base target ending).components =
      steps ++ [.normal ('_' :: target.lastPiece ++ ending)] := by
  have hname : Component.IsName ('_' :: target.lastPiece ++ ending) := by
    refine isName_append_ending ?_ h
    simpa using Text.notMem_slash_lastPiece target
  rw [underscored]
  split_ifs
  · exact ⟨_, Path.components_resolveIn_name base hname⟩
  · exact ⟨_, Path.components_resolveIn_name _ hname⟩

theorem underscore_append_ne (name : Text) (h : ending ∈ Catalog.knownExtensions) :
    '_' :: name ++ ending ≠ name ++ ".scss".toList := by
  intro heq
  have hlength := congrArg List.length heq
  simp only [Catalog.knownExtensions, List.mem_cons, List.not_mem_nil, or_false] at h
  rcases h with rfl | rfl | rfl
  · simp at hlength
  · simp at hlength
  · -- The names are equally long, and the fourth character from behind is a dot in one of them
    -- only.
    have hsplit : ('_' :: name) ++ ".css".toList = (name ++ ['.']) ++ "scss".toList := by
      simpa using heq
    have hend := (List.append_inj' hsplit rfl).2
    revert hend
    decide

/-! ## The file below the root -/

namespace Draft

/-- The file below the root that an import names is among its places: the import is absolute, or
the root is searched, or a mapping for the import leads to that file. -/
def ReachesRoot (d : Draft) (target : Text) (directory : Path) : Prop :=
  (Path.mk target).isAbsolute = true ∨
    (∃ p ∈ directory :: d.includes ++ d.fallbacks, p.normalize = d.base) ∨
      ∃ m ∈ d.mappings, (Wildcard.mk m.1).accepts target = true ∧
        d.base.resolveIn ⟨target ++ ".scss".toList⟩ ∈ d.mappingPlaces m.2

variable {d : Draft} {directory p : Path}

theorem mem_mappedPlaces : p ∈ d.mappedPlaces target ↔
    ∃ m ∈ d.mappings, (Wildcard.mk m.1).accepts target = true ∧ p ∈ d.mappingPlaces m.2 := by
  simp only [mappedPlaces, List.mem_flatMap, List.mem_ite_nil_right]

theorem mem_searchedPlaces (hdot : '.' ∉ target) : p ∈ d.searchedPlaces target directory ↔
    ∃ base ∈ directory :: d.includes ++ d.fallbacks, ∃ ending ∈ Catalog.knownExtensions,
      p = base.resolveIn ⟨target ++ ending⟩ ∨ p = underscored base target ending := by
  have hendings : endings target = Catalog.knownExtensions := if_neg hdot
  simp only [searchedPlaces, hendings, List.mem_flatMap, List.mem_cons,
    List.not_mem_nil, or_false]

theorem normalize_underscored (base : Path) (target ending : Text) :
    (underscored base target ending).normalize = underscored base target ending := by
  rw [underscored]
  split_ifs
  · exact Path.normalize_normalize _
  · exact Path.normalize_normalize _

theorem normalize_of_mem_mappingPlaces (h : p ∈ d.mappingPlaces target) : p.normalize = p := by
  simp only [mappingPlaces, List.mem_cons, List.mem_map] at h
  rcases h with rfl | rfl | ⟨_, _, rfl⟩
  all_goals exact Path.normalize_normalize _

theorem normalize_of_mem_places (hdot : '.' ∉ target) (h : p ∈ d.places target directory) :
    p.normalize = p := by
  rw [places, List.mem_append, mem_mappedPlaces, mem_searchedPlaces hdot] at h
  rcases h with ⟨_, _, _, hmapped⟩ | ⟨base, _, ending, _, rfl | rfl⟩
  · exact normalize_of_mem_mappingPlaces hmapped
  · exact Path.normalize_normalize _
  · exact normalize_underscored base target ending

/-- A relative import without a dot names the same file below two directories only if these are
the same, and never the same file with an underscore and without. -/
theorem resolveIn_mem_searchedPlaces_iff (hroot : d.base.isAbsolute = true)
    (htarget : (Path.mk target).isAbsolute = false) (hdot : '.' ∉ target) :
    d.base.resolveIn ⟨target ++ ".scss".toList⟩ ∈ d.searchedPlaces target directory ↔
      ∃ p ∈ directory :: d.includes ++ d.fallbacks, p.normalize = d.base := by
  have hscss : ".scss".toList ∈ Catalog.knownExtensions := List.mem_cons_self
  have hnormal : d.base.normalize = d.base := Path.normalize_normalize _
  obtain ⟨directories, hcomponents⟩ := exists_components_resolveIn htarget hdot
  have hfile := hcomponents d.base hroot _ hscss
  rw [mem_searchedPlaces hdot]
  constructor
  · rintro ⟨base, hbase, ending, hending, hplain | hunderscored⟩
    · have hbaseAbsolute : base.isAbsolute = true := by
        have habsolute := Path.isAbsolute_resolveIn hroot ⟨target ++ ".scss".toList⟩
        rw [hplain, Path.resolveIn, Path.isAbsolute_normalize, Path.isAbsolute_join_iff,
          isAbsolute_append_ending target hending, htarget] at habsolute
        simpa using habsolute
      rw [hplain, hcomponents base hbaseAbsolute ending hending] at hfile
      have hsame := (List.append_inj' hfile (by simp)).1
      refine ⟨base, hbase, ?_⟩
      rw [← hnormal]
      exact Path.eq_of_same_normalize (Path.normalize_normalize _) (Path.normalize_normalize _)
        (Path.same_iff.2 hsame)
    · obtain ⟨steps, hsteps⟩ := exists_components_underscored base target hending
      rw [hunderscored, hsteps, List.map_append, ← List.append_assoc] at hfile
      have hlast := (List.append_inj' hfile rfl).2
      rw [List.map_singleton, List.singleton_inj, Component.normal.injEq] at hlast
      exact absurd hlast (underscore_append_ne target.lastPiece hending)
  · rintro ⟨base, hbase, heq⟩
    have hbaseAbsolute : base.isAbsolute = true := by rw [← Path.isAbsolute_normalize, heq, hroot]
    refine ⟨base, hbase, _, hscss, .inl ?_⟩
    refine Path.eq_of_same_normalize (Path.normalize_normalize _) (Path.normalize_normalize _) ?_
    rw [Path.same_iff, hfile, hcomponents base hbaseAbsolute _ hscss, heq, hnormal]

/-- The file below the root is a place of the import exactly when the import reaches the root. -/
theorem mem_places_iff (habs : d.root.isAbsolute = true) (hdot : '.' ∉ target) :
    d.base.resolveIn ⟨target ++ ".scss".toList⟩ ∈ d.places target directory ↔
      d.ReachesRoot target directory := by
  have hscss : ".scss".toList ∈ Catalog.knownExtensions := List.mem_cons_self
  have hroot : d.base.isAbsolute = true := by rwa [base, Path.isAbsolute_normalize]
  rw [places, List.mem_append, mem_mappedPlaces, ReachesRoot]
  cases htarget : (Path.mk target).isAbsolute with
  | true =>
    -- An absolute import is the same place below all directories.
    have habsolute : (Path.mk (target ++ ".scss".toList)).isAbsolute = true := by
      rw [isAbsolute_append_ending target hscss, htarget]
    refine iff_of_true (.inr ?_) (.inl rfl)
    refine (mem_searchedPlaces hdot).2 ⟨directory, List.mem_cons_self, _, hscss, .inl ?_⟩
    rw [Path.resolveIn, Path.resolveIn, Path.join, Path.join, if_pos habsolute, if_pos habsolute]
  | false =>
    rw [resolveIn_mem_searchedPlaces_iff hroot htarget hdot, or_comm]
    simp only [Bool.false_eq_true, false_or]

end Draft

end Settings

/-! ## Looking up an alias -/

/-- A tree in memory with one file. -/
theorem Memory.isFile_source_addFile_empty (p q : Path) (text : Text) :
    (Memory.empty.addFile q text).source.isFile p = p.same q := by
  rw [source]
  cases hup : q.parent? with
  | none => simp [addFile, isFile, hup, empty]
  | some up => simp [addFile, isFile, hup, empty, addDirectory]

namespace Catalog

open Settings

/-- An alias is replaced in an import without a dot.  The file that this names below the root is
found in every source, from the directory, if the import reaches the root.  If it does not, a
source that holds this file alone is one where the lookup fails. -/
theorem alias_found_iff_reachesRoot (d : Draft) (s : Settings) (hbuild : d.build = .ok s)
    (before after : List (Text × Text)) (lead replacement rest : Text)
    (haliases : d.aliases = before ++ (lead, replacement) :: after)
    (hbefore : ∀ a ∈ before, ¬ a.1 <+: lead ++ rest) (hdot : '.' ∉ replacement ++ rest)
    (directory : Path) :
    (d.ReachesRoot (replacement ++ rest) directory → ∀ source : Source,
      source.isFile (s.root.resolveIn ⟨replacement ++ rest ++ ".scss".toList⟩) = true →
        ∃ p, (Catalog.mk s source).locate (lead ++ rest) directory = .ok p) ∧
    (¬ d.ReachesRoot (replacement ++ rest) directory → ∃ m : Memory,
      m.source.isFile (s.root.resolveIn ⟨replacement ++ rest ++ ".scss".toList⟩) = true ∧
        (Catalog.mk s m.source).locate (lead ++ rest) directory =
          .error (.fileNotFound (lead ++ rest))) := by
  have hyields := Draft.yields_of_build hbuild
  have hroot : s.root = d.base := hyields.root_eq
  have hreplaced : applyAlias s.aliases (lead ++ rest) = replacement ++ rest := by
    rw [hyields.aliases_eq]
    exact (replaces_iff.1
      (.replaced before after lead replacement rest haliases hbefore rfl)).symm
  rw [hroot, ← Draft.mem_places_iff hyields.isAbsolute_root hdot]
  constructor
  · intro hplace source hfile
    have hsome : ((d.places (replacement ++ rest) directory).find? source.isFile).isSome = true :=
      List.find?_isSome.2 ⟨_, hplace, hfile⟩
    obtain ⟨p, hp⟩ := Option.isSome_iff_exists.1 hsome
    refine ⟨p, locate_eq_ok_iff.2 ?_⟩
    rw [hreplaced, find?_candidates hyields, hp]
  · intro hplace
    refine ⟨Memory.empty.addFile (d.base.resolveIn ⟨replacement ++ rest ++ ".scss".toList⟩) [],
      ?_, ?_⟩
    · rw [Memory.isFile_source_addFile_empty, Path.same_refl]
    · rw [locate_eq_error_iff, hreplaced, find?_candidates hyields, List.find?_eq_none]
      refine ⟨rfl, fun p hp hfile => hplace ?_⟩
      rw [Memory.isFile_source_addFile_empty] at hfile
      have hnormal := Draft.normalize_of_mem_places hdot hp
      rwa [Path.eq_of_same_normalize hnormal (Path.normalize_normalize _) hfile] at hp

/-! ### An alias whose directory is not searched -/

/-- Settings with an alias for a directory below the root. -/
def kitDraft : Draft where
  root := ⟨"/app".toList⟩
  includePaths := []
  fallbackDirs := []
  aliases := [("~kit".toList, "kit".toList)]
  mappings := []
  ignorePartials := true

/-- What the settings are built to. -/
def kitSettings : Settings where
  root := ⟨"/app".toList⟩
  includePaths := []
  fallbackDirs := []
  aliases := [⟨"~kit".toList, "kit".toList⟩]
  mappings := []
  ignorePartials := true

/-- One file in that directory. -/
def kit : Memory :=
  Memory.empty.addFile ⟨"/app/kit/x.scss".toList⟩ []

/-- From the root the file is found. -/
theorem kit_from_root :
    kitDraft.build = .ok kitSettings ∧
    kitDraft.ReachesRoot "kit/x".toList ⟨"/app/pages/..".toList⟩ ∧
      kit.source.isFile ⟨"/app/kit/x.scss".toList⟩ = true ∧
      ∃ p, (Catalog.mk kitSettings kit.source).locate "~kit/x".toList
        ⟨"/app/pages/..".toList⟩ = .ok p := by
  have hbuild : kitDraft.build = .ok kitSettings := rfl
  have hreaches : kitDraft.ReachesRoot "kit/x".toList ⟨"/app/pages/..".toList⟩ :=
    .inr (.inl ⟨_, List.mem_cons_self, by decide⟩)
  have hfile : kit.source.isFile ⟨"/app/kit/x.scss".toList⟩ = true := by decide
  exact ⟨hbuild, hreaches, hfile, (alias_found_iff_reachesRoot kitDraft kitSettings hbuild [] []
    "~kit".toList "kit".toList "/x".toList rfl (by simp) (by decide) _).1 hreaches
      kit.source hfile⟩

/-- From another directory it is not. -/
theorem kit_from_pages :
    kitDraft.build = .ok kitSettings ∧ kitDraft.aliases = [("~kit".toList, "kit".toList)] ∧
      (Path.mk "kit".toList).isAbsolute = false ∧ '.' ∉ "kit".toList ++ "/x".toList ∧
      kit.source.isFile
        (kitSettings.root.resolveIn ⟨"kit".toList ++ "/x".toList ++ ".scss".toList⟩) = true ∧
      (Catalog.mk kitSettings kit.source).locate ("~kit".toList ++ "/x".toList)
        ⟨"/app/pages".toList⟩ = .error (.fileNotFound ("~kit".toList ++ "/x".toList)) := by
  refine ⟨rfl, rfl, by decide, by decide, by decide, ?_⟩
  rfl

end Catalog

end StyleBundle
