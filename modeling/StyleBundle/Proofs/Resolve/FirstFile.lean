import StyleBundle.Proofs.Expansion.Agreement
import StyleBundle.Proofs.Path.Extension
import StyleBundle.Proofs.Resolve.Settings

/-!
# The first file among the places of an import

`Settings.Draft.places` lists all places where an import may be, straight from a draft: first
those of the mappings, then those of the search.  `Settings.Replaces` is the import with its alias
replaced.

With the settings that are built from the draft, looking up an import gives the first of its
places that is a file, and fails when none is (`Catalog.locate_iff_first`).
-/

namespace StyleBundle

namespace Path

private theorem findSome?_foldl_keep {α : Type} (f : Path → Option α) {paths kept : List Path}
    (hkept : ∀ p ∈ kept, p.normalize = p) (hpaths : ∀ p ∈ paths, p.normalize = p) :
    (paths.foldl keep kept).reverse.findSome? f = (kept.reverse ++ paths).findSome? f := by
  induction paths generalizing kept with
  | nil => rw [List.foldl_nil, List.append_nil]
  | cons q paths ih =>
    obtain ⟨hqnormal, hrest⟩ := List.forall_mem_cons.1 hpaths
    rw [List.foldl_cons]
    cases hq : q.isIn kept with
    | true =>
      -- The path was kept before, so it is not reached or it finds nothing.
      obtain ⟨r, hr, hqr⟩ := isIn_iff.1 hq
      have hmem : q ∈ kept := by
        rwa [eq_of_same_normalize hqnormal (hkept r hr) (same_iff.2 hqr)]
      rw [keep_of_isIn hq, ih hkept hrest, List.findSome?_append, List.findSome?_append,
        List.findSome?_cons]
      cases hfound : kept.reverse.findSome? f with
      | some a => rfl
      | none => rw [List.findSome?_eq_none_iff.1 hfound q (List.mem_reverse.2 hmem)]
    | false =>
      rw [keep_of_not_isIn hq, ih (List.forall_mem_cons.2 ⟨hqnormal, hkept⟩) hrest,
        List.reverse_cons, List.append_assoc, List.singleton_append]

/-- A search among normal paths finds the same without the repetitions. -/
theorem findSome?_dedup {α : Type} {paths : List Path} (hpaths : ∀ p ∈ paths, p.normalize = p)
    (f : Path → Option α) : (dedup paths).findSome? f = paths.findSome? f :=
  findSome?_foldl_keep f (fun _ h => absurd h List.not_mem_nil) hpaths

theorem find?_dedup {paths : List Path} (hpaths : ∀ p ∈ paths, p.normalize = p)
    (f : Path → Bool) :
    (dedup paths).find? f = paths.find? f := by
  rw [List.find?_eq_findSome?_guard, findSome?_dedup hpaths, ← List.find?_eq_findSome?_guard]

end Path

namespace Settings

/-! ## The places of an import -/

/-- The import with an alias replaced, the first one of the list that starts the import. -/
inductive Replaces (aliases : List (Text × Text)) (target : Text) : Text → Prop
  /-- No alias starts the import. -/
  | kept (h : ∀ a ∈ aliases, ¬ a.1 <+: target) : Replaces aliases target target
  /-- The replacement comes before the rest of the import. -/
  | replaced (before after : List (Text × Text)) (lead replacement rest : Text)
      (haliases : aliases = before ++ (lead, replacement) :: after)
      (hbefore : ∀ a ∈ before, ¬ a.1 <+: target) (htarget : target = lead ++ rest) :
    Replaces aliases target (replacement ++ rest)

/-- What may follow an import.  An import with a dot is complete. -/
def endings (target : Text) : List Text :=
  if '.' ∈ target then [[]] else [".scss".toList, ".sass".toList, ".css".toList]

/-- The place of an import below a directory, with an underscore in front of the piece behind the
last slash. -/
def underscored (base : Path) (target ending : Text) : Path :=
  let pieces := target.split '/'
  let name : Path := ⟨'_' :: pieces.getLastD [] ++ ending⟩
  if pieces.length = 1 then base.resolveIn name
  else (base.join ⟨Text.joinWith ['/'] pieces.dropLast⟩).resolveIn name

namespace Draft

variable (d : Draft)

/-- The root as it is built. -/
def base : Path :=
  d.root.normalize

/-- The directories searched after the current one. -/
def includes : List Path :=
  d.includePaths.map d.base.resolveIn

/-- The directories searched last. -/
def fallbacks : List Path :=
  d.fallbackDirs.map d.base.resolveIn

/-- The places of one mapping: its target below the root, there with the extension `.scss`, and
with that extension below each include path. -/
def mappingPlaces (target : Text) : List Path :=
  let scss := (Path.mk target).withExtension "scss".toList
  d.base.resolveIn ⟨target⟩ :: d.base.resolveIn scss :: d.includes.map fun p => p.resolveIn scss

/-- The places of the mappings whose pattern the import matches. -/
def mappedPlaces (target : Text) : List Path :=
  d.mappings.flatMap fun m => if (Wildcard.mk m.1).accepts target then d.mappingPlaces m.2 else []

/-- The places where the import is searched from a directory. -/
def searchedPlaces (target : Text) (directory : Path) : List Path :=
  (directory :: d.includes ++ d.fallbacks).flatMap fun base =>
    (endings target).flatMap fun ending =>
      [base.resolveIn ⟨target ++ ending⟩, underscored base target ending]

/-- All places of an import whose alias was replaced. -/
def places (target : Text) (directory : Path) : List Path :=
  d.mappedPlaces target ++ d.searchedPlaces target directory

end Draft

/-! ## The same in terms of settings -/

theorem applyAlias_append {before : List (Text × Text)} {target : Text}
    (h : ∀ a ∈ before, ¬ a.1 <+: target) (after : List Alias) :
    Catalog.applyAlias ((before.map fun a => ⟨a.1, a.2⟩) ++ after) target =
      Catalog.applyAlias after target := by
  induction before with
  | nil => rfl
  | cons a before ih =>
    rw [List.map_cons, List.cons_append, Catalog.applyAlias,
      Text.after?_eq_none_iff.2 (h a List.mem_cons_self)]
    exact ih fun a' ha' => h a' (List.mem_cons_of_mem a ha')

theorem replaces_applyAlias (aliases : List (Text × Text)) (target : Text) :
    Replaces aliases target (Catalog.applyAlias (aliases.map fun a => ⟨a.1, a.2⟩) target) := by
  induction aliases with
  | nil => exact .kept fun _ h => absurd h List.not_mem_nil
  | cons a aliases ih =>
    rw [List.map_cons, Catalog.applyAlias]
    cases hafter : Text.after? a.1 target with
    | some rest =>
      exact .replaced [] aliases a.1 a.2 rest rfl (fun _ h => absurd h List.not_mem_nil)
        (Text.after?_eq_some_iff.1 hafter)
    | none =>
      have ha := Text.after?_eq_none_iff.1 hafter
      generalize Catalog.applyAlias (aliases.map fun a => ⟨a.1, a.2⟩) target = result at ih
      cases ih with
      | kept h => exact .kept (List.forall_mem_cons.2 ⟨ha, h⟩)
      | replaced before after lead replacement rest haliases hbefore htarget =>
        exact .replaced (a :: before) after lead replacement rest
          (by rw [haliases, List.cons_append]) (List.forall_mem_cons.2 ⟨ha, hbefore⟩) htarget

theorem replaces_iff {aliases : List (Text × Text)} {target t : Text} :
    Replaces aliases target t ↔
      t = Catalog.applyAlias (aliases.map fun a => ⟨a.1, a.2⟩) target := by
  constructor
  · rintro (h | ⟨before, after, lead, replacement, rest, rfl, hbefore, rfl⟩)
    · have hnone := applyAlias_append h []
      rw [List.append_nil] at hnone
      exact hnone.symm
    · rw [List.map_append, applyAlias_append hbefore, List.map_cons, Catalog.applyAlias,
        Text.after?_eq_some_iff.2 rfl]
  · rintro rfl
    exact replaces_applyAlias aliases target

theorem underscored_eq (base : Path) (target ending : Text) :
    underscored base target ending = Catalog.partialCandidate base target ending := by
  by_cases hslash : '/' ∈ target
  · obtain ⟨before, after, rfl, hafter⟩ := Text.exists_last_of_mem hslash
    have hpieces : Text.split '/' (before ++ '/' :: after) = Text.split '/' before ++
        [after] := by
      rw [Text.split_append_separator, Text.split_of_notMem hafter]
    have hlength : (Text.split '/' before ++ [after]).length ≠ 1 := by
      have hne := List.length_pos_iff.2 (Text.split_ne_nil '/' before)
      rw [List.length_append, List.length_singleton]
      omega
    rw [underscored, Catalog.partialCandidate, hpieces, Text.cutLast?_append before hafter]
    simp only [if_neg hlength, List.dropLast_concat, Text.joinWith_split]
    rw [List.getLastD_concat]
    rfl
  · rw [underscored, Catalog.partialCandidate, Text.split_of_notMem hslash,
      Text.cutLast?_of_notMem hslash]
    rfl

theorem endings_eq (target : Text) : endings target = Catalog.extensionsFor target := by
  rw [endings, Catalog.extensionsFor]
  simp only [List.contains_iff_mem]
  rfl

end Settings

namespace Catalog

open Settings

variable {d : Draft} {s : Settings}

theorem normalize_of_mem_includes {p : Path} (h : p ∈ d.includes) : p.normalize = p := by
  obtain ⟨raw, _, rfl⟩ := List.mem_map.1 h
  exact Path.normalize_normalize _

theorem find?_mappingCandidates (h : d.Yields s) (m : Text × Text) (f : Path → Bool) :
    (mappingCandidates s ⟨⟨m.1⟩, m.2⟩).find? f = (d.mappingPlaces m.2).find? f := by
  have hincludes : s.includePaths = Path.dedup d.includes := h.includePaths_eq
  have hroot : s.root = d.base := h.root_eq
  rw [mappingCandidates, Draft.mappingPlaces, hincludes, hroot]
  simp only [List.find?_cons, List.find?_map]
  rw [Path.find?_dedup fun _ => normalize_of_mem_includes]

/-- The places of a draft are the candidates of its settings, up to include paths that are there
twice. -/
theorem find?_candidates (h : d.Yields s) (target : Text) (directory : Path) (f : Path → Bool) :
    (candidates s target directory).find? f = (d.places target directory).find? f := by
  have hincludes : s.includePaths = Path.dedup d.includes := h.includePaths_eq
  have hfallbacks : s.fallbackDirs = d.fallbacks := h.fallbackDirs_eq
  rw [candidates, Draft.places, List.find?_append, List.find?_append]
  congr 1
  · rw [h.mappings_eq, List.flatMap_map, Draft.mappedPlaces, List.find?_flatMap,
      List.find?_flatMap]
    congr 1
    funext m
    split_ifs
    · exact find?_mappingCandidates h m f
    · rfl
  · rw [searchRoots, Draft.searchedPlaces, hincludes, hfallbacks, List.find?_flatMap,
      List.find?_flatMap]
    simp only [List.cons_append, List.findSome?_cons, List.findSome?_append,
      Path.findSome?_dedup fun _ => normalize_of_mem_includes, ← endings_eq, underscored_eq]
    rfl

/-! ## Lookups -/

/-- Looking up an import replaces the first declared alias that starts it, and then gives the
first of its places that is a file.  The lookup fails when there is none, and names the import as
it was written. -/
theorem locate_iff_first (d : Draft) (s : Settings) (hbuild : d.build = .ok s) (source : Source)
    (target : Text) (directory : Path) :
    ∃ substituted, (∀ t, Replaces d.aliases target t ↔ t = substituted) ∧
      (∀ p, (Catalog.mk s source).locate target directory = .ok p ↔
        ∃ before after, d.places substituted directory = before ++ p :: after ∧
          source.isFile p = true ∧ ∀ q ∈ before, source.isFile q = false) ∧
      ∀ cause, (Catalog.mk s source).locate target directory = .error cause ↔
        cause = .fileNotFound target ∧ ∀ p ∈ d.places substituted directory,
          source.isFile p = false := by
  have hyields := Draft.yields_of_build hbuild
  refine ⟨applyAlias s.aliases target, fun t => ?_, fun p => ?_, fun cause => ?_⟩
  · rw [replaces_iff, hyields.aliases_eq]
  · rw [locate_eq_ok_iff, find?_candidates hyields, List.find?_eq_some_iff_append]
    constructor
    · rintro ⟨hfile, before, after, hplaces, hbefore⟩
      exact ⟨before, after, hplaces, hfile, by simpa using hbefore⟩
    · rintro ⟨before, after, hplaces, hfile, hbefore⟩
      exact ⟨hfile, before, after, hplaces, by simpa using hbefore⟩
  · rw [locate_eq_error_iff, find?_candidates hyields, List.find?_eq_none]
    simp only [Bool.not_eq_true]

/-! ### An alias, a mapping without its file, and an include path that is there twice -/

/-- Settings with two aliases and a mapping, and with a directory that is named twice. -/
def shopDraft : Draft where
  root := ⟨"/shop/.".toList⟩
  includePaths := [⟨"lib".toList⟩, ⟨"/shop/lib".toList⟩, ⟨"theme".toList⟩]
  fallbackDirs := []
  aliases := [("~".toList, "ui/".toList), ("~b".toList, "no/".toList)]
  mappings := [("ui/*".toList, "gone/x.css".toList)]
  ignorePartials := true

/-- What the settings are built to. -/
def shopSettings : Settings where
  root := ⟨"/shop".toList⟩
  includePaths := [⟨"/shop/lib".toList⟩, ⟨"/shop/theme".toList⟩]
  fallbackDirs := []
  aliases := [⟨"~".toList, "ui/".toList⟩, ⟨"~b".toList, "no/".toList⟩]
  mappings := [⟨⟨"ui/*".toList⟩, "gone/x.css".toList⟩]
  ignorePartials := true

/-- The import could be any of these files. -/
def shop : Memory :=
  ((Memory.empty.addFile ⟨"/shop/theme/ui/button.scss".toList⟩ []).addFile
    ⟨"/shop/lib/ui/button.sass".toList⟩ []).addFile ⟨"/shop/lib/ui/_button.scss".toList⟩ []

theorem shop_first :
    shopDraft.build = .ok shopSettings ∧
      (Catalog.mk shopSettings shop.source).locate "~button".toList ⟨"/shop/pages".toList⟩ =
        .ok ⟨"/shop/lib/ui/_button.scss".toList⟩ := by
  have hbuild : shopDraft.build = .ok shopSettings := rfl
  obtain ⟨substituted, hreplaces, hfound, _⟩ := locate_iff_first shopDraft shopSettings hbuild
    shop.source "~button".toList ⟨"/shop/pages".toList⟩
  obtain rfl : "ui/button".toList = substituted := (hreplaces _).1
    (.replaced [] _ "~".toList "ui/".toList "button".toList rfl (by simp) rfl)
  refine ⟨hbuild, (hfound _).2
    ⟨(shopDraft.places "ui/button".toList ⟨"/shop/pages".toList⟩).take 12,
    (shopDraft.places "ui/button".toList ⟨"/shop/pages".toList⟩).drop 13, ?_, ?_, ?_⟩⟩
  · decide +kernel
  · decide +kernel
  · decide +kernel

end Catalog

end StyleBundle
