import StyleBundle.Proofs.Lists
import StyleBundle.Proofs.Path.Absolute
import StyleBundle.Proofs.Path.Dedup
import StyleBundle.Resolve.Settings

/-!
# Settings that were built

Settings come from a draft.  Building resolves every directory against the root, which is
absolute, and takes over the aliases and mappings in their order (`Settings.Draft.Yields`).  So
all directories of built settings are absolute (`Settings.Built.isAbsolute`).
-/

namespace StyleBundle

namespace Settings

/-- Settings that a draft was turned into. -/
def Built (s : Settings) : Prop :=
  ∃ d : Draft, d.build = .ok s

/-- What becomes of each part of a draft. -/
structure Draft.Yields (d : Draft) (s : Settings) : Prop where
  isAbsolute_root : d.root.isAbsolute = true
  root_eq : s.root = d.root.normalize
  includePaths_eq : s.includePaths = Path.dedup (d.includePaths.map d.root.normalize.resolveIn)
  fallbackDirs_eq : s.fallbackDirs = d.fallbackDirs.map d.root.normalize.resolveIn
  aliases_eq : s.aliases = d.aliases.map fun a => ⟨a.1, a.2⟩
  mappings_eq : s.mappings = d.mappings.map fun m => ⟨⟨m.1⟩, m.2⟩

theorem Draft.isAbsolute_root_of_build {d : Draft} {s : Settings} (h : d.build = .ok s) :
    d.root.isAbsolute = true := by
  rw [build] at h
  split_ifs at h with habs
  · exact habs
  · cases h

theorem eq_map_of_buildAliases {pairs : List (Text × Text)} {aliases : List Alias}
    (h : buildAliases pairs = .ok aliases) : aliases = pairs.map fun a => ⟨a.1, a.2⟩ := by
  refine eq_map_of_mapM_eq_ok h fun pair built hbuilt => ?_
  simp only at hbuilt
  split_ifs at hbuilt
  cases hbuilt
  rfl

theorem eq_map_of_buildMappings {pairs : List (Text × Text)} {mappings : List Mapping}
    (h : buildMappings pairs = .ok mappings) : mappings = pairs.map fun m => ⟨⟨m.1⟩, m.2⟩ := by
  refine eq_map_of_mapM_eq_ok h fun pair built hbuilt => ?_
  simp only [Wildcard.compile?] at hbuilt
  split_ifs at hbuilt
  cases hbuilt
  rfl

theorem Draft.yields_of_build {d : Draft} {s : Settings} (h : d.build = .ok s) : d.Yields s := by
  have habs := isAbsolute_root_of_build h
  rw [Draft.build] at h
  simp only [habs, if_true] at h
  obtain ⟨aliases, haliases, h⟩ := bind_eq_ok_iff.1 h
  obtain ⟨mappings, hmappings, h⟩ := bind_eq_ok_iff.1 h
  cases h
  exact ⟨habs, rfl, rfl, rfl, eq_map_of_buildAliases haliases, eq_map_of_buildMappings hmappings⟩

theorem Built.isAbsolute {s : Settings} (h : s.Built) {p : Path}
    (hp : p ∈ s.root :: s.includePaths ++ s.fallbackDirs) : p.isAbsolute = true := by
  obtain ⟨d, hbuild⟩ := h
  have hyields := Draft.yields_of_build hbuild
  have hroot : d.root.normalize.isAbsolute = true := by
    rw [Path.isAbsolute_normalize]
    exact hyields.isAbsolute_root
  rw [hyields.root_eq, hyields.includePaths_eq, hyields.fallbackDirs_eq, List.cons_append,
    List.mem_cons, List.mem_append] at hp
  rcases hp with rfl | hp | hp
  · exact hroot
  · obtain ⟨raw, _, rfl⟩ := List.mem_map.1 (Path.mem_of_mem_dedup hp)
    exact Path.isAbsolute_resolveIn hroot raw
  · obtain ⟨raw, _, rfl⟩ := List.mem_map.1 hp
    exact Path.isAbsolute_resolveIn hroot raw

end Settings

end StyleBundle
