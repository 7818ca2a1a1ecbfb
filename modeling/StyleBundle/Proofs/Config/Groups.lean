import StyleBundle.Proofs.Config.Accepted
import StyleBundle.Proofs.Toml.Names

/-!
# Names of entry groups

The groups of a loaded configuration have different names (`Config.nodup_groups`), because they
are the entries of one table.
-/

namespace StyleBundle

namespace ConfigFile

theorem nodup_of_table? {value : Option Toml} {entries : List (Text × Toml)}
    (hvalue : ∀ v ∈ value, v.Distinct) (h : table? value = some entries) :
    (entries.map Prod.fst).Nodup := by
  unfold table? at h
  split at h
  · cases h
    exact List.nodup_nil
  · split_ifs at h
    cases h
    exact hvalue _ rfl
  · cases h
    exact List.nodup_singleton _
  · cases h

theorem nodup_entryGroups {text : Text} {file : ConfigFile} (h : parse? text = some file) :
    (file.entryGroups.map Prod.fst).Nodup := by
  obtain ⟨document, hdocument, h⟩ := Option.bind_eq_some_iff.1 h
  obtain ⟨_, hvalues⟩ := Toml.distinct_of_parse? hdocument
  obtain ⟨entries, hentries, h⟩ := Option.bind_eq_some_iff.1 h
  -- The sections in front of the groups, then the groups, then the last section.
  obtain ⟨_, _, h⟩ := Option.bind_eq_some_iff.1 h
  obtain ⟨_, _, h⟩ := Option.bind_eq_some_iff.1 h
  obtain ⟨_, _, h⟩ := Option.bind_eq_some_iff.1 h
  obtain ⟨_, _, h⟩ := Option.bind_eq_some_iff.1 h
  obtain ⟨groups, hgroups, h⟩ := Option.bind_eq_some_iff.1 h
  obtain ⟨_, _, h⟩ := Option.bind_eq_some_iff.1 h
  cases h
  refine nodup_of_table? (fun value hvalue => ?_) hgroups
  rw [settings?] at hentries
  split_ifs at hentries
  cases hentries
  obtain ⟨entry, hentry, rfl⟩ := Option.map_eq_some_iff.1 hvalue
  exact hvalues entry (List.mem_of_find?_eq_some hentry)

end ConfigFile

namespace Config

variable {tree : FileTree} {env : Environment} {path : Option Path} {overrides : Option Overrides}
  {c : Config}

theorem entryGroups_of_expandFile {file file' : ConfigFile}
    (h : expandFile env file = .ok file') :
    file'.entryGroups = file.entryGroups := by
  obtain ⟨_, _, h⟩ := bind_eq_ok_iff.1 h
  obtain ⟨_, _, h⟩ := bind_eq_ok_iff.1 h
  obtain ⟨_, _, h⟩ := bind_eq_ok_iff.1 h
  obtain ⟨_, _, h⟩ := bind_eq_ok_iff.1 h
  obtain ⟨_, _, h⟩ := bind_eq_ok_iff.1 h
  obtain ⟨_, _, h⟩ := bind_eq_ok_iff.1 h
  cases h
  rfl

theorem names_of_readGroups {entries : List (Text × Toml)} {groups : List EntryGroup}
    (h : readGroups entries = .ok groups) :
    groups.map EntryGroup.name = entries.map Prod.fst := by
  have hpairs := mapM_eq_ok_iff.1 h
  clear h
  induction hpairs with
  | nil => rfl
  | @cons entry group _ _ hgroup _ ih =>
    obtain ⟨name, value⟩ := entry
    simp only at hgroup
    split at hgroup
    · cases hgroup
      rw [List.map_cons, List.map_cons, ih]
    · cases hgroup

theorem nodup_groups_of_loadBase (h : loadBase tree env path = .ok c) :
    (c.groups.map EntryGroup.name).Nodup := by
  rcases loadBase_cases h with ⟨_, _, htext⟩ | rfl
  · obtain ⟨parsed, file, config, hparse, hexpand, hconfig, rfl, _⟩ := exists_of_ofText htext
    obtain ⟨_, _, _, hgroups⟩ := of_resolveFile hconfig
    rw [names_of_readGroups hgroups, entryGroups_of_expandFile hexpand]
    exact ConfigFile.nodup_entryGroups hparse
  · exact List.nodup_nil

/-- The groups of a loaded configuration have different names. -/
theorem nodup_groups (h : load tree env path overrides = .ok c) :
    (c.groups.map EntryGroup.name).Nodup := by
  obtain ⟨base, hbase, h⟩ := bind_eq_ok_iff.1 h
  have hnodup := nodup_groups_of_loadBase hbase
  cases overrides with
  | none =>
    cases h
    exact hnodup
  | some overrides =>
    obtain ⟨_, _, h⟩ := bind_eq_ok_iff.1 h
    cases h
    obtain ⟨root, _, _, _, _⟩ := overrides
    cases root <;> exact hnodup

end Config

end StyleBundle
