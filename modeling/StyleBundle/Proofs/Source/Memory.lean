import Mathlib.Data.List.Perm.Subperm
import StyleBundle.Proofs.Expansion.Inclusion
import StyleBundle.Source.Memory

/-!
# Laws of sources, and of trees in memory

`Source.Lawful` is what expansion needs to know of a source: its chain limit bounds the chains of
readable files, and two spellings of one file are read alike.  Every tree in memory is lawful
(`Memory.lawful_source`), because it compares paths by their components.

A listing may spell a file in another way than its normal path.  The two spellings are read alike
(`Memory.read_normalize_of_mem_stylesheetsIn`).
-/

namespace StyleBundle

namespace Source

/-- What expansion needs to know of a source. -/
structure Lawful (s : Source) : Prop where
  /-- No chain of readable files with different normal paths is longer than the limit. -/
  bounded : ∀ chain : List Path, (∀ p ∈ chain, ∃ text, s.read p = .ok text) →
    chain.Pairwise (fun p q => p.normalize ≠ q.normalize) → chain.length ≤ s.chainLimit
  /-- Two paths of one file are read alike. -/
  read_same : ∀ p q : Path, s.isFile p = true → s.isFile q = true → p.same q = true →
    s.read p = s.read q

end Source

/-- Different items of a list can be told apart by what each of them is counted under. -/
theorem length_le_of_injective_key {α β : Type} {key : α → β} {items : List α} {keys : List β}
    (hmem : ∀ a ∈ items, key a ∈ keys) (hne : items.Pairwise fun a b => key a ≠ key b) :
    items.length ≤ keys.length := by
  have hnodup : (items.map key).Nodup := List.pairwise_map.2 hne
  have hsubset : items.map key ⊆ keys := by
    intro k hk
    obtain ⟨a, ha, rfl⟩ := List.mem_map.1 hk
    exact hmem a ha
  rw [← List.length_map key]
  exact (List.subperm_of_subset hnodup hsubset).length_le

namespace Memory

variable {m : Memory}

/-! ## Reading -/

/-- Reading looks at the components of a path only. -/
theorem read_congr {p q : Path} (h : p.components = q.components) : m.read p = m.read q := by
  have hsame : p.same = q.same := by
    funext r
    rw [Path.same, Path.same, h]
  rw [read, read, Path.isIn, Path.isIn, hsame]

theorem exists_file_of_read_eq_ok {p : Path} {text : Text} (h : m.read p = .ok text) :
    ∃ file ∈ m.files, p.components = file.1.components := by
  rw [read] at h
  split_ifs at h
  split at h
  · rename_i q content hfind
    have hsame := List.find?_some hfind
    exact ⟨(q, content), List.mem_of_find?_eq_some hfind, Path.same_iff.1 hsame⟩
  · cases h

theorem lawful_source (m : Memory) : m.source.Lawful where
  bounded := by
    intro chain hread hne
    have hmem : ∀ p ∈ chain, p.normalize ∈ m.files.map fun file => file.1.normalize := by
      intro p hp
      obtain ⟨text, htext⟩ := hread p hp
      obtain ⟨file, hfile, hcomponents⟩ := exists_file_of_read_eq_ok htext
      exact List.mem_map.2 ⟨file, hfile, (Path.normalize_congr hcomponents).symm⟩
    have hlength := length_le_of_injective_key hmem hne
    rw [List.length_map] at hlength
    exact hlength
  read_same := by
    intro p q _ _ h
    exact read_congr (Path.same_iff.1 h)

/-! ## Listings -/

/-- What lies directly in a directory has one component more than it. -/
theorem components_of_liesIn {directory q : Path} (h : liesIn directory q = true) :
    ∃ step, q.components = directory.components ++ [step] := by
  rw [liesIn] at h
  cases hparent : q.parent? with
  | none =>
    rw [hparent] at h
    cases h
  | some up =>
    rw [hparent] at h
    obtain ⟨step, hstep⟩ := Path.components_of_parent? hparent
    exact ⟨step, hstep.trans (by rw [Path.same_iff.1 h])⟩

/-- A stylesheet in the listing of a normal directory is read like its normal path. -/
theorem read_normalize_of_mem_stylesheetsIn {directory q : Path}
    (h : q ∈ Catalog.stylesheetsIn m.source directory.normalize) :
    m.read q.normalize = m.read q := by
  obtain ⟨hdir, entries, hlist, hmem, htree, _⟩ := Catalog.mem_stylesheetsIn.1 h
  have hlies : liesIn directory.normalize q = true := by
    change m.list directory.normalize = .ok entries at hlist
    rw [list] at hlist
    split_ifs at hlist
    cases hlist
    exact (List.mem_filter.1 hmem).2
  obtain ⟨step, hstep⟩ := components_of_liesIn hlies
  obtain ⟨name, hname⟩ := Catalog.getLast?_of_isTreeMember htree
  obtain rfl : step = .normal name := by
    rw [hstep, List.getLast?_concat] at hname
    exact Option.some.inj hname
  have hisName : Component.IsName name :=
    Path.isName_of_mem_components (p := q) (by rw [hstep]; simp)
  have hnormal : Path.NormalSteps q.components := by
    rw [hstep]
    exact (Path.normalSteps_normalize directory).append_name hisName
  exact read_congr (Path.components_normalize_of_normalSteps hnormal)

end Memory

end StyleBundle
