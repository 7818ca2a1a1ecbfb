import StyleBundle.Proofs.FileTree.Locate
import StyleBundle.Proofs.Source.Memory
import StyleBundle.Source.Disk

/-!
# Laws of disks

Every disk is lawful (`Disk.lawful_source`).  A path that is read from the tree leads to an entry,
and its normal form can be told from that entry and from the number of its steps up
(`FileTree.spelling`).  A path text is short, so there are few such numbers.

A disk whose cache holds what the tree holds reads a file alike by its path and by its normal path
(`Disk.Faithful.read_normalize`).

Trees in memory and such disks are the unchanging sources (`Source.Unchanging`).
-/

namespace StyleBundle

namespace FileTree

variable {t : FileTree}

/-! ## How many normal paths lead to files -/

/-- The normal paths that lead to a location: the absolute one, and one for each number of steps
up. -/
def spelling (t : FileTree) (place : Location) : Nat → Path
  | 0 => place.path
  | ups + 1 =>
    Path.ofComponents (List.replicate ups .parent ++
      (place.drop (t.workingDirectory.length - ups)).map .normal)

/-- All normal paths that lead to entries. -/
def spellings (t : FileTree) : List Path :=
  t.entries.flatMap fun entry => (List.range pathLimit).map (t.spelling entry.1)

theorem length_spellings (t : FileTree) :
    t.spellings.length = t.entries.length * pathLimit := by
  simp [spellings, List.length_flatMap]

private theorem foldl_stepPlace_ups (ups : Nat) (place : Location) :
    (List.replicate ups Component.parent).foldl stepPlace place =
      place.take (place.length - ups) := by
  induction ups generalizing place with
  | zero => simp
  | succ ups ih =>
    rw [List.replicate_succ, List.foldl_cons, ih, stepPlace, List.length_dropLast,
      List.dropLast_eq_take, List.take_take]
    congr 1
    omega

theorem mem_entries_of_node? {place : Location} {content : Content}
    (h : t.node? place = some (.file content)) : (place, .file content) ∈ t.entries := by
  have hne : place ≠ [] := by
    rintro rfl
    cases h
  rw [node?, if_neg hne] at h
  obtain ⟨entry, hfind, hentry⟩ := Option.map_eq_some_iff.1 h
  have hplace := List.find?_some hfind
  have hmem := List.mem_of_find?_eq_some hfind
  obtain ⟨other, node⟩ := entry
  simp only [beq_iff_eq] at hplace
  rw [← hplace, ← hentry]
  exact hmem

private theorem cost_ups (ups : Nat) :
    Text.cost ((List.replicate ups Component.parent).map Component.text) = 3 * ups := by
  have hparent : Text.byteLength ['.', '.'] = 2 := by decide
  induction ups with
  | zero => rfl
  | succ ups ih =>
    rw [List.replicate_succ, List.map_cons, Text.cost_cons, ih, Component.text, hparent]
    omega

/-- There are fewer steps up in a normal path than a path text may have bytes. -/
private theorem ups_lt_pathLimit {p : Path} {ups : Nat} {names : List Text}
    (habs : p.isAbsolute = false)
    (hp : p.components = List.replicate ups .parent ++ names.map .normal)
    (hshort : p.text.byteLength < pathLimit) : ups + 1 < pathLimit := by
  have hcost := Path.cost_components_le p
  rw [hp, habs, List.map_append, Text.cost_append, cost_ups] at hcost
  simp only [Bool.false_eq_true, if_false] at hcost
  rw [pathLimit] at hshort ⊢
  omega

/-- The normal form of a path that can be read is one of the spellings of its entry. -/
theorem normalize_eq_spelling {p : Path} {text : Text} (h : t.read p = .ok text) :
    ∃ place ups, t.node? place = some (.file (.text text)) ∧ ups < pathLimit ∧
      (p.isAbsolute = true → ups = 0) ∧ t.spelling place ups = p.normalize := by
  obtain ⟨place, hlocate, hnode⟩ := exists_file_of_read h
  have hplace := locate_eq_placeOf_normalize hlocate
  have hshort := (follows_of_locate (locate_normalize hlocate hnode)).1.short
  refine ⟨place, ?_⟩
  have hclean : p.normalize = Path.ofComponents p.normalize.components := by
    rw [Path.components_normalize]
    rfl
  have habsolute := Path.isAbsolute_iff_mem (p := p.normalize)
  have hnormal := Path.normalSteps_normalize p
  rw [hclean]
  generalize hsteps : p.normalize.components = steps at hplace hnormal habsolute
  cases hnormal with
  | absolute names _ =>
    refine ⟨0, hnode, by decide, fun _ => rfl, ?_⟩
    rw [placeOf, List.foldl_cons, foldl_stepPlace_names] at hplace
    rw [hplace]
    rfl
  | relative ups names _ =>
    have habs : p.normalize.isAbsolute = false := by
      rw [Bool.eq_false_iff, ne_eq, habsolute]
      simp
    refine ⟨ups + 1, hnode, ups_lt_pathLimit habs hsteps hshort, ?_, ?_⟩
    · rw [← Path.isAbsolute_normalize, habs]
      exact fun hfalse => by cases hfalse
    · rw [placeOf, List.foldl_append, foldl_stepPlace_ups, foldl_stepPlace_names] at hplace
      have hnames : place.drop (t.workingDirectory.length - ups) = names := by
        rw [hplace, List.drop_append_of_le_length (by simp), List.drop_take]
        simp
      rw [spelling, hnames]

theorem normalize_mem_spellings {p : Path} {text : Text} (h : t.read p = .ok text) :
    p.normalize ∈ t.spellings := by
  obtain ⟨place, ups, hnode, hups, _, hspelling⟩ := normalize_eq_spelling h
  refine List.mem_flatMap.2 ⟨_, mem_entries_of_node? hnode, List.mem_map.2 ?_⟩
  exact ⟨ups, List.mem_range.2 hups, hspelling⟩

end FileTree

/-! ## Disks -/

namespace Disk

variable {d : Disk}

theorem cached?_congr {p q : Path} (h : p.components = q.components) :
    d.cached? p = d.cached? q := by
  have hsame : p.same = q.same := by
    funext r
    rw [Path.same, Path.same, h]
  rw [cached?, cached?, hsame]

theorem exists_mem_cache {p : Path} {text : Text} (h : d.cached? p = some text) :
    ∃ q, (q, text) ∈ d.cache ∧ p.components = q.components := by
  obtain ⟨entry, hfind, htext⟩ := Option.map_eq_some_iff.1 h
  have hsame := List.find?_some hfind
  refine ⟨entry.1, ?_, Path.same_iff.1 hsame⟩
  rw [← htext]
  exact List.mem_of_find?_eq_some hfind

/-- The normal paths that can be read. -/
def readablePaths (d : Disk) : List Path :=
  (d.cache.map fun entry => entry.1.normalize) ++ d.tree.spellings

theorem normalize_mem_readablePaths {p : Path} {text : Text} (h : d.read p = .ok text) :
    p.normalize ∈ d.readablePaths := by
  rw [readablePaths, List.mem_append]
  rw [read] at h
  cases hcached : d.cached? p with
  | some cachedText =>
    left
    obtain ⟨q, hq, hcomponents⟩ := exists_mem_cache hcached
    exact List.mem_map.2 ⟨_, hq, (Path.normalize_congr hcomponents).symm⟩
  | none =>
    right
    rw [hcached] at h
    exact FileTree.normalize_mem_spellings h

theorem length_readablePaths_le (d : Disk) : d.readablePaths.length ≤ d.source.chainLimit := by
  have hlimit : 1 ≤ FileTree.pathLimit := by decide
  have hcache := Nat.mul_le_mul_left d.cache.length hlimit
  rw [readablePaths, List.length_append, List.length_map, FileTree.length_spellings, source]
  simp only [Nat.add_mul]
  omega

theorem lawful_source (d : Disk) : d.source.Lawful where
  bounded := by
    intro chain hread hne
    have hmem : ∀ p ∈ chain, p.normalize ∈ d.readablePaths := by
      intro p hp
      obtain ⟨text, htext⟩ := hread p hp
      exact normalize_mem_readablePaths htext
    exact Nat.le_trans (length_le_of_injective_key hmem hne) (length_readablePaths_le d)
  read_same := by
    intro p q hp hq h
    have hcomponents := Path.same_iff.1 h
    change d.read p = d.read q
    rw [read, read, cached?_congr hcomponents, FileTree.read_congr hp hq hcomponents]

/-- The cache holds what the tree holds. -/
def Faithful (d : Disk) : Prop :=
  ∀ entry ∈ d.cache, d.tree.read entry.1 = .ok entry.2

theorem Faithful.read_eq (h : d.Faithful) {p : Path} (hp : d.tree.isFile p = true) :
    d.read p = d.tree.read p := by
  rw [read]
  cases hcached : d.cached? p with
  | none => rfl
  | some text =>
    obtain ⟨q, hq, hcomponents⟩ := exists_mem_cache hcached
    have hread := h _ hq
    rw [FileTree.read_congr hp (FileTree.isFile_of_read hread) hcomponents, hread]

/-- A path that names a file if its normal path does is read from the tree. -/
theorem Faithful.read_eq_of_normalize (h : d.Faithful) {p : Path}
    (hp : d.tree.isFile p.normalize = true → d.tree.isFile p = true) :
    d.read p = d.tree.read p := by
  cases hcached : d.cached? p with
  | none => rw [read, hcached]
  | some text =>
    obtain ⟨q, hq, hcomponents⟩ := exists_mem_cache hcached
    have hfile := (FileTree.read_normalize (FileTree.isFile_of_read (h _ hq))).1
    rw [← Path.normalize_congr hcomponents] at hfile
    exact h.read_eq (hp hfile)

/-- A file is read alike by its path and by its normal path. -/
theorem Faithful.read_normalize (h : d.Faithful) {p : Path} (hp : d.tree.isFile p = true) :
    d.read p.normalize = d.read p := by
  obtain ⟨hfile, hread⟩ := FileTree.read_normalize hp
  rw [h.read_eq hfile, h.read_eq hp, hread]

end Disk

/-! ## Unchanging sources -/

namespace Source

variable {s : Source}

/-- A source whose answers agree with one tree of files: a tree in memory, or a disk whose cache
holds what its tree holds. -/
inductive Unchanging : Source → Prop
  | memory (m : Memory) : Unchanging m.source
  | disk (d : Disk) (h : d.Faithful) : Unchanging d.source

theorem Unchanging.lawful (h : s.Unchanging) : s.Lawful := by
  cases h with
  | memory m => exact m.lawful_source
  | disk d _ => exact d.lawful_source

/-- What a directive leads to is read alike by the path that it gives and by the normal path. -/
theorem Unchanging.read_normalize {c : Catalog} (h : c.source.Unchanging) {directory r : Path}
    {d : Directive} (hlead : c.LeadsTo directory d r) :
    c.source.read r.normalize = c.source.read r := by
  have hfile := hlead.isFile
  cases hkind : d.kind with
  | require =>
    rw [(Catalog.of_locate_eq_ok ((Catalog.leadsTo_require hkind).1 hlead)).1]
  | requireTree =>
    have hmember := (Catalog.leadsTo_requireTree hkind).1 hlead
    generalize c.source = source at h hfile hmember
    cases h with
    | memory m => exact Memory.read_normalize_of_mem_stylesheetsIn hmember
    | disk d hd => exact hd.read_normalize hfile

end Source

end StyleBundle
