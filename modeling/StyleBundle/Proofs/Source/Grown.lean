import StyleBundle.Proofs.Expansion.Hidden
import StyleBundle.Proofs.FileTree.Grown
import StyleBundle.Proofs.Source.Outside

/-!
# Disks that have grown from a tree

While files are written, the tree of a disk grows, and its cache keeps texts from before and from
between (`Disk.GrownFrom`).  Such a disk has outgrown the tree that it started from, with the
locations that were written to as what is hidden (`Disk.GrownFrom.outgrows`).  So a request that
reads from none of them is answered as if nothing had been written
(`Disk.GrownFrom.outcome_run_eq`).
-/

namespace StyleBundle

open FileTree Catalog

namespace FileTree

variable {s t : FileTree} {written : List Location} {p : Path}

/-- The path leads to one of the locations. -/
def Hits (written : List Location) (t : FileTree) (p : Path) : Prop :=
  t.placeOf p.components ∈ written

theorem Hits.congr {q : Path} (h : Hits written t p) (hsame : p.components = q.components) :
    Hits written t q := by
  rw [Hits, ← hsame]
  exact h

namespace Grown

variable (h : Grown written s t)
include h

/-- Where a path that hits nothing names a file, nothing has changed. -/
theorem node?_of_file {place : Location} {content : Content} (hplace : t.locate p = .ok place)
    (hnode : t.node? place = some (.file content)) (hp : ¬ Hits written s p) :
    s.node? place = some (.file content) := by
  rcases h.nodes place with hsame | ⟨_, hdir⟩ | ⟨hwritten, _⟩
  · rw [← hsame, hnode]
  · rw [hnode] at hdir
    cases hdir
  · rw [locate_eq_placeOf hplace, h.placeOf_eq] at hwritten
    exact absurd hwritten hp

/-- A file is still a file. -/
theorem isFile (hp : s.isFile p = true) : t.isFile p = true := by
  obtain ⟨place, content, hplace, hnode⟩ := exists_file_of_isFile hp
  have hplace' := h.extends.locate hplace
  rcases h.nodes place with hsame | ⟨hnone, _⟩ | ⟨_, _, text, htext⟩
  · rw [FileTree.isFile, lookup_of_locate hplace' (hsame.trans hnode)]
  · rw [hnode] at hnone
    cases hnone
  · rw [FileTree.isFile, lookup_of_locate hplace' htext]

variable (hclosed : s.Closed)
include hclosed

/-- What a path reads that hits nothing is what its normal path read before. -/
theorem read_normalize (habs : p.isAbsolute = true) (hp : ¬ Hits written s p) {text : Text}
    (hread : t.read p = .ok text) : s.read p.normalize = .ok text := by
  obtain ⟨place, hplace, hnode⟩ := exists_file_of_read hread
  have hnormal := locate_normalize hplace hnode
  have hold : s.node? (s.placeOf p.normalize.components) = some (.file (.text text)) := by
    rw [← h.placeOf_eq, ← locate_eq_placeOf hnormal]
    exact h.node?_of_file hplace hnode hp
  have hcanonical := Path.canonical_normalize habs
  have hlookup := h.lookup_of_node? hclosed hcanonical.isAbsolute hcanonical.parent_notMem
    (lookup_of_locate hnormal hnode) hold
  rw [read, hlookup]
  rfl

/-- A file that was there before, and that the path does not hit, is read as before. -/
theorem lookup_eq (hp : p.Canonical) {place : Location} {content : Content}
    (hplace : t.locate p = .ok place) (hnode : t.node? place = some (.file content))
    (hold : s.node? place = some (.file content)) : s.lookup p = t.lookup p := by
  rw [locate_eq_placeOf hplace, h.placeOf_eq] at hold
  have hlookup := lookup_of_locate hplace hnode
  rw [hlookup]
  exact h.lookup_of_node? hclosed hp.isAbsolute hp.parent_notMem hlookup hold

end Grown

end FileTree

namespace Disk

variable {s : FileTree} {d : Disk} {written : List Location} {directory p q : Path}

/-! ## Stylesheets of a directory -/

/-- A stylesheet of a directory of a disk is an entry of the directory with the right name. -/
theorem mem_stylesheetsIn_source : q ∈ stylesheetsIn d.source directory ↔
    ∃ place name, d.tree.locate directory = .ok place ∧ d.tree.isDirectoryAt place = true ∧
      (d.tree.node? (place ++ [name])).isSome = true ∧ q = directory.push name ∧
      isTreeMember q = true ∧ d.tree.isFile q = true := by
  rw [mem_stylesheetsIn]
  constructor
  · rintro ⟨_, entries, hlist, hmem, hmember, hfile⟩
    obtain ⟨names, hnames, hentries⟩ := bind_eq_ok_iff.1 hlist
    cases hentries
    obtain ⟨place, hplace, hnames⟩ := bind_eq_ok_iff.1 hnames
    split_ifs at hnames with hdir
    cases hnames
    obtain ⟨name, hname, rfl⟩ := List.mem_map.1 hmem
    exact ⟨place, name, hplace, hdir, mem_namesIn_iff.1 hname, rfl, hmember, hfile⟩
  · rintro ⟨place, name, hplace, hdir, hname, rfl, hmember, hfile⟩
    have hnames : d.tree.names directory = .ok (d.tree.namesIn place) :=
      bind_eq_ok_iff.2 ⟨place, hplace, if_pos hdir⟩
    refine ⟨isDirectory_iff.2 ⟨place, hplace, hdir⟩, (d.tree.namesIn place).map directory.push,
      bind_eq_ok_iff.2 ⟨_, hnames, rfl⟩, ?_, hmember, hfile⟩
    exact List.mem_map_of_mem (mem_namesIn_iff.2 hname)

theorem nodup_membersByName (hnamed : d.tree.WellNamed) (hunique : d.tree.Unique)
    (directory : Path) :
    (membersByName d.source directory).Nodup :=
  (List.perm_insertionSort _ _).nodup_iff.2 (nodup_stylesheetsIn hnamed hunique directory)

/-! ## Disks that have grown -/

/-- The tree has grown from another one, and the cache holds no other texts of the files that were
not written. -/
structure GrownFrom (written : List Location) (s : FileTree) (d : Disk) : Prop where
  tree : Grown written s d.tree
  named : d.tree.WellNamed
  unique : d.tree.Unique
  cache : ∀ entry ∈ d.cache, entry.1.isAbsolute = true → ¬ Hits written s entry.1 →
    s.read entry.1.normalize = .ok entry.2

theorem grownFrom_self (hnamed : s.WellNamed) (hunique : s.Unique) :
    (Disk.mk s []).GrownFrom written s :=
  ⟨.refl written s, hnamed, hunique, by simp⟩

namespace GrownFrom

/-- A text in the cache under a path that hits nothing is the one that the file had. -/
theorem read_of_cached (h : d.GrownFrom written s) (habs : p.isAbsolute = true)
    (hfile : s.isFile p = true) (hp : ¬ Hits written s p) {text : Text}
    (hcached : d.cached? p = some text) :
    s.read p = .ok text := by
  obtain ⟨q, hq, hsame⟩ := exists_mem_cache hcached
  have hread := h.cache _ hq (Path.isAbsolute_congr hsame ▸ habs) fun hhits =>
    hp (hhits.congr hsame.symm)
  rw [← Path.normalize_congr hsame, (FileTree.read_normalize hfile).2] at hread
  exact hread

/-- A file of the tree is read as before, or its path hits something and can be read. -/
theorem readsAlike (h : d.GrownFrom written s) (habs : p.isAbsolute = true)
    (hfile : s.isFile p = true) :
    ReadsAlike (Hits written s) d.source (Disk.mk s []).source p := by
  change d.read p = s.read p ∨ Hits written s p ∧ ∃ text, d.read p = .ok text
  rw [read]
  cases hcached : d.cached? p with
  | some text =>
    by_cases hp : Hits written s p
    · exact .inr ⟨hp, text, rfl⟩
    · exact .inl (h.read_of_cached habs hfile hp hcached).symm
  | none =>
    obtain ⟨place, content, hplace, hnode⟩ := exists_file_of_isFile hfile
    have hplace' := h.tree.extends.locate hplace
    rcases h.tree.nodes place with hsame | ⟨hnone, _⟩ | ⟨hwritten, _, text, htext⟩
    · left
      simp only [FileTree.read, lookup_of_locate hplace hnode,
        lookup_of_locate hplace' (hsame.trans hnode)]
    · rw [hnode] at hnone
      cases hnone
    · right
      rw [locate_eq_placeOf hplace] at hwritten
      refine ⟨hwritten, text, ?_⟩
      simp only [FileTree.read, lookup_of_locate hplace' htext]
      rfl

section Closed

variable (h : d.GrownFrom written s) (hclosed : s.Closed)
include h hclosed

/-- What was read can be remembered. -/
theorem rememberAll {reads : List (Path × Text)}
    (hreads : ∀ entry ∈ reads, d.read entry.1 = .ok entry.2) :
    (d.rememberAll reads).GrownFrom written s := by
  have htree := d.tree_rememberAll reads
  refine ⟨htree ▸ h.tree, htree ▸ h.named, htree ▸ h.unique, ?_⟩
  exact forall_mem_rememberAll hreads h.cache fun entry hread habs hp =>
    h.tree.read_normalize hclosed habs hp hread

/-- A file under a canonical path was there before and is read alike, or the path hits something
and can be read. -/
theorem read_cases (hp : p.Canonical) (hfile : d.tree.isFile p = true) :
    s.isFile p = true ∧ d.read p = s.read p ∨ Hits written s p ∧ ∃ text, d.read p = .ok text := by
  obtain ⟨place, content, hplace, hnode⟩ := exists_file_of_isFile hfile
  have hold : s.node? place = some (.file content) → s.isFile p = true := by
    intro hold
    rw [FileTree.isFile, h.tree.lookup_eq hclosed hp hplace hnode hold]
    exact hfile
  rcases h.tree.nodes place with hsame | ⟨_, hdir⟩ | ⟨hwritten, _, text, htext⟩
  · have hthere := hold (hsame ▸ hnode)
    exact (h.readsAlike hp.isAbsolute hthere).imp_left fun hread => ⟨hthere, hread⟩
  · rw [hnode] at hdir
    cases hdir
  · rw [locate_eq_placeOf hplace, h.tree.placeOf_eq] at hwritten
    refine .inr ⟨hwritten, ?_⟩
    rw [read]
    cases hcached : d.cached? p with
    | some text => exact ⟨text, rfl⟩
    | none =>
      refine ⟨text, ?_⟩
      simp only [FileTree.read, lookup_of_locate hplace htext]
      rfl

/-- The stylesheets that were in a directory before are those of the stylesheets in it that were
files. -/
theorem mem_stylesheetsIn_iff (hdirectory : directory.Canonical) :
    q ∈ stylesheetsIn (Disk.mk s []).source directory ↔
      q ∈ stylesheetsIn d.source directory ∧ s.isFile q = true := by
  rw [mem_stylesheetsIn_source, mem_stylesheetsIn_source]
  constructor
  · rintro ⟨place, name, hplace, hdir, hname, rfl, hmember, hfile⟩
    refine ⟨⟨place, name, h.tree.extends.locate hplace,
      h.tree.extends.directories place hdir, ?_, rfl, hmember, h.tree.isFile hfile⟩, hfile⟩
    rw [Option.isSome_iff_ne_none] at hname ⊢
    exact fun hnone => hname (h.tree.extends.entries _ hnone)
  · rintro ⟨⟨place, name, hplace, hdir, hname, rfl, hmember, _⟩, hfile⟩
    have hisName := h.named.isName_of_mem_namesIn (mem_namesIn_iff.2 hname)
    obtain ⟨there, content, hthere, hnode⟩ := exists_file_of_isFile hfile
    have hbelow : there = s.placeOf directory.components ++ [name] := by
      rw [locate_eq_placeOf hthere, Path.components_push_name directory hisName]
      exact placeOf_append_names s directory.components [name]
    subst hbelow
    -- The directory holds a file, so it was a directory before.
    have hold : s.isDirectoryAt (s.placeOf directory.components) = true :=
      hclosed.isDirectoryAt_of_above (List.cons_ne_nil name []) (by rw [hnode]; rfl)
    have hlookup : s.lookup directory = .ok .directory := by
      refine h.tree.lookup_of_node? hclosed hdirectory.isAbsolute hdirectory.parent_notMem
        (lookup_of_locate hplace ?_) ?_
      · rwa [isDirectoryAt, beq_iff_eq] at hdir
      · rwa [isDirectoryAt, beq_iff_eq] at hold
    obtain ⟨place', hplace', _⟩ := exists_place_of_lookup hlookup
    obtain rfl : place' = s.placeOf directory.components := locate_eq_placeOf hplace'
    exact ⟨_, name, hplace', hold, by rw [hnode]; rfl, rfl, hmember, hfile⟩

/-- A tree of stylesheets had the members that were files before, in the same order. -/
theorem membersByName_eq (hnamed : s.WellNamed) (hunique : s.Unique)
    (hdirectory : directory.Canonical) :
    membersByName (Disk.mk s []).source directory =
      (membersByName d.source directory).filter s.isFile := by
  have hperm : (membersByName (Disk.mk s []).source directory).Perm
      ((membersByName d.source directory).filter s.isFile) := by
    refine (List.perm_ext_iff_of_nodup (nodup_membersByName hnamed hunique directory)
      ((nodup_membersByName h.named h.unique directory).filter _)).2 fun q => ?_
    rw [List.mem_filter, mem_membersByName, mem_membersByName]
    exact h.mem_stylesheetsIn_iff hclosed hdirectory
  refine hperm.eq_of_pairwise (fun p q hp hq => ?_) (pairwise_membersByName _ _)
    ((pairwise_membersByName _ _).filter _)
  rw [mem_membersByName] at hp
  have hq := mem_membersByName.1 (hperm.symm.subset hq)
  exact eq_of_leByName hnamed hp hq

/-- The disk has outgrown the tree that it has grown from. -/
theorem outgrows (hnamed : s.WellNamed) (hunique : s.Unique) :
    Outgrows (Hits written s) d.source (Disk.mk s []).source where
  isFile _ hp := h.tree.isFile hp
  read_cases _ hp hfile := h.read_cases hclosed hp hfile
  members_eq _ hdirectory := h.membersByName_eq hclosed hnamed hunique hdirectory

/-- A request that hits nothing is answered by the disk as by any disk that has the tree and
agrees with it. -/
theorem outcome_run_eq (hnamed : s.WellNamed) (hunique : s.Unique) {settings : Settings}
    (hbuilt : settings.Built) {d' : Disk} (htree : d'.tree = s) (hfaithful : d'.Faithful)
    {r : Request} (hdirectory : r.directory.isAbsolute = true)
    (hentry : ∀ p ∈ r.entry?, ReadsAlike (Hits written s) d.source (Disk.mk s []).source p ∧
      (s.isFile p.normalize = true → s.isFile p = true))
    (havoids : Expansion.Avoids (Hits written s) (r.run ⟨settings, d.source⟩) .start) :
    Expansion.outcome (r.run ⟨settings, d.source⟩) .empty =
      Expansion.outcome (r.run ⟨settings, d'.source⟩) .empty := by
  have hlimit : (Disk.mk s []).source.chainLimit ≤ d.source.chainLimit := by
    have hlength := h.tree.length_le
    exact Nat.mul_le_mul_right _ (by simp only [List.length_nil]; omega)
  have hfresh : (Disk.mk s []).Faithful := by simp [Faithful]
  subst htree
  calc Expansion.outcome (r.run ⟨settings, d.source⟩) .empty
      = Expansion.outcome (r.run ⟨settings, (Disk.mk d'.tree []).source⟩) .empty :=
        Request.outcome_run_of_avoids (h.outgrows hclosed hnamed hunique)
          (grounded h.named) hbuilt
          (lawful_source _) hlimit hdirectory (fun p hp => (hentry p hp).1) havoids
    _ = Expansion.outcome (r.run ⟨settings, d'.source⟩) .empty := by
        refine Request.outcome_run_congr (hfresh.sameFiles hfaithful rfl) (lawful_source _)
          (lawful_source _) fun p hp => ?_
        exact (hfaithful.read_eq_of_normalize (hentry p hp).2).symm

end Closed

end GrownFrom

end Disk

end StyleBundle
