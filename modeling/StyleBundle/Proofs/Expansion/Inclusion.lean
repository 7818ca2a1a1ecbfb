import Mathlib.Logic.Relation
import StyleBundle.Expansion.Expanded
import StyleBundle.Proofs.Path.Normal
import StyleBundle.Proofs.Text.Order

/-!
# Inclusion

Which files a file asks for, said without running anything.

* `Catalog.LeadsTo` tells which paths one directive leads to.  A `require` directive leads to the
  file that its target is looked up to, a `require_tree` directive to the stylesheets directly in
  its directory.
* `Catalog.Includes` is the edge of the inclusion graph.  Its nodes are normal paths: a listing
  may spell a path in another way, so an edge goes to the normal form of what a directive leads
  to.
* `Catalog.Reaches` and `Catalog.OnCycle` are reachability in that graph and being on a cycle of
  it.

`Catalog.membersByName` puts the stylesheets of a directory in the order of their names.  The
program sorts by merging; `Catalog.treeMembers_eq` says that the two agree.
-/

namespace StyleBundle

namespace Catalog

/-! ## Stylesheets of a directory -/

/-- The stylesheets directly in a directory, in the order of its listing.  There are none when the
directory cannot be listed. -/
def stylesheetsIn (source : Source) (directory : Path) : List Path :=
  if source.isDirectory directory then
    match source.list directory with
    | .ok entries => entries.filter fun p => isTreeMember p && source.isFile p
    | .error _ => []
  else []

/-- The stylesheets directly in a directory, in the order of their file names.  Files with one
name stay in the order of the listing. -/
def membersByName (source : Source) (directory : Path) : List Path :=
  (stylesheetsIn source directory).insertionSort fun p q => leByName p q = true

theorem leByName_total (p q : Path) : leByName p q = true ∨ leByName q p = true :=
  Text.le_total _ _

theorem leByName_trans (p q r : Path) (hpq : leByName p q = true) (hqr : leByName q r = true) :
    leByName p r = true :=
  Text.le_trans hpq hqr

theorem treeMembers_eq (source : Source) (directory : Path) :
    treeMembers source directory = membersByName source directory := by
  have hsort := mergeSort_eq_insertionSort_of_total leByName_trans leByName_total
  rw [treeMembers, membersByName, stylesheetsIn]
  split_ifs
  · cases source.list directory with
    | ok entries => exact hsort _
    | error cause => rfl
  · rfl

theorem mem_membersByName {source : Source} {directory q : Path} :
    q ∈ membersByName source directory ↔ q ∈ stylesheetsIn source directory :=
  List.mem_insertionSort _

theorem pairwise_membersByName (source : Source) (directory : Path) :
    (membersByName source directory).Pairwise fun p q => leByName p q = true := by
  rw [membersByName, ← mergeSort_eq_insertionSort_of_total leByName_trans leByName_total]
  refine List.pairwise_mergeSort leByName_trans (fun p q => ?_) _
  rw [Bool.or_eq_true]
  exact leByName_total p q

/-- The order of a listing does not matter if names tell the stylesheets in it apart. -/
theorem membersByName_eq_of_perm {s₁ s₂ : Source} {directory : Path}
    (hperm : (stylesheetsIn s₁ directory).Perm (stylesheetsIn s₂ directory))
    (hname : ∀ p ∈ stylesheetsIn s₁ directory, ∀ q ∈ stylesheetsIn s₁ directory,
      leByName p q = true → leByName q p = true → p = q) :
    membersByName s₁ directory = membersByName s₂ directory := by
  have hsorted : (membersByName s₁ directory).Perm (membersByName s₂ directory) :=
    (List.perm_insertionSort _ _).trans (hperm.trans (List.perm_insertionSort _ _).symm)
  refine hsorted.eq_of_pairwise (fun p q hp hq => ?_) (pairwise_membersByName _ _)
    (pairwise_membersByName _ _)
  rw [mem_membersByName] at hp hq
  exact hname p hp q (hperm.symm.subset hq)

/-- A stylesheet of a directory is a file of its listing with the right name. -/
theorem mem_stylesheetsIn {source : Source} {directory q : Path} :
    q ∈ stylesheetsIn source directory ↔
      source.isDirectory directory = true ∧ ∃ entries, source.list directory = .ok entries ∧
        q ∈ entries ∧ isTreeMember q = true ∧ source.isFile q = true := by
  rw [stylesheetsIn]
  split_ifs with hdir
  · cases hlist : source.list directory with
    | ok entries => simp [hdir]
    | error cause => simp [hdir]
  · simp [hdir]

/-- The last component of a tree member is its name. -/
theorem getLast?_of_isTreeMember {q : Path} (h : isTreeMember q = true) :
    ∃ name, q.components.getLast? = some (.normal name) := by
  rw [isTreeMember, Path.fileName?] at h
  cases hlast : q.components.getLast? with
  | none => simp [hlast] at h
  | some step =>
    cases step with
    | normal name => exact ⟨name, rfl⟩
    | root => simp [hlast] at h
    | current => simp [hlast] at h
    | parent => simp [hlast] at h

/-! ## The inclusion graph -/

variable {c : Catalog}

/-- The directive, in a file of the directory, leads to the path. -/
def LeadsTo (c : Catalog) (directory : Path) (d : Directive) (q : Path) : Prop :=
  match d.kind with
  | .require => c.locate d.target directory = .ok q
  | .requireTree => q ∈ stylesheetsIn c.source (treeDirectory d.target directory)

/-- A directive in the text of the file `p` leads to `q`, up to the spelling of paths. -/
def Includes (c : Catalog) (p q : Path) : Prop :=
  ∃ text, c.source.read p = .ok text ∧
    ∃ d ∈ Directive.parse text, ∃ r, c.LeadsTo p.directory d r ∧ r.normalize = q

/-- A chain of inclusions leads from `p` to `q`.  Every file reaches itself. -/
def Reaches (c : Catalog) (p q : Path) : Prop :=
  Relation.ReflTransGen c.Includes p q

/-- A chain of one inclusion or more leads from `q` back to `q`. -/
def OnCycle (c : Catalog) (q : Path) : Prop :=
  Relation.TransGen c.Includes q q

theorem leadsTo_require {directory q : Path} {d : Directive} (h : d.kind = .require) :
    c.LeadsTo directory d q ↔ c.locate d.target directory = .ok q := by
  rw [LeadsTo, h]

theorem leadsTo_requireTree {directory q : Path} {d : Directive} (h : d.kind = .requireTree) :
    c.LeadsTo directory d q ↔
      q ∈ stylesheetsIn c.source (treeDirectory d.target directory) := by
  rw [LeadsTo, h]

/-! ## What directives lead to -/

private theorem isFile_of_firstFile? {candidates : List Path} {q : Path}
    (h : c.firstFile? candidates = some q) : q ∈ candidates ∧ c.source.isFile q = true :=
  ⟨List.mem_of_find?_eq_some h, List.find?_some h⟩

private theorem resolveIn_eq_foldl_push (base q : Path) :
    base.resolveIn q = ([q.text].foldl Path.push base).normalize := rfl

/-- A lookup goes on from the root or from one of the directories that are searched. -/
theorem exists_start_of_locate {target : Text} {directory q : Path}
    (h : c.locate target directory = .ok q) :
    c.source.isFile q = true ∧
      ∃ start ∈ c.settings.root :: searchRoots c.settings directory,
        ∃ pieces : List Text, q = (pieces.foldl Path.push start).normalize := by
  rw [locate] at h
  cases hfind : c.findFile? (applyAlias c.settings.aliases target) directory with
  | none =>
    rw [hfind] at h
    cases h
  | some found =>
    rw [hfind] at h
    cases h
    rw [findFile?, Option.or_eq_some_iff] at hfind
    rcases hfind with hmapped | ⟨_, hsearch⟩
    · -- The file of a mapping lies below the root or below an include path.
      obtain ⟨m, _, hm⟩ := List.exists_of_findSome?_eq_some hmapped
      split_ifs at hm
      obtain ⟨hmem, hfile⟩ := isFile_of_firstFile? hm
      refine ⟨hfile, ?_⟩
      simp only [mappingCandidates, List.mem_cons, List.mem_map] at hmem
      rcases hmem with rfl | rfl | ⟨include', hinclude, rfl⟩
      · exact ⟨_, List.mem_cons_self, _, resolveIn_eq_foldl_push _ _⟩
      · exact ⟨_, List.mem_cons_self, _, resolveIn_eq_foldl_push _ _⟩
      · exact ⟨include', by simp [searchRoots, hinclude], _, resolveIn_eq_foldl_push _ _⟩
    · -- The file of a search is a plain or a partial candidate.
      obtain ⟨root, hroot, hfound⟩ := List.exists_of_findSome?_eq_some hsearch
      obtain ⟨extension, _, hext⟩ := List.exists_of_findSome?_eq_some hfound
      obtain ⟨hmem, hfile⟩ := isFile_of_firstFile? hext
      refine ⟨hfile, root, List.mem_cons_of_mem _ hroot, ?_⟩
      simp only [List.mem_cons, List.not_mem_nil, or_false] at hmem
      rcases hmem with rfl | rfl
      · exact ⟨[_ ++ extension], rfl⟩
      · rw [partialCandidate]
        split
        · rename_i front name _
          exact ⟨[front, '_' :: name ++ extension], rfl⟩
        · exact ⟨['_' :: _ ++ extension], rfl⟩

/-- A lookup gives a normal path that names a file. -/
theorem of_locate_eq_ok {target : Text} {directory q : Path}
    (h : c.locate target directory = .ok q) : q.normalize = q ∧ c.source.isFile q = true := by
  obtain ⟨hfile, _, _, _, rfl⟩ := exists_start_of_locate h
  exact ⟨Path.normalize_normalize _, hfile⟩

theorem locate_eq_error {target : Text} {directory : Path} {cause : ResolveError}
    (h : c.locate target directory = .error cause) : cause = .fileNotFound target := by
  rw [locate] at h
  split at h
  · cases h
  · cases h
    rfl

/-- Every path that a directive leads to names a file. -/
theorem LeadsTo.isFile {directory q : Path} {d : Directive} (h : c.LeadsTo directory d q) :
    c.source.isFile q = true := by
  cases hkind : d.kind with
  | require => exact (of_locate_eq_ok ((leadsTo_require hkind).1 h)).2
  | requireTree =>
    obtain ⟨_, _, _, _, _, hfile⟩ := mem_stylesheetsIn.1 ((leadsTo_requireTree hkind).1 h)
    exact hfile

theorem Includes.intro {p q r : Path} {text : Text} {d : Directive}
    (hread : c.source.read p = .ok text) (hd : d ∈ Directive.parse text)
    (hlead : c.LeadsTo p.directory d r) (hq : r.normalize = q) : c.Includes p q :=
  ⟨text, hread, d, hd, r, hlead, hq⟩

end Catalog

end StyleBundle
