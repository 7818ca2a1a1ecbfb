import Mathlib.Data.List.Nodup
import StyleBundle.Proofs.Expansion.Reads

/-!
# The order in which a tree in memory is put together

A tree in memory lists its entries in the order in which they were added.  No answer depends on
it: trees that are put together from the same files and directories in another order answer every
request in the same way (`Memory.run_addAll_of_perm`).

* Added files stand behind one another (`Memory.files_addAll`), so two orders give two orders of
  one list.
* At most one of them has a given path, so a look into the list finds the same file
  (`find?_eq_of_perm`).
* Stylesheets of one directory differ in their names, so sorting undoes the order of a listing.
-/

namespace StyleBundle

/-- A search for something that only one item has does not depend on the order of the items. -/
theorem find?_eq_of_perm {α : Type} {test : α → Bool} {first second : List α}
    (h : first.Perm second)
    (hunique : ∀ a ∈ first, ∀ b ∈ first, test a = true → test b = true → a = b) :
    first.find? test = second.find? test := by
  cases hfirst : first.find? test with
  | none =>
    rw [List.find?_eq_none] at hfirst
    exact (List.find?_eq_none.2 fun a ha => hfirst a (h.symm.subset ha)).symm
  | some a =>
    have ha := List.mem_of_find?_eq_some hfirst
    have htest := List.find?_some hfirst
    cases hsecond : second.find? test with
    | none => exact absurd htest (List.find?_eq_none.1 hsecond a (h.subset ha))
    | some b =>
      have hb := h.symm.subset (List.mem_of_find?_eq_some hsecond)
      rw [hunique a ha b hb htest (List.find?_some hsecond)]

namespace Memory

/-! ## Putting a tree together -/

/-- Something to be added to a tree. -/
inductive Addition where
  /-- A file with its text. -/
  | file (p : Path) (text : Text)
  /-- A directory. -/
  | directory (p : Path)

namespace Addition

/-- The file that is added. -/
def file? : Addition → Option (Path × Text)
  | file p text => some (p, text)
  | directory _ => none

/-- The directories that exist with the addition. -/
def directories : Addition → List Path
  | file p _ => (p.parent?.map Path.ancestors).getD []
  | directory p => p.ancestors

end Addition

/-- Adds a file or a directory. -/
def add (m : Memory) : Addition → Memory
  | .file p text => m.addFile p text
  | .directory p => m.addDirectory p

/-- Adds files and directories one after the other. -/
def addAll (m : Memory) (additions : List Addition) : Memory :=
  additions.foldl add m

/-- No two files of the tree and of the additions have the same path. -/
def Distinct (m : Memory) (additions : List Addition) : Prop :=
  ((m.files ++ additions.filterMap Addition.file?).map fun file => file.1.components).Nodup

variable {m : Memory} {first second additions : List Addition}

theorem addAll_cons (m : Memory) (x : Addition) (additions : List Addition) :
    m.addAll (x :: additions) = (m.add x).addAll additions := rfl

@[simp] theorem unreadable_addDirectory (m : Memory) (p : Path) :
    (m.addDirectory p).unreadable = m.unreadable := rfl

@[simp] theorem unlistable_addDirectory (m : Memory) (p : Path) :
    (m.addDirectory p).unlistable = m.unlistable := rfl

@[simp] theorem files_addDirectory (m : Memory) (p : Path) :
    (m.addDirectory p).files = m.files := rfl

/-- What is refused does not change. -/
theorem refused_add (m : Memory) (x : Addition) :
    (m.add x).unreadable = m.unreadable ∧ (m.add x).unlistable = m.unlistable := by
  cases x with
  | directory p => exact ⟨rfl, rfl⟩
  | file p text =>
    rw [add, addFile]
    cases p.parent? with
    | none => exact ⟨rfl, rfl⟩
    | some up => exact ⟨rfl, rfl⟩

theorem refused_addAll (m : Memory) (additions : List Addition) :
    (m.addAll additions).unreadable = m.unreadable ∧ (m.addAll additions).unlistable =
      m.unlistable := by
  induction additions generalizing m with
  | nil => exact ⟨rfl, rfl⟩
  | cons x additions ih =>
    rw [addAll_cons, (ih _).1, (ih _).2]
    exact refused_add m x

/-! ## Files -/

theorem files_add {x : Addition}
    (h : ∀ file ∈ m.files, ∀ added ∈ x.file?, file.1.components ≠ added.1.components) :
    (m.add x).files = m.files ++ x.file?.toList := by
  cases x with
  | directory p => exact (List.append_nil m.files).symm
  | file p text =>
    have hkept : m.files.filter (fun file => !p.same file.1) = m.files := by
      rw [List.filter_eq_self]
      intro file hfile
      have hne := h file hfile (p, text) rfl
      simp [Path.same, Ne.symm hne]
    change (m.addFile p text).files = m.files ++ [(p, text)]
    rw [addFile]
    cases p.parent? with
    | none => exact congrArg (· ++ [(p, text)]) hkept
    | some up => exact congrArg (· ++ [(p, text)]) hkept

/-- Added files stand behind the files that were there. -/
theorem files_addAll (h : m.Distinct additions) :
    (m.addAll additions).files = m.files ++ additions.filterMap Addition.file? := by
  induction additions generalizing m with
  | nil => exact (List.append_nil m.files).symm
  | cons x additions ih =>
    have hcons : (x :: additions).filterMap Addition.file? =
        x.file?.toList ++ additions.filterMap Addition.file? := by
      cases hx : x.file? with
      | none => rw [List.filterMap_cons_none hx, Option.toList_none, List.nil_append]
      | some file => rw [List.filterMap_cons_some hx, Option.toList_some, List.singleton_append]
    rw [Distinct, hcons, ← List.append_assoc] at h
    have hfiles : (m.add x).files = m.files ++ x.file?.toList := by
      apply files_add
      intro file hfile added hadded
      exact (List.pairwise_append.1 (List.pairwise_append.1 (List.pairwise_map.1 h)).1).2.2
        file hfile added (Option.mem_toList.2 hadded)
    rw [addAll_cons, ih (by rw [Distinct, hfiles]; exact h), hfiles, hcons, List.append_assoc]

/-! ## Directories -/

theorem isDirectory_addDirectory {p q : Path} : (m.addDirectory p).isDirectory q = true ↔
    m.isDirectory q = true ∨ ∃ a ∈ p.ancestors, a.text ≠ [] ∧ q.components = a.components := by
  simp only [isDirectory, addDirectory, Path.isIn_iff, List.mem_append, List.mem_filter]
  constructor
  · rintro ⟨a, ha | ⟨ha, htext⟩, hsame⟩
    · exact .inl ⟨a, ha, hsame⟩
    · rw [Bool.and_eq_true, decide_eq_true_iff] at htext
      exact .inr ⟨a, ha, htext.1, hsame⟩
  · rintro (⟨a, ha, hsame⟩ | ⟨a, ha, htext, hsame⟩)
    · exact ⟨a, .inl ha, hsame⟩
    · by_cases hin : a.isIn m.directories = true
      · obtain ⟨b, hb, hab⟩ := Path.isIn_iff.1 hin
        exact ⟨b, .inl hb, hsame.trans hab⟩
      · exact ⟨a, .inr ⟨ha, by simp [htext, hin]⟩, hsame⟩

theorem isDirectory_add {x : Addition} {q : Path} : (m.add x).isDirectory q = true ↔
    m.isDirectory q = true ∨ ∃ a ∈ x.directories, a.text ≠ [] ∧ q.components = a.components := by
  cases x with
  | directory p => exact isDirectory_addDirectory
  | file p text =>
    rw [add, addFile, Addition.directories]
    cases p.parent? with
    | none => simp [isDirectory]
    | some up => exact isDirectory_addDirectory

theorem isDirectory_addAll {q : Path} : (m.addAll additions).isDirectory q = true ↔
    m.isDirectory q = true ∨ ∃ x ∈ additions, ∃ a ∈ x.directories,
      a.text ≠ [] ∧ q.components = a.components := by
  induction additions generalizing m with
  | nil => simp [addAll]
  | cons x additions ih =>
    rw [addAll_cons, ih, isDirectory_add, or_assoc]
    simp only [List.mem_cons, exists_eq_or_imp]

/-! ## Stylesheets of a directory -/

/-- The stylesheets of a directory are found among the files alone, if no path is both a file and
a directory. -/
theorem stylesheetsIn_source (hkinds : ∀ p, m.isFile p = true → m.isDirectory p = false)
    (directory : Path) :
    Catalog.stylesheetsIn m.source directory =
      if m.isDirectory directory = true ∧ directory.isIn m.unlistable = false then
        ((m.files.map Prod.fst).filter (liesIn directory)).filter fun p =>
          Catalog.isTreeMember p && m.isFile p
      else [] := by
  have hnone : (m.directories.filter (liesIn directory)).filter (fun p =>
      Catalog.isTreeMember p && m.isFile p) = [] := by
    rw [List.filter_eq_nil_iff]
    intro p hp hfile
    rw [Bool.and_eq_true] at hfile
    have hdirectory : m.isDirectory p = true := Path.isIn_of_mem (List.mem_filter.1 hp).1
    rw [hkinds p hfile.2] at hdirectory
    cases hdirectory
  by_cases hdirectory : m.isDirectory directory = true
  · cases hunlistable : directory.isIn m.unlistable with
    | true =>
      have hlist : m.source.list directory = .error (.described "denied".toList) :=
        if_pos hunlistable
      rw [Catalog.stylesheetsIn, hlist]
      simp
    | false =>
      have hlist : m.source.list directory =
          .ok ((m.files.map Prod.fst ++ m.directories).filter (liesIn directory)) := by
        change m.list directory = _
        rw [list, hunlistable, hdirectory]
        rfl
      have hthere : m.source.isDirectory directory = true := hdirectory
      rw [if_pos ⟨hdirectory, rfl⟩, Catalog.stylesheetsIn, if_pos hthere, hlist]
      simp only [List.filter_append]
      exact (congrArg _ hnone).trans (List.append_nil _)
  · rw [if_neg fun h => hdirectory h.1]
    exact if_neg hdirectory

/-- Stylesheets of one directory with the same name have the same components. -/
theorem components_eq_of_leByName {directory p q : Path} (hp : liesIn directory p = true)
    (hq : liesIn directory q = true) (hpmember : Catalog.isTreeMember p = true)
    (hqmember : Catalog.isTreeMember q = true) (hpq : Catalog.leByName p q = true)
    (hqp : Catalog.leByName q p = true) : p.components = q.components := by
  obtain ⟨step, hstep⟩ := components_of_liesIn hp
  obtain ⟨step', hstep'⟩ := components_of_liesIn hq
  obtain ⟨name, hname⟩ := Catalog.getLast?_of_isTreeMember hpmember
  obtain ⟨name', hname'⟩ := Catalog.getLast?_of_isTreeMember hqmember
  have hfile : p.fileName? = some name := by rw [Path.fileName?, hname]
  have hfile' : q.fileName? = some name' := by rw [Path.fileName?, hname']
  rw [Catalog.leByName, hfile, hfile'] at hpq hqp
  obtain rfl : name = name' := Text.le_antisymm hpq hqp
  rw [hstep, List.getLast?_concat, Option.some.injEq] at hname
  rw [hstep', List.getLast?_concat, Option.some.injEq] at hname'
  rw [hstep, hstep', hname, hname']

/-! ## Two orders of one tree -/

/-- What a look into two trees finds, when they have the same files in two orders and the same
directories. -/
structure Rearranged (m m' : Memory) : Prop where
  files : m.files.Perm m'.files
  distinct : (m.files.map fun file => file.1.components).Nodup
  isDirectory : m.isDirectory = m'.isDirectory
  unreadable : m.unreadable = m'.unreadable
  unlistable : m.unlistable = m'.unlistable
  kinds : ∀ p, m.isFile p = true → m.isDirectory p = false

theorem rearranged_addAll (hperm : first.Perm second) (hdistinct : m.Distinct first)
    (hkinds : ∀ p, (m.addAll first).isFile p = true → (m.addAll first).isDirectory p = false) :
    Rearranged (m.addAll first) (m.addAll second) := by
  have hfilesPerm : (m.files ++ first.filterMap Addition.file?).Perm
      (m.files ++ second.filterMap Addition.file?) := (hperm.filterMap _).append_left m.files
  have hdistinct' : m.Distinct second := (hfilesPerm.map _).nodup_iff.1 hdistinct
  refine ⟨?_, ?_, ?_, ?_, ?_, hkinds⟩
  · rw [files_addAll hdistinct, files_addAll hdistinct']
    exact hfilesPerm
  · rw [files_addAll hdistinct]
    exact hdistinct
  · funext q
    rw [Bool.eq_iff_iff, isDirectory_addAll, isDirectory_addAll]
    simp only [hperm.mem_iff]
  · rw [(refused_addAll m first).1, (refused_addAll m second).1]
  · rw [(refused_addAll m first).2, (refused_addAll m second).2]

namespace Rearranged

variable {m' : Memory} (h : Rearranged m m')
include h

theorem isFile_eq : m.isFile = m'.isFile := by
  funext p
  exact h.files.any_eq

theorem read_eq : m.read = m'.read := by
  funext p
  have hfind : m.files.find? (fun file => p.same file.1) = m'.files.find? fun file =>
      p.same file.1 := by
    refine find?_eq_of_perm h.files fun a ha b hb hpa hpb => ?_
    exact List.inj_on_of_nodup_map h.distinct ha hb
      ((Path.same_iff.1 hpa).symm.trans (Path.same_iff.1 hpb))
  rw [read, read, h.unreadable, hfind]

theorem perm_stylesheetsIn (directory : Path) :
    (Catalog.stylesheetsIn m.source directory).Perm
      (Catalog.stylesheetsIn m'.source directory) := by
  have hkinds' : ∀ p, m'.isFile p = true → m'.isDirectory p = false := by
    rw [← h.isFile_eq, ← h.isDirectory]
    exact h.kinds
  rw [stylesheetsIn_source h.kinds, stylesheetsIn_source hkinds', h.isDirectory, h.unlistable,
    h.isFile_eq]
  split_ifs
  · exact ((h.files.map Prod.fst).filter _).filter _
  · exact .refl []

theorem membersByName_eq (directory : Path) :
    Catalog.membersByName m.source directory = Catalog.membersByName m'.source directory := by
  refine Catalog.membersByName_eq_of_perm (h.perm_stylesheetsIn directory)
    fun p hp q hq hpq hqp => ?_
  rw [stylesheetsIn_source h.kinds] at hp hq
  split_ifs at hp hq
  · simp only [List.mem_filter, List.mem_map, Bool.and_eq_true] at hp hq
    obtain ⟨⟨⟨file, hfile, rfl⟩, hlies⟩, hmember, _⟩ := hp
    obtain ⟨⟨⟨file', hfile', rfl⟩, hlies'⟩, hmember', _⟩ := hq
    have hsame := components_eq_of_leByName hlies hlies' hmember hmember' hpq hqp
    rw [List.inj_on_of_nodup_map h.distinct hfile hfile' hsame]
  · cases hp

theorem sameFiles : Catalog.SameFiles m.source m'.source where
  isFile_eq := h.isFile_eq
  members_eq := h.membersByName_eq
  read_eq p _ := congrFun h.read_eq p

end Rearranged

/-- A tree answers a request in the same way in whatever order it was put together, if no two
files have the same path and no path is both a file and a directory. -/
theorem run_addAll_of_perm (m : Memory) (hperm : first.Perm second) (hdistinct : m.Distinct first)
    (hkinds : ∀ p, (m.addAll first).isFile p = true → (m.addAll first).isDirectory p = false)
    (settings : Settings) (r : Request) :
    r.run ⟨settings, (m.addAll first).source⟩ = r.run ⟨settings, (m.addAll second).source⟩ := by
  have h := rearranged_addAll hperm hdistinct hkinds
  have hdepth : (Catalog.mk settings (m.addAll first).source).depth =
      (Catalog.mk settings (m.addAll second).source).depth := congrArg (· + 1) h.files.length_eq
  rw [Request.run_eq_runWithin, Request.run_eq_runWithin, hdepth]
  exact Request.runWithin_congr h.sameFiles _ fun p _ => congrFun h.read_eq p

/-! ### A directory that is filled in two orders -/

/-- No path is both a file and a directory if no file of the list is a directory. -/
theorem isDirectory_eq_false_of_files (h : ∀ file ∈ m.files, m.isDirectory file.1 = false)
    (p : Path) (hp : m.isFile p = true) : m.isDirectory p = false := by
  obtain ⟨file, hfile, hsame⟩ := List.any_eq_true.1 hp
  have hnot := h file hfile
  rw [isDirectory, Path.isIn, List.any_eq_false] at hnot ⊢
  intro directory hdirectory
  rw [Path.same, Path.same_iff.1 hsame]
  exact hnot directory hdirectory

/-- Two files and a directory with the name of a stylesheet. -/
def shelf : List Addition :=
  [.file ⟨"/s/b.scss".toList⟩ "B".toList, .directory ⟨"/s/c.scss".toList⟩,
    .file ⟨"/s/./a.scss".toList⟩ "//= require 'b'".toList]

/-- The two trees list the directory in different orders.  Its stylesheets come to the same. -/
theorem shelf_expands_alike :
    (empty.addAll shelf).list ⟨"/s".toList⟩ ≠ (empty.addAll shelf.reverse).list ⟨"/s".toList⟩ ∧
    (Request.tree "./".toList ⟨"/s".toList⟩).run ⟨Catalog.besideSettings,
      (empty.addAll shelf).source⟩ = (Request.tree "./".toList ⟨"/s".toList⟩).run
        ⟨Catalog.besideSettings, (empty.addAll shelf.reverse).source⟩ := by
  constructor
  · decide
  · refine run_addAll_of_perm empty (List.reverse_perm shelf).symm ?_ ?_ _ _
    · rw [Distinct]
      decide
    · apply isDirectory_eq_false_of_files
      decide

end Memory

end StyleBundle
