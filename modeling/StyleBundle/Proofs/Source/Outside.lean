import StyleBundle.Proofs.Expansion.Agreement
import StyleBundle.Proofs.Expansion.Reads
import StyleBundle.Proofs.FileTree.Alike

/-!
# Disks that change inside a directory

While a directory is written to, the cache of a disk may come to hold texts that its files do not
hold any more.  Outside of the directory the disk stays true to the tree that it started from
(`Disk.TrueTo`).

Two disks that are true to alike trees read the same texts there and list the same stylesheets
(`Disk.TrueTo.agreeOn`).  So they expand a file to the same, if neither expansion uses anything in
the directory and the first one uses no file that was changed (`Disk.TrueTo.expandFile_eq`).
-/

namespace StyleBundle

open FileTree Catalog

namespace Disk

variable {base p q directory : Path} {changed : List Location} {s s' : FileTree} {d d' : Disk}

/-! ## Stylesheets of a directory -/

theorem exists_names_of_list {t : FileTree} {entries : List Path}
    (h : t.list directory = .ok entries) :
    ∃ place, t.names directory = .ok (t.namesIn place) ∧
    entries = (t.namesIn place).map directory.push := by
  obtain ⟨names, hnames, hentries⟩ := bind_eq_ok_iff.1 h
  cases hentries
  obtain ⟨place, _, hplace⟩ := bind_eq_ok_iff.1 hnames
  split_ifs at hplace
  cases hplace
  exact ⟨place, hnames, rfl⟩

/-- A stylesheet is there in an alike tree too, if its path keeps clear. -/
private theorem mem_stylesheetsIn_of_alike (h : Alike base changed d.tree d'.tree)
    (hnamed : d.tree.WellNamed) (hq : q ∈ stylesheetsIn d.source directory)
    (hclear : base.KeepsClear q) : q ∈ stylesheetsIn d'.source directory := by
  obtain ⟨hdir, entries, hlist, hmem, hmember, hfile⟩ := mem_stylesheetsIn.1 hq
  obtain ⟨place, hnames, rfl⟩ := exists_names_of_list hlist
  obtain ⟨name, hname, rfl⟩ := List.mem_map.1 hmem
  have hisName := hnamed.isName_of_mem_namesIn hname
  have hpush := Path.components_push_name directory hisName
  have habs : directory.isAbsolute = true := by
    rw [Path.isAbsolute_iff_mem]
    simpa [hpush] using Path.isAbsolute_iff_mem.1 hclear.isAbsolute
  have habove := hclear.above habs (hpush ▸ List.prefix_append _ _)
  obtain ⟨names, hnames', hname'⟩ := h.exists_mem_names hisName hclear hnames hname
  refine mem_stylesheetsIn.2 ⟨(h.isDirectory_eq habove).trans hdir, names.map directory.push, ?_,
    List.mem_map_of_mem hname', hmember, (h.isFile_eq hclear).trans hfile⟩
  exact bind_eq_ok_iff.2 ⟨names, hnames', rfl⟩

theorem fileName?_push_name {name : Text} (h : Component.IsName name) :
    (directory.push name).fileName? = some name := by
  rw [Path.fileName?, Path.components_push_name directory h, List.getLast?_concat]

theorem nodup_stylesheetsIn (hnamed : d.tree.WellNamed) (hunique : d.tree.Unique)
    (directory : Path) : (stylesheetsIn d.source directory).Nodup := by
  rw [stylesheetsIn]
  split_ifs
  · cases hlist : d.source.list directory with
    | error cause => exact List.nodup_nil
    | ok entries =>
      obtain ⟨place, _, rfl⟩ := exists_names_of_list hlist
      refine List.Nodup.filter _ ?_
      refine (hunique.nodup_namesIn place).map_on fun name hname other hother hsame => ?_
      have hfile := congrArg Path.fileName? hsame
      rw [fileName?_push_name (hnamed.isName_of_mem_namesIn hname),
        fileName?_push_name (hnamed.isName_of_mem_namesIn hother)] at hfile
      exact Option.some.inj hfile
  · exact List.nodup_nil

/-- Stylesheets of one directory are told apart by their names. -/
theorem eq_of_leByName (hnamed : d.tree.WellNamed) (hp : p ∈ stylesheetsIn d.source directory)
    (hq : q ∈ stylesheetsIn d.source directory) (hpq : leByName p q = true)
    (hqp : leByName q p = true) :
    p = q := by
  obtain ⟨_, entries, hlist, hp, _⟩ := mem_stylesheetsIn.1 hp
  obtain ⟨_, entries', hlist', hq, _⟩ := mem_stylesheetsIn.1 hq
  obtain rfl : entries' = entries := Except.ok.inj (hlist'.symm.trans hlist)
  obtain ⟨place, _, rfl⟩ := exists_names_of_list hlist
  obtain ⟨name, hname, rfl⟩ := List.mem_map.1 hp
  obtain ⟨other, hother, rfl⟩ := List.mem_map.1 hq
  rw [leByName, fileName?_push_name (hnamed.isName_of_mem_namesIn hname),
    fileName?_push_name (hnamed.isName_of_mem_namesIn hother)] at hpq hqp
  obtain rfl : name = other := Text.le_antisymm hpq hqp
  rfl

/-- Alike trees have the same stylesheets in a directory, if the paths of all of them keep
clear. -/
private theorem membersByName_eq (h : Alike base changed d.tree d'.tree)
    (hnamed : d.tree.WellNamed) (hnamed' : d'.tree.WellNamed) (hunique : d.tree.Unique)
    (hunique' : d'.tree.Unique)
    (hclear : ∀ p ∈ membersByName d.source directory, base.KeepsClear p)
    (hclear' : ∀ p ∈ membersByName d'.source directory, base.KeepsClear p) :
    membersByName d.source directory = membersByName d'.source directory := by
  simp only [mem_membersByName] at hclear hclear'
  have hperm : (stylesheetsIn d.source directory).Perm (stylesheetsIn d'.source directory) := by
    refine (List.perm_ext_iff_of_nodup (nodup_stylesheetsIn hnamed hunique directory)
      (nodup_stylesheetsIn hnamed' hunique' directory)).2 fun q => ⟨fun hq => ?_, fun hq => ?_⟩
    · exact mem_stylesheetsIn_of_alike h hnamed hq (hclear q hq)
    · exact mem_stylesheetsIn_of_alike h.symm hnamed' hq (hclear' q hq)
  exact membersByName_eq_of_perm hperm fun p hp q hq => eq_of_leByName hnamed hp hq

/-! ## Disks that are true to a tree -/

/-- Outside of the base, the disk has the files of the tree, and remembers no other texts of
them. -/
structure TrueTo (base : Path) (s : FileTree) (d : Disk) : Prop where
  tree : SameOutside base s d.tree
  named : d.tree.WellNamed
  unique : d.tree.Unique
  cache : ∀ entry ∈ d.cache, base.KeepsClear entry.1 → s.read entry.1 = .ok entry.2

namespace TrueTo

theorem read_eq (h : d.TrueTo base s) (hway : HasWay base s) (hp : base.KeepsClear p)
    (hfile : d.tree.isFile p = true) : d.read p = s.read p := by
  have halike := h.tree.alike hway
  rw [read]
  cases hcached : d.cached? p with
  | none => exact halike.read_eq hp List.not_mem_nil
  | some text =>
    obtain ⟨q, hq, hsame⟩ := exists_mem_cache hcached
    have hread : s.read q = .ok text := h.cache _ hq (hp.congr hsame)
    have hfile' : s.isFile p = true := (halike.isFile_eq hp).symm.trans hfile
    rw [FileTree.read_congr hfile' (isFile_of_read hread) hsame, hread]

/-- What was read can be remembered. -/
theorem rememberAll (h : d.TrueTo base s) (hway : HasWay base s) {reads : List (Path × Text)}
    (hreads : ∀ entry ∈ reads, d.read entry.1 = .ok entry.2) :
    (d.rememberAll reads).TrueTo base s := by
  have htree := d.tree_rememberAll reads
  refine ⟨htree ▸ h.tree, htree ▸ h.named, htree ▸ h.unique, ?_⟩
  refine forall_mem_rememberAll hreads h.cache fun entry hread hclear => ?_
  rw [← (h.tree.alike hway).read_eq hclear List.not_mem_nil]
  exact hread

section Pair

variable (h : d.TrueTo base s) (h' : d'.TrueTo base s') (hway : HasWay base s)
  (hway' : HasWay base s') (halike : Alike base changed s s')
include h h' hway hway' halike

theorem alike : Alike base changed d.tree d'.tree :=
  ((h.tree.alike hway).mono (List.nil_subset _)).symm.trans
    (halike.trans ((h'.tree.alike hway').mono (List.nil_subset _)))

theorem agreeOn : AgreeOn base.KeepsClear d.source d'.source where
  isFile_eq _ hp := ((alike h h' hway hway' halike).isFile_eq hp).symm
  members_eq _ hclear hclear' :=
    membersByName_eq (alike h h' hway hway' halike) h.named h'.named h.unique
    h'.unique hclear hclear'

/-- A file that was not changed is read alike. -/
theorem read_eq_read (hp : base.KeepsClear p) (hfile : d.tree.isFile p = true)
    (hunchanged : p.place ∉ changed) : d.read p = d'.read p := by
  have hfile' : d'.tree.isFile p = true :=
    ((alike h h' hway hway' halike).isFile_eq hp).trans hfile
  rw [h.read_eq hway hp hfile, h'.read_eq hway' hp hfile', halike.read_eq hp hunchanged]

/-- A file that both disks expand expands to the same, if all that was used lies outside of the
base, and the first expansion used no file that was changed. -/
theorem expandFile_eq {settings : Settings} {e e' : Expanded} {session session' : Session}
    (hp : base.KeepsClear p) (hfile : d.tree.isFile p = true) (hunchanged : p.place ∉ changed)
    (hrun : (Catalog.mk settings d.source).expandFile p .start = .ok e session)
    (hrun' : (Catalog.mk settings d'.source).expandFile p .start = .ok e' session')
    (hclear : ∀ q ∈ e.dependencies, base.KeepsClear q ∧ q.place ∉ changed)
    (hclear' : ∀ q ∈ e'.dependencies, base.KeepsClear q) : e = e' := by
  refine eq_of_fileOutcome (agreeOn h h' hway hway' halike) (fileOutcome_of_expandFile hrun)
    (fileOutcome_of_expandFile hrun')
      (read_eq_read h h' hway hway' halike hp hfile hunchanged) ?_ ?_ ?_
  · intro q hq hin
    obtain ⟨r, hr, hsame⟩ := Path.isIn_iff.1 hin
    refine read_eq_read h h' hway hway' halike ((hclear r hr).1.congr hsame.symm) hq ?_
    rw [Path.place_congr hsame]
    exact (hclear r hr).2
  · intro q hin
    obtain ⟨r, hr, hsame⟩ := Path.isIn_iff.1 hin
    exact (hclear r hr).1.congr hsame.symm
  · intro q hin
    obtain ⟨r, hr, hsame⟩ := Path.isIn_iff.1 hin
    exact (hclear' r hr).congr hsame.symm

/-- The same of a file in its marker. -/
theorem bundleFile_eq {settings : Settings} {p' : Path} {e e' : Expanded}
    {session session' : Session} (hsame : p.components = p'.components)
    (hfile : d.tree.isFile p = true)
    (hrun : (Catalog.mk settings d.source).bundleFile p .start = .ok e session)
    (hrun' : (Catalog.mk settings d'.source).bundleFile p' .start = .ok e' session')
    (hclear : ∀ q ∈ e.dependencies, base.KeepsClear q ∧ q.place ∉ changed)
    (hclear' : ∀ q ∈ e'.dependencies, base.KeepsClear q) : e = e' := by
  obtain ⟨inner, after, hinner, hrest⟩ := exists_of_bind_ok hrun
  cases hrest
  obtain ⟨inner', after', hinner', hrest'⟩ := exists_of_bind_ok hrun'
  cases hrest'
  rw [← Path.normalize_congr hsame] at hinner' hclear' ⊢
  -- The file stands among the dependencies itself, so the conditions on these hold of it too.
  have hgood : ∀ q ∈ p.normalize :: inner.dependencies, base.KeepsClear q ∧
      q.place ∉ changed := by
    intro q hq
    obtain ⟨r, hr, hqr⟩ := Path.isIn_iff.1 (Path.isIn_dedup.2 (Path.isIn_of_mem hq))
    rw [Path.place_congr hqr]
    exact ⟨(hclear r hr).1.congr hqr.symm, (hclear r hr).2⟩
  have hgood' : ∀ q ∈ p.normalize :: inner'.dependencies, base.KeepsClear q := by
    intro q hq
    obtain ⟨r, hr, hqr⟩ := Path.isIn_iff.1 (Path.isIn_dedup.2 (Path.isIn_of_mem hq))
    exact (hclear' r hr).congr hqr.symm
  obtain ⟨hclear, hunchanged⟩ := hgood _ List.mem_cons_self
  have hinners : inner = inner' := expandFile_eq h h' hway hway' halike hclear
    (FileTree.read_normalize hfile).1 hunchanged hinner hinner'
    (fun q hq => hgood q (List.mem_cons_of_mem _ hq)) fun q hq =>
      hgood' q (List.mem_cons_of_mem _ hq)
  rw [hinners]

end Pair

end TrueTo

end Disk

end StyleBundle
