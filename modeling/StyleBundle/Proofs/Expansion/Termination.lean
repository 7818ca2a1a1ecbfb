import Mathlib.Data.Set.Card
import Mathlib.Data.Set.Finite.List
import StyleBundle.Proofs.Expansion.Request
import StyleBundle.Proofs.Resolve.Settings
import StyleBundle.Proofs.Source.Disk

/-!
# Expansion ends

The recursion without a limit ends on every request, with the result that is given in a session
(`Catalog.expansion_ends`).  A path in flight is the normal path of a file that can be read, apart
from the first one.  So the normal paths of files (`Source.normalPaths`) bound the paths in
flight, whatever the source answers.  They are finitely many where paths are short
(`Source.ReadsShort`), as in a file system with links.

How many normal paths a file has depends on the source (`Source.Counts`).

* A file in memory has one normal path.
* A file of a disk, which is a tree without symbolic links, has one normal path that is absolute.
  It has many that are relative: each may start with more steps up than the one before.

On a disk all paths in flight are absolute when the request starts from an absolute directory
(`Catalog.isAbsolute_of_leadsTo`).

`Unlimited.Notes` tells how many paths come into flight at least.
-/

namespace StyleBundle

/-! ## Short paths -/

/-- There are finitely many texts with few bytes. -/
theorem Text.finite_short (n : Nat) : {t : Text | t.byteLength < n}.Finite := by
  have hchars : Function.Injective fun c : Char => c.val.toFin := fun c c' h =>
    Char.ext (UInt32.toFin_inj.1 h)
  have : Finite Char := Finite.of_injective _ hchars
  refine (List.finite_length_lt Char n).subset fun t ht => ?_
  exact Nat.lt_of_le_of_lt (length_le_byteLength t) ht

theorem Path.finite_short (n : Nat) : {p : Path | p.text.byteLength < n}.Finite := by
  have hinjective : Function.Injective Path.text := by
    rintro ⟨_⟩ ⟨_⟩ rfl
    rfl
  exact (Text.finite_short n).preimage hinjective.injOn

/-! ## Counting files -/

namespace FileTree

variable {t : FileTree}

/-- Whether the entry is a file. -/
def isFileEntry (entry : Location × Node) : Bool :=
  match entry.2 with
  | .file _ => true
  | .directory => false

/-- The entries that are files. -/
def fileEntries (t : FileTree) : List (Location × Node) :=
  t.entries.filter isFileEntry

theorem mem_fileEntries {place : Location} {content : Content}
    (h : t.node? place = some (.file content)) : (place, .file content) ∈ t.fileEntries :=
  List.mem_filter.2 ⟨mem_entries_of_node? h, rfl⟩

/-- An absolute path that names a file ends in a name. -/
theorem getLast?_of_isFile {p : Path} (habs : p.isAbsolute = true) (h : t.isFile p = true) :
    ∃ name, p.normalize.components.getLast? = some (.normal name) := by
  obtain ⟨place, content, hlocate, hnode⟩ := exists_file_of_isFile h
  obtain ⟨names, _, hsteps⟩ := Path.exists_names_of_isAbsolute habs
  rw [hsteps, List.getLast?_cons, List.getLast?_map]
  cases hnames : names.getLast? with
  | some name => exact ⟨name, rfl⟩
  | none =>
    -- The root is a directory.
    rw [List.getLast?_eq_none_iff] at hnames
    rw [locate_eq_placeOf_normalize hlocate, hsteps, hnames] at hnode
    cases hnode

end FileTree

namespace Disk

variable {d : Disk}

/-- What a faithful disk reads, its tree reads by some spelling of the path. -/
theorem Faithful.exists_read (h : d.Faithful) {p : Path} {text : Text}
    (hread : d.read p = .ok text) :
    ∃ q, q.components = p.components ∧ d.tree.read q = .ok text := by
  rw [read] at hread
  cases hcached : d.cached? p with
  | none =>
    rw [hcached] at hread
    exact ⟨p, rfl, hread⟩
  | some cachedText =>
    rw [hcached] at hread
    cases hread
    obtain ⟨q, hq, hcomponents⟩ := exists_mem_cache hcached
    exact ⟨q, hcomponents.symm, h _ hq⟩

theorem Faithful.normalize_eq_spelling (h : d.Faithful) {p : Path} {text : Text}
    (hread : d.read p = .ok text) :
    ∃ entry ∈ d.tree.fileEntries, ∃ ups < FileTree.pathLimit,
      (p.isAbsolute = true → ups = 0) ∧ d.tree.spelling entry.1 ups = p.normalize := by
  obtain ⟨q, hcomponents, hq⟩ := h.exists_read hread
  obtain ⟨place, ups, hnode, hups, habs, hspelling⟩ := FileTree.normalize_eq_spelling hq
  refine ⟨_, FileTree.mem_fileEntries hnode, ups, hups, ?_, ?_⟩
  · rw [← Path.isAbsolute_congr hcomponents]
    exact habs
  · rw [hspelling, Path.normalize_congr hcomponents]

end Disk

namespace Source

variable {s : Source}

/-- The normal paths of the files that can be read. -/
def normalPaths (s : Source) : Set Path :=
  {q | ∃ p text, s.read p = .ok text ∧ p.normalize = q}

/-- Every path that can be read has a short spelling.  A file system reads no other paths, also
where links give a file many paths. -/
def ReadsShort (s : Source) : Prop :=
  ∀ p text, s.read p = .ok text →
    ∃ q : Path, q.components = p.components ∧ q.text.byteLength < FileTree.pathLimit

theorem ReadsShort.finite_normalPaths (h : s.ReadsShort) : s.normalPaths.Finite := by
  refine ((Path.finite_short FileTree.pathLimit).image Path.normalize).subset ?_
  rintro _ ⟨p, text, hread, rfl⟩
  obtain ⟨q, hcomponents, hshort⟩ := h p text hread
  exact ⟨q, hshort, Path.normalize_congr hcomponents⟩

/-- The number of files of an unchanging source, and how many normal paths a file has at most. -/
inductive Counts : Source → Nat → Nat → Prop
  /-- A tree in memory compares paths by their components. -/
  | memory (m : Memory) : Counts m.source m.files.length 1
  /-- On a disk, which has no symbolic links, the normal paths of a file differ in their leading
  steps up. -/
  | disk (d : Disk) (h : d.Faithful) :
    Counts d.source d.tree.fileEntries.length FileTree.pathLimit

/-- A disk is asked for short paths alone, and its cache holds what it was asked for. -/
theorem readsShort_of_faithful {d : Disk} (h : d.Faithful) : d.source.ReadsShort := by
  intro p text hread
  obtain ⟨q, hcomponents, hq⟩ := h.exists_read hread
  obtain ⟨place, hlocate, _⟩ := FileTree.exists_file_of_read hq
  exact ⟨q, hcomponents, (FileTree.follows_of_locate hlocate).1.short⟩

theorem Counts.lawful {files spellings : Nat} (h : s.Counts files spellings) : s.Lawful := by
  cases h with
  | memory m => exact m.lawful_source
  | disk d _ => exact d.lawful_source

end Source

/-! ## Room for the files -/

namespace Catalog

open Expansion

variable {c : Catalog}

theorem room_of_paths {s : Source} {paths : List Path}
    (h : ∀ p text, s.read p = .ok text → p.normalize ∈ paths) : Room s .empty paths.length := by
  intro chain hchain hne
  refine length_le_of_injective_key (fun p hp => ?_) hne
  obtain ⟨text, hread⟩ := (hchain p hp).1
  exact h p text hread

/-- There is room for as many files as there are normal paths of files. -/
theorem room_of_finite {s : Source} (h : s.normalPaths.Finite) :
    Room s .empty s.normalPaths.ncard := by
  have hmem : ∀ p text, s.read p = .ok text → p.normalize ∈ h.toFinset.toList := by
    intro p text hread
    rw [Finset.mem_toList, h.mem_toFinset]
    exact ⟨p, text, hread, rfl⟩
  have hroom := room_of_paths hmem
  rwa [Finset.length_toList, ← Set.ncard_eq_toFinset_card _ h] at hroom

theorem room_of_counts {s : Source} {files spellings : Nat} (h : s.Counts files spellings) :
    Room s .empty (files * spellings) := by
  cases h with
  | memory m =>
    rw [Nat.mul_one]
    exact room_empty m.lawful_source
  | disk d hd =>
    have hroom : Room d.source .empty (d.tree.fileEntries.flatMap fun entry =>
        (List.range FileTree.pathLimit).map (d.tree.spelling entry.1)).length := by
      refine room_of_paths fun p text hread => ?_
      obtain ⟨entry, hentry, ups, hups, _, hspelling⟩ := hd.normalize_eq_spelling hread
      refine List.mem_flatMap.2 ⟨entry, hentry, List.mem_map.2 ?_⟩
      exact ⟨ups, List.mem_range.2 hups, hspelling⟩
    simpa [List.length_flatMap] using hroom

/-- Absolute paths take one place for each file. -/
theorem room_of_counts_absolute {s : Source} {files spellings : Nat}
    (h : s.Counts files spellings) : Room (s.only Path.isAbsolute) .empty files := by
  cases h with
  | memory m => exact (room_empty m.lawful_source).only _
  | disk d hd =>
    have hroom : Room (d.source.only Path.isAbsolute) .empty
        (d.tree.fileEntries.map fun entry => d.tree.spelling entry.1 0).length := by
      refine room_of_paths fun p text hread => ?_
      obtain ⟨habs, hread⟩ := Source.only_read_eq_ok hread
      obtain ⟨entry, hentry, ups, _, hzero, hspelling⟩ := hd.normalize_eq_spelling hread
      rw [hzero habs] at hspelling
      exact List.mem_map.2 ⟨entry, hentry, hspelling⟩
    rwa [List.length_map] at hroom

/-! ## Absolute paths lead to absolute paths -/

/-- From an absolute directory of a disk every directive leads to an absolute path. -/
theorem isAbsolute_of_leadsTo {disk : Disk} (hsource : c.source = disk.source)
    (hbuilt : c.settings.Built) {directory q : Path} {d : Directive}
    (hdir : directory.isAbsolute = true) (h : c.LeadsTo directory d q) : q.isAbsolute = true := by
  cases hkind : d.kind with
  | require =>
    obtain ⟨_, start, hstart, pieces, rfl⟩ := exists_start_of_locate ((leadsTo_require hkind).1 h)
    rw [Path.isAbsolute_normalize]
    apply Path.isAbsolute_foldl_push
    rw [searchRoots, List.mem_cons, List.cons_append, List.mem_cons] at hstart
    rcases hstart with rfl | rfl | hstart
    · exact hbuilt.isAbsolute List.mem_cons_self
    · exact hdir
    · exact hbuilt.isAbsolute (List.mem_cons_of_mem _ hstart)
  | requireTree =>
    rw [leadsTo_requireTree hkind, hsource, mem_stylesheetsIn] at h
    obtain ⟨_, entries, hlist, hmem, _⟩ := h
    obtain ⟨names, _, hentries⟩ := bind_eq_ok_iff.1 hlist
    cases hentries
    obtain ⟨name, _, rfl⟩ := List.mem_map.1 hmem
    apply Path.isAbsolute_push
    rw [treeDirectory, Path.isAbsolute_normalize]
    exact Path.isAbsolute_push hdir _

theorem encloses_isAbsolute {disk : Disk} (hsource : c.source = disk.source)
    (hfaithful : disk.Faithful) (hbuilt : c.settings.Built) : c.Encloses Path.isAbsolute := by
  intro p text hp hread d r hlead
  refine isAbsolute_of_leadsTo hsource hbuilt ?_ hlead
  rw [hsource] at hread
  obtain ⟨q, hcomponents, hq⟩ := hfaithful.exists_read hread
  rw [← Path.isAbsolute_congr hcomponents] at hp
  obtain ⟨name, hname⟩ := FileTree.getLast?_of_isFile hp (FileTree.isFile_of_read hq)
  rw [← Path.normalize_congr hcomponents]
  exact Path.isAbsolute_directory (by rwa [Path.isAbsolute_normalize]) hname

/-! ## The recursion ends -/

open Unlimited

variable {files spellings : Nat}

theorem ends_runFreely_of_room {n : Nat} (hroom : Room c.source .empty n) (r : Request) :
    Ends (r.runFreely c .empty) (outcome (r.runWithin c (n + 1)) .empty) (n + 1) := by
  have hends := Request.ends_runFreely (encloses_all c) (hroom.only _) (r := r) fun _ _ _ => rfl
  rwa [InFlight.size_empty, Nat.zero_add] at hends

/-- A session gives the result with which the recursion ends. -/
theorem exists_run_of_ends {r : Request} {result : Except ResolveError Expanded} {bound : Nat}
    (hlawful : c.source.Lawful) (h : Ends (r.runFreely c .empty) result bound) :
    ∃ s, r.run c .start = answer result s := by
  have hresult := (Request.ends_run hlawful (Nat.le_refl _) r).result_unique h
  obtain ⟨reads, hanswer⟩ := Request.framed_run c r .start
  rw [← hresult]
  exact ⟨_, hanswer⟩

theorem ends_runFreely_of_isAbsolute (hbuilt : c.settings.Built)
    (hcounts : c.source.Counts files spellings) {r : Request}
    (hdir : r.directory.isAbsolute = true) :
    Ends (r.runFreely c .empty) (outcome (r.runWithin c (files + 1)) .empty) (files + 1) := by
  generalize hsource : c.source = source at hcounts
  cases hcounts with
  | memory m =>
    have hroom : Room c.source .empty m.files.length := by
      rw [hsource]
      exact room_empty m.lawful_source
    exact ends_runFreely_of_room hroom r
  | disk d hd =>
    have hroom := room_of_counts_absolute (.disk d hd)
    rw [← hsource] at hroom
    have hends := Request.ends_runFreely (encloses_isAbsolute hsource hd hbuilt) hroom
      (r := r) fun _ _ hlead => isAbsolute_of_leadsTo hsource hbuilt hdir hlead
    rwa [InFlight.size_empty, Nat.zero_add] at hends

/-- The recursion without a limit ends on every request, with the result of a session.

A path in flight is the normal path of a file, apart from the first one.  This bounds the paths in
flight for every source whose files have finitely many normal paths, and so for every source whose
paths are short.  A file in memory has one normal path.  A file of a disk, which has no symbolic
links, has one that is absolute, and only this one comes into flight if the request starts from an
absolute directory. -/
theorem expansion_ends (c : Catalog) (r : Request) :
    (c.source.ReadsShort → c.source.normalPaths.Finite) ∧
      (c.source.normalPaths.Finite → ∃ result peak,
        r.runFreely c .empty 0 = some (result, peak) ∧ peak ≤ c.source.normalPaths.ncard + 1 ∧
          (c.source.Lawful → ∃ s, r.run c .start = answer result s)) ∧
      ∀ files spellings, c.source.Counts files spellings → ∃ result peak s,
        r.runFreely c .empty 0 = some (result, peak) ∧ r.run c .start = answer result s ∧
          peak ≤ files * spellings + 1 ∧
          (c.settings.Built → r.directory.isAbsolute = true → peak ≤ files + 1) := by
  refine ⟨fun hshort => hshort.finite_normalPaths, fun hfinite => ?_,
    fun files spellings hcounts => ?_⟩
  · have hends := ends_runFreely_of_room (room_of_finite hfinite) r
    obtain ⟨peak, hrun, _⟩ := hends 0
    exact ⟨_, peak, hrun, hends.peak_le hrun, fun hlawful => exists_run_of_ends hlawful hends⟩
  · have hends := ends_runFreely_of_room (room_of_counts hcounts) r
    obtain ⟨peak, hrun, _⟩ := hends 0
    obtain ⟨s, hanswer⟩ := exists_run_of_ends hcounts.lawful hends
    refine ⟨_, peak, s, hrun, hanswer, hends.peak_le hrun, fun hbuilt hdir => ?_⟩
    exact (ends_runFreely_of_isAbsolute hbuilt hcounts hdir).peak_le hrun

end Catalog

/-! ## How many paths come into flight at least -/

namespace Unlimited

variable {α β : Type} {n : Nat}

/-- The step brings `n` paths into flight: it ends as if so many had been there before. -/
def Notes (step : Unlimited α) (n : Nat) : Prop :=
  ∀ peak, step (max peak n) = step peak

theorem notes_note (n : Nat) : Notes (note n) n := by
  intro peak
  rw [note, note, Nat.max_assoc, Nat.max_self]

theorem Notes.bind {step : Unlimited α} (h : Notes step n) (next : α → Unlimited β) :
    Notes (step >>= next) n := by
  intro peak
  change (step (max peak n) >>= _) = (step peak >>= _)
  rw [h peak]

theorem Notes.of_ofExcept {next : α → Unlimited β} {a : α} (h : Notes (next a) n) :
    Notes (ofExcept (.ok a) >>= next) n :=
  h

theorem Notes.after_note {next : Unlimited α} (h : Notes next n) {count : Nat} :
    Notes (note count >>= fun _ => next) n := by
  intro peak
  change next (max (max peak n) count) = next (max peak count)
  rw [Nat.max_right_comm, h]

theorem Ends.notes {step : Unlimited α} {result : Except ResolveError α} {bound : Nat}
    (h : Ends step result bound) (hnotes : Notes step n) :
    ∃ peak, step 0 = some (result, peak) ∧ n ≤ peak := by
  obtain ⟨peak, hrun, hle, _⟩ := h (max 0 n)
  rw [hnotes] at hrun
  exact ⟨peak, hrun, by omega⟩

end Unlimited

namespace Catalog

open Expansion Unlimited

variable {c : Catalog}

/-- A file that is not in flight comes into flight. -/
theorem notes_includeFreely_of_read {flight : InFlight} {p : Path} {text : Text}
    (hread : c.source.read p = .ok text) (hcontains : flight.contains p.normalize = false) :
    Notes (c.includeFreely p flight) (flight.size + 1) := by
  rw [includeFreely.eq_def, hread]
  refine Notes.bind (Notes.of_ofExcept ?_) _
  rw [expandFreely.eq_def, InFlight.enter?_of_not_contains hcontains]
  exact (notes_note _).bind _

/-- The file that a text asks for first comes into flight after the file of the text. -/
theorem notes_includeFreely_of_require {flight : InFlight} {p q : Path} {text : Text}
    {d : Directive} {others : List Directive} {n : Nat} (hread : c.source.read p = .ok text)
    (hcontains : flight.contains p.normalize = false)
    (hfirst : ofKind .require (Directive.parse text) = d :: others) (hkind : d.kind = .require)
    (hq : c.locate d.target p.normalize.directory = .ok q)
    (h : Notes (c.includeFreely q (entered flight p)) n) :
    Notes (c.includeFreely p flight) n := by
  have hcontribute : Notes (c.contributeFreely d p.normalize.directory (entered flight p)) n := by
    rw [contributeFreely.eq_def, hkind, hq]
    exact (Notes.of_ofExcept h).bind _
  have hfiles : Notes ((ofKind .require (Directive.parse text)).mapM fun d =>
      c.contributeFreely d p.normalize.directory (entered flight p)) n := by
    rw [hfirst, List.mapM_cons]
    exact hcontribute.bind _
  rw [includeFreely.eq_def, hread]
  refine Notes.bind (Notes.of_ofExcept ?_) _
  rw [expandFreely.eq_def, InFlight.enter?_of_not_contains hcontains]
  exact Notes.after_note (hfiles.bind _)

/-! ### One file with many normal paths -/

/-- A file that asks for itself by way of the root.  Its path climbs one step further each
time. -/
def climbingDisk : Disk where
  tree :=
    { entries := [(["r".toList], .directory),
        (["r".toList, "a.scss".toList], .file (.text "//= require '../../r/a.scss'".toList))]
      workingDirectory := ["r".toList] }
  cache := []

/-- The file with settings that have a root and nothing else. -/
def climbing : Catalog where
  settings :=
    { root := ⟨"/r".toList⟩, includePaths := [], fallbackDirs := [], aliases := [],
      mappings := [], ignorePartials := false }
  source := climbingDisk.source

private theorem climbing_built : climbing.settings.Built :=
  ⟨⟨⟨"/r".toList⟩, [], [], [], [], false⟩, by decide⟩

private theorem climbing_faithful : climbingDisk.Faithful :=
  fun _ h => absurd h List.not_mem_nil

private theorem climbing_counts : climbing.source.Counts 1 FileTree.pathLimit :=
  .disk climbingDisk climbing_faithful

private theorem climbing_readsShort : climbing.source.ReadsShort :=
  Source.readsShort_of_faithful climbing_faithful

/-- From an absolute path the file comes back to that path at once. -/
theorem climbing_ends :
    climbing.source.ReadsShort ∧ climbing.settings.Built ∧
      climbing.source.Counts 1 FileTree.pathLimit ∧
      ∃ result peak s,
        (Request.file ⟨"/r/a.scss".toList⟩).runFreely climbing .empty 0 = some (result, peak) ∧
          (Request.file ⟨"/r/a.scss".toList⟩).run climbing .start = answer result s ∧ peak ≤ 2 ∧
            peak ≤ climbing.source.normalPaths.ncard + 1 := by
  refine ⟨climbing_readsShort, climbing_built, climbing_counts, ?_⟩
  obtain ⟨hfinite, hends, hcounted⟩ := expansion_ends climbing (.file ⟨"/r/a.scss".toList⟩)
  obtain ⟨result, peak, hfree, hpaths, hrun⟩ := hends (hfinite climbing_readsShort)
  obtain ⟨s, hrun⟩ := hrun climbingDisk.lawful_source
  obtain ⟨_, _, _, hfree', _, _, hpeak⟩ := hcounted 1 FileTree.pathLimit climbing_counts
  rw [hfree] at hfree'
  cases hfree'
  exact ⟨result, peak, s, hfree, hrun, hpeak climbing_built (by decide), hpaths⟩

private theorem climbing_step {p q : Path} {flight : InFlight} {n : Nat}
    (hread : climbing.source.read p = .ok "//= require '../../r/a.scss'".toList)
    (hcontains : flight.contains p.normalize = false)
    (hq : climbing.locate "../../r/a.scss".toList p.normalize.directory = .ok q)
    (h : Notes (climbing.includeFreely q (entered flight p)) n) :
    Notes (climbing.includeFreely p flight) n := by
  have hfirst : ofKind .require (Directive.parse "//= require '../../r/a.scss'".toList) =
      [⟨.require, "../../r/a.scss".toList, "//= require '../../r/a.scss'".toList, 0⟩] := by decide
  exact notes_includeFreely_of_require hread hcontains hfirst rfl hq h

/-- From a relative path three normal paths of the one file are in flight. -/
theorem climbing_exceeds :
    climbing.settings.Built ∧ climbing.source.Counts 1 FileTree.pathLimit ∧
      ∃ result peak,
        (Request.file ⟨"a.scss".toList⟩).runFreely climbing .empty 0 = some (result, peak) ∧
          3 ≤ peak := by
  have hnotes : Notes ((Request.file ⟨"a.scss".toList⟩).runFreely climbing .empty) 3 := by
    refine Notes.bind ?_ _
    refine climbing_step (q := ⟨"../../r/a.scss".toList⟩) (by decide) (by decide) (by decide) ?_
    refine climbing_step (q := ⟨"../../../r/a.scss".toList⟩) (by decide) (by decide)
      (by decide) ?_
    have hread : climbing.source.read ⟨"../../../r/a.scss".toList⟩ =
        .ok "//= require '../../r/a.scss'".toList := by decide
    exact notes_includeFreely_of_read hread (by decide)
  obtain ⟨peak, hrun, hpeak⟩ :=
    (ends_runFreely_of_room (room_of_counts climbing_counts) _).notes hnotes
  exact ⟨climbing_built, climbing_counts, _, peak, hrun, hpeak⟩

end Catalog

end StyleBundle
