import StyleBundle.Proofs.Build.Discovery
import StyleBundle.Proofs.Glob.Agreement

/-!
# Entries and members of groups

The stylesheets that are built on their own are those of the directory that no group has as a
member (`Discovery.entries_eq_filter_members`).  Whether a stylesheet is an entry is decided by
matching its relative path, and the members of a group are found by following its patterns, so
this rests on the agreement of the two (`Discovery.LiesAt.accepts_iff`).
-/

namespace StyleBundle

namespace Discovery

open Component

variable {d : Discovery} {tree : FileTree} {p q : Path} {names : List Text}

/-! ## Where stylesheets lie -/

/-- The names lead to the path from the directory of the stylesheets. -/
structure LiesAt (d : Discovery) (tree : FileTree) (p : Path) (names : List Text) : Prop where
  names_ne_nil : names ≠ []
  leads : Glob.Leads tree (Glob.entrance d.stylesDir) names
  short : names.length ≤ tree.entries.length + 1
  eq_foldl : p = names.foldl Glob.child (Glob.entrance d.stylesDir)

section Firm

variable (hnamed : tree.WellNamed) (hdir : Glob.Firm d.stylesDir)
include hnamed

theorem LiesAt.plain (h : d.LiesAt tree p names) : ∀ name ∈ names, Glob.Plain name := by
  intro name hname
  obtain ⟨hisName, hvisible⟩ := h.leads.isName hnamed name hname
  exact ⟨hisName.ne_nil, hisName.one_piece, hvisible⟩

include hdir

theorem LiesAt.adds (h : d.LiesAt tree p names) :
    p = names.foldl Path.push (Glob.entrance d.stylesDir) ∧
      p.components = d.stylesDir.components ++ names.map .normal := by
  obtain ⟨hfirm, hcomponents⟩ := Glob.firm_entrance hdir.text_ne_nil hdir.current_notMem
  have heq := h.eq_foldl.trans (h.leads.adds hnamed hfirm).1.eq_foldl
  refine ⟨heq, ?_⟩
  rw [heq, Path.components_foldl_push_names fun name hname =>
    (h.leads.isName hnamed name hname).1, hcomponents]

/-- Seen from the directory of the stylesheets, the names are joined by slashes. -/
theorem LiesAt.text_relative (h : d.LiesAt tree p names) :
    (d.relative p).text = Text.joinWith ['/'] names := by
  obtain ⟨hfirm, hcomponents⟩ := Glob.firm_entrance hdir.text_ne_nil hdir.current_notMem
  rw [relative, (h.adds hnamed hdir).1,
    Path.stripPrefix?_foldl_push hcomponents.symm hfirm.text_ne_nil hfirm.current_notMem
      (fun name hname => (h.leads.isName hnamed name hname).1) h.names_ne_nil]
  rfl

theorem LiesAt.eq_of_components {others : List Text} (hp : d.LiesAt tree p names)
    (hq : d.LiesAt tree q others) (h : p.components = q.components) : p = q := by
  rw [(hp.adds hnamed hdir).2, (hq.adds hnamed hdir).2] at h
  have hnames : names = others := by
    have hmap := List.append_cancel_left h
    exact List.map_injective_iff.2 (fun _ _ => Component.normal.inj) hmap
  rw [hp.eq_foldl, hq.eq_foldl, hnames]

end Firm

/-! ## What patterns find -/

/-- In the directory of the stylesheets, a pattern finds what its steps lead to.  Nothing is found
if the directory is not there. -/
def Finds (d : Discovery) (tree : FileTree) (there : Bool) : Prop :=
  ∀ (pattern : Text) (parts : List (List Glob.Token)),
    (Glob.pieces pattern).mapM Glob.tokens = .ok parts →
    ∃ paths, d.find tree pattern = .ok paths ∧ ∀ q, q ∈ paths ↔ there = true ∧
      q ∈ Glob.follow tree (('/' :: pattern).getLast? = some '/')
        (Glob.collapse (parts.map Glob.stepOf)) (Glob.entrance d.stylesDir)

theorem find_eq_ok_iff_display {pattern : Text} {paths : List Path} :
    d.find tree pattern = .ok paths ↔
      Glob.find tree (Glob.escape d.stylesDir.display ++ '/' :: pattern) = .ok paths := by
  rw [find]
  split
  · rename_i found hfound
    rw [hfound]
    simp
  · rename_i cause hcause
    rw [hcause]
    simp

theorem find_eq_ok_iff (hback : '\\' ∉ d.stylesDir.text) {pattern : Text} {paths : List Path} :
    d.find tree pattern = .ok paths ↔
      Glob.find tree (Glob.escape d.stylesDir.text ++ '/' :: pattern) = .ok paths := by
  rw [find_eq_ok_iff_display, Path.display, Text.slashed_of_notMem hback]

theorem exists_finds (tree : FileTree) (hdir : Glob.Firm d.stylesDir)
    (hback : '\\' ∉ d.stylesDir.text) :
    ∃ there, d.Finds tree there := by
  obtain ⟨there, hthere⟩ := Glob.exists_find_below tree hdir.text_ne_nil
  refine ⟨there, fun pattern parts hparts => ?_⟩
  obtain ⟨paths, hpaths, hmem⟩ := hthere pattern parts hparts
  exact ⟨paths, (find_eq_ok_iff hback).2 hpaths, hmem⟩

theorem Finds.mem_iff {there : Bool} (h : d.Finds tree there) (hdir : Glob.Firm d.stylesDir)
    (hback : '\\' ∉ d.stylesDir.text) {pattern : Text} {paths : List Path}
    (hpaths : d.find tree pattern = .ok paths) :
    ∃ parts, (Glob.pieces pattern).mapM Glob.tokens = .ok parts ∧
      ∀ q, q ∈ paths ↔ there = true ∧ q ∈ Glob.follow tree (('/' :: pattern).getLast? = some '/')
        (Glob.collapse (parts.map Glob.stepOf)) (Glob.entrance d.stylesDir) := by
  obtain ⟨parts, hparts⟩ :=
    Glob.exists_parts_of_find hdir.text_ne_nil ((find_eq_ok_iff hback).1 hpaths)
  obtain ⟨paths', hpaths', hmem⟩ := h pattern parts hparts
  obtain rfl : paths' = paths := Except.ok.inj (hpaths'.symm.trans hpaths)
  exact ⟨parts, hparts, hmem⟩

private theorem hasEntry_of_isFile (h : tree.isFile p = true) : tree.hasEntry p = true := by
  obtain ⟨place, content, hplace, hnode⟩ := FileTree.exists_file_of_isFile h
  rw [FileTree.hasEntry, FileTree.lookup_of_locate hplace hnode]

private theorem not_isFile_of_isDirectory (h : tree.isDirectory p = true) :
    ¬ tree.isFile p = true := by
  intro hfile
  obtain ⟨place, content, hplace, hnode⟩ := FileTree.exists_file_of_isFile hfile
  rw [FileTree.isDirectory, FileTree.lookup_of_locate hplace hnode] at h
  cases h

/-- Steps that lead to a path with the components of a stylesheet lead to the stylesheet itself,
by taking its names. -/
private theorem LiesAt.of_mem_follow (hnamed : tree.WellNamed) (hdir : Glob.Firm d.stylesDir)
    (h : d.LiesAt tree p names) {steps : List Glob.Step} (hsteps : ∀ step ∈ steps, step.Advances)
    {directoriesOnly : Bool}
    (hq : q ∈ Glob.follow tree directoriesOnly steps (Glob.entrance d.stylesDir))
    (hsame : p.components = q.components) : q = p ∧ Glob.covers steps names = true := by
  obtain ⟨hfirm, hcomponents⟩ := Glob.firm_entrance hdir.text_ne_nil hdir.current_notMem
  obtain ⟨hp, hnames⟩ := h.adds hnamed hdir
  obtain ⟨taken, hadds, hcovers⟩ := Glob.exists_adds_of_mem_follow hnamed hfirm hsteps hq
  have htaken : taken = names := by
    apply Glob.eq_of_filterMap_eq fun piece hpiece => (hadds.counts piece hpiece).2
    obtain ⟨_, _, hfold⟩ := hfirm.foldl_child fun piece hpiece => (hadds.counts piece hpiece).1
    rw [hnames, hadds.eq_foldl, hfold, hcomponents] at hsame
    exact (List.append_cancel_left hsame).symm
  rw [htaken] at hadds hcovers
  exact ⟨hadds.eq_foldl.trans hp.symm, hcovers⟩

/-- A stylesheet matches a pattern exactly if the pattern finds it, and then the pattern finds it
under one spelling. -/
theorem LiesAt.accepts_iff (hnamed : tree.WellNamed) (hdir : Glob.Firm d.stylesDir)
    (hback : '\\' ∉ d.stylesDir.text) (hfinds : d.Finds tree true) (h : d.LiesAt tree p names)
    (hfile : tree.isFile p = true) {pattern : Text} (hpattern : Glob.Canonical pattern)
    {read : List Glob.Token} (hread : Glob.tokens pattern = .ok read) {paths : List Path}
    (hpaths : d.find tree pattern = .ok paths) :
    (Glob.accepts read (Text.joinWith ['/'] names) = true ↔ p ∈ paths) ∧
      ∀ q ∈ paths, p.components = q.components → q = p := by
  obtain ⟨parts, hparts, hmem⟩ := hfinds.mem_iff hdir hback hpaths
  have hadvances := hpattern.advances hparts
  refine ⟨?_, fun q hq hsame => (h.of_mem_follow hnamed hdir hadvances ((hmem q).1 hq).2 hsame).1⟩
  rw [hpattern.accepts_eq_covers hparts hread h.names_ne_nil (h.plain hnamed), Bool.and_eq_true,
    decide_eq_true_iff, hmem]
  constructor
  · rintro ⟨hend, hcovers⟩
    have hentry := hasEntry_of_isFile hfile
    rw [h.eq_foldl] at hentry
    have hfollow := Glob.mem_follow_of_covers (hpattern.separated hparts) hcovers h.leads
      h.short hentry
    rw [← h.eq_foldl] at hfollow
    rw [decide_eq_false hend]
    exact ⟨rfl, hfollow⟩
  · rintro ⟨_, hfollow⟩
    refine ⟨fun hend => ?_, (h.of_mem_follow hnamed hdir hadvances hfollow rfl).2⟩
    rw [decide_eq_true hend] at hfollow
    exact not_isFile_of_isDirectory (Glob.isDirectory_of_mem_follow hfollow) hfile

/-! ## Entries -/

theorem mem_findAll_iff {patterns : List Text} {found : List Path}
    (h : d.findAll tree patterns = .ok found) :
    p ∈ found ↔ ∃ pattern ∈ patterns, ∃ paths, d.find tree pattern = .ok paths ∧ p ∈ paths := by
  refine ⟨exists_find_of_mem_findAll h, ?_⟩
  rintro ⟨pattern, hpattern, paths, hpaths, hp⟩
  obtain ⟨lists, hlists, hfound⟩ := bind_eq_ok_iff.1 h
  cases hfound
  obtain ⟨paths', hmem, hpaths'⟩ := exists_right_of_forall₂ (mapM_eq_ok_iff.1 hlists) hpattern
  obtain rfl : paths' = paths := Except.ok.inj (hpaths'.symm.trans hpaths)
  exact List.mem_flatten.2 ⟨paths', hmem, hp⟩

/-- What a pattern for all stylesheets finds lies in the directory under names that are shown. -/
private theorem liesAt_of_mem_follow (tokens : List Glob.Token)
    (h : p ∈ Glob.follow tree false [.recursive, .pattern tokens] (Glob.entrance d.stylesDir)) :
    ∃ names, d.LiesAt tree p names := by
  rw [Glob.follow] at h
  obtain ⟨front, name, hlength, hleads, h⟩ := Glob.mem_below_iff.1 h
  split at h
  · refine ⟨front ++ [name], by simp, hleads, ?_, Glob.eq_of_mem_result h⟩
    rw [List.length_append, List.length_singleton]
    omega
  · cases h

/-- All stylesheets can be found, and they lie in the directory. -/
theorem Finds.exists_findAll {there : Bool} (h : d.Finds tree there) :
    ∃ found, d.findAll tree entryPatterns = .ok found ∧
      ∀ p ∈ found, there = true ∧ ∃ names, d.LiesAt tree p names := by
  have hone : ∀ ext : Text, ext = "scss".toList ∨ ext = "sass".toList →
      ∃ paths, d.find tree ("**/*.".toList ++ ext) = .ok paths ∧
        ∀ p ∈ paths, there = true ∧ ∃ names, d.LiesAt tree p names := by
    intro ext hext
    have htokens : (Glob.pieces ("**/*.".toList ++ ext)).mapM Glob.tokens =
        .ok [[.recursive], .sequence :: ('.' :: ext).map .literal] := by
      rcases hext with rfl | rfl <;> rfl
    obtain ⟨paths, hpaths, hmem⟩ := h _ _ htokens
    refine ⟨paths, hpaths, fun p hp => ?_⟩
    obtain ⟨hthere, hfollow⟩ := (hmem p).1 hp
    refine ⟨hthere, liesAt_of_mem_follow (.sequence :: ('.' :: ext).map .literal) ?_⟩
    rcases hext with rfl | rfl
    · exact hfollow
    · exact hfollow
  obtain ⟨scss, hscss, hliesScss⟩ := hone _ (.inl rfl)
  obtain ⟨sass, hsass, hliesSass⟩ := hone _ (.inr rfl)
  refine ⟨scss ++ (sass ++ []), ?_, fun p hp => ?_⟩
  · exact bind_eq_ok_iff.2 ⟨_, mapM_eq_ok_iff.2 (.cons hscss (.cons hsass .nil)), rfl⟩
  · rw [List.append_nil, List.mem_append] at hp
    exact hp.elim (hliesScss p) (hliesSass p)

/-! ## Paths in order -/

private theorem exists_mem_dropRepeats {paths : List Path} (h : p ∈ paths) :
    ∃ q ∈ dropRepeats paths, p.components = q.components := by
  fun_induction dropRepeats paths generalizing p with
  | case1 first next rest hsame ih =>
    rw [Path.same_iff] at hsame
    rcases List.mem_cons.1 h with rfl | h
    · exact ih List.mem_cons_self
    · rcases List.mem_cons.1 h with rfl | h
      · rw [← hsame]
        exact ih List.mem_cons_self
      · exact ih (List.mem_cons_of_mem first h)
  | case2 first next rest hsame ih =>
    rcases List.mem_cons.1 h with rfl | h
    · exact ⟨p, List.mem_cons_self, rfl⟩
    · obtain ⟨q, hq, hcomponents⟩ := ih h
      exact ⟨q, List.mem_cons_of_mem first hq, hcomponents⟩
  | case3 paths hpaths => exact ⟨p, h, rfl⟩

theorem exists_mem_ordered {paths : List Path} (h : p ∈ paths) :
    ∃ q ∈ ordered paths, p.components = q.components :=
  exists_mem_dropRepeats (List.mem_mergeSort.2 h)

/-- Among paths that can be told apart by their components, putting in order drops none. -/
theorem mem_ordered_iff {paths : List Path}
    (hpaths : ∀ p ∈ paths, ∀ q ∈ paths, p.components = q.components → p = q) :
    p ∈ ordered paths ↔ p ∈ paths := by
  refine ⟨mem_of_mem_ordered, fun h => ?_⟩
  obtain ⟨q, hq, hcomponents⟩ := exists_mem_ordered h
  rw [hpaths p h q (mem_of_mem_ordered hq) hcomponents]
  exact hq

/-- Two lists in order with the same paths are the same. -/
private theorem eq_of_mem_iff {paths others : List Path}
    (hpaths : paths.Pairwise fun p q => p.le q = true ∧ p.components ≠ q.components)
    (hothers : others.Pairwise fun p q => p.le q = true ∧ p.components ≠ q.components)
    (h : ∀ p, p ∈ paths ↔ p ∈ others) : paths = others := by
  have hnodup : ∀ {list : List Path},
      list.Pairwise (fun p q => p.le q = true ∧ p.components ≠ q.components) → list.Nodup := by
    intro list hlist
    exact hlist.imp fun hpq heq => hpq.2 (by rw [heq])
  have hperm : paths.Perm others :=
    (List.perm_ext_iff_of_nodup (hnodup hpaths) (hnodup hothers)).2 h
  refine hperm.eq_of_pairwise ?_ hpaths hothers
  intro p q _ _ hpq hqp
  exact absurd (Path.leComponents_antisymm hpq.1 hqp.1) hpq.2

/-! ## Groups -/

section Groups

variable (hnamed : tree.WellNamed) (hdir : Glob.Firm d.stylesDir)
  (hback : '\\' ∉ d.stylesDir.text)
include hnamed hdir hback

/-- A stylesheet matches the patterns of a group exactly if it is a member of the group. -/
theorem LiesAt.accepts_compiled_iff (hfinds : d.Finds tree true) (h : d.LiesAt tree p names)
    (hcandidate : d.isCandidate tree p = true) (hplain : '\\' ∉ (d.relative p).text)
    {patterns : List Text} (hpatterns : ∀ pattern ∈ patterns, Glob.Canonical pattern)
    {compiled : GroupPatterns} (hcompiled : GroupPatterns.compile patterns = .ok compiled)
    {members : List Path} (hmembers : d.members tree patterns = .ok members) :
    compiled.accepts (d.relative p) = p.isIn members := by
  have hfile : tree.isFile p = true := (Bool.and_eq_true_iff.1 hcandidate).2
  obtain ⟨reads, hreads, hpure⟩ := bind_eq_ok_iff.1 hcompiled
  cases hpure
  have hreads : List.Forall₂ (fun pattern read => Glob.tokens pattern = .ok read)
      patterns reads := by
    refine (mapM_eq_ok_iff.1 hreads).imp fun pattern read hread => ?_
    split at hread
    · rename_i tokens htokens
      rw [htokens]
      exact congrArg Except.ok (Except.ok.inj hread)
    · cases hread
  obtain ⟨found, hfound, hpure⟩ := bind_eq_ok_iff.1 hmembers
  cases hpure
  have hdisplay : (d.relative p).display = Text.joinWith ['/'] names := by
    rw [Path.display, Text.slashed_of_notMem hplain, h.text_relative hnamed hdir]
  rw [Bool.eq_iff_iff, GroupPatterns.accepts, List.any_eq_true, Path.isIn_iff, hdisplay]
  constructor
  · rintro ⟨read, hread, haccepts⟩
    obtain ⟨pattern, hpattern, htokens⟩ := exists_left_of_forall₂ hreads hread
    obtain ⟨lists, hlists, _⟩ := bind_eq_ok_iff.1 hfound
    obtain ⟨paths, _, hpaths⟩ := exists_right_of_forall₂ (mapM_eq_ok_iff.1 hlists) hpattern
    have hp := (h.accepts_iff hnamed hdir hback hfinds hfile (hpatterns pattern hpattern) htokens
      hpaths).1.1 haccepts
    have hmem : p ∈ found := (mem_findAll_iff hfound).2 ⟨pattern, hpattern, paths, hpaths, hp⟩
    exact exists_mem_ordered (List.mem_filter.2 ⟨hmem, hcandidate⟩)
  · rintro ⟨q, hq, hsame⟩
    obtain ⟨pattern, hpattern, paths, hpaths, hq⟩ :=
      (mem_findAll_iff hfound).1 (List.mem_of_mem_filter (mem_of_mem_ordered hq))
    obtain ⟨read, hread, htokens⟩ := exists_right_of_forall₂ hreads hpattern
    obtain ⟨hiff, hunique⟩ :=
      h.accepts_iff hnamed hdir hback hfinds hfile (hpatterns pattern hpattern) htokens hpaths
    rw [hunique q hq hsame] at hq
    exact ⟨read, hread, hiff.2 hq⟩

/-- A stylesheet matches the patterns of some group exactly if it is a member of some group. -/
private theorem LiesAt.any_accepts_eq (hfinds : d.Finds tree true) (h : d.LiesAt tree p names)
    (hcandidate : d.isCandidate tree p = true) (hplain : '\\' ∉ (d.relative p).text)
    {groups : List (List Text)} {compiled : List GroupPatterns} {members : List (List Path)}
    (hcompiled : List.Forall₂ (fun patterns g => GroupPatterns.compile patterns = .ok g)
      groups compiled)
    (hmembers : List.Forall₂ (fun patterns paths => d.members tree patterns = .ok paths)
      groups members)
    (hpatterns : ∀ patterns ∈ groups, ∀ pattern ∈ patterns, Glob.Canonical pattern) :
    compiled.any (·.accepts (d.relative p)) = members.any (p.isIn ·) := by
  induction hcompiled generalizing members with
  | nil =>
    rw [List.forall₂_nil_left_iff] at hmembers
    rw [hmembers]
    rfl
  | @cons patterns g groups compiled hfirst _ ih =>
    obtain ⟨paths, rest, hpaths, hrest, rfl⟩ := List.forall₂_cons_left_iff.1 hmembers
    rw [List.any_cons, List.any_cons,
      h.accepts_compiled_iff hnamed hdir hback hfinds hcandidate hplain
      (hpatterns patterns List.mem_cons_self) hfirst hpaths,
      ih hrest fun other hother => hpatterns other (List.mem_cons_of_mem patterns hother)]

end Groups

/-- The entries of a directory with groups are its entries without groups, but for the members of
the groups.  The patterns have to be canonical, and no name may hold a backslash. -/
theorem entries_eq_filter_members (hnamed : tree.WellNamed) (hdir : Glob.Firm d.stylesDir)
    (hback : '\\' ∉ d.stylesDir.text) {groups : List (List Text)} {compiled : List GroupPatterns}
    (hcompiled : groups.mapM GroupPatterns.compile = .ok compiled) {members : List (List Path)}
    (hmembers : groups.mapM (d.members tree) = .ok members)
    (hpatterns : ∀ patterns ∈ groups, ∀ pattern ∈ patterns, Glob.Canonical pattern) :
    ∃ all, d.entries tree [] = .ok all ∧
      ((∀ p ∈ all, '\\' ∉ (d.relative p).text) →
        d.entries tree compiled = .ok (all.filter fun p => !members.any (p.isIn ·))) := by
  obtain ⟨there, hfinds⟩ := exists_finds tree hdir hback
  obtain ⟨found, hfound, hlies⟩ := hfinds.exists_findAll
  have hentries : ∀ groups, d.entries tree groups = .ok (ordered (found.filter fun p =>
      d.isCandidate tree p && !groups.any (·.accepts (d.relative p)))) := by
    intro groups
    rw [entries, hfound]
    rfl
  have hunique : ∀ p ∈ found, ∀ q ∈ found, p.components = q.components → p = q := by
    intro p hp q hq hsame
    obtain ⟨_, names, hnames⟩ := hlies p hp
    obtain ⟨_, others, hothers⟩ := hlies q hq
    exact hnames.eq_of_components hnamed hdir hothers hsame
  have hmem : ∀ (keep : Path → Bool) (p : Path),
      p ∈ ordered (found.filter keep) ↔ p ∈ found ∧ keep p = true := by
    intro keep p
    rw [mem_ordered_iff, List.mem_filter]
    intro p hp q hq
    exact hunique p (List.mem_of_mem_filter hp) q (List.mem_of_mem_filter hq)
  refine ⟨_, hentries [], fun hplain => ?_⟩
  rw [hentries compiled]
  refine congrArg Except.ok
    (eq_of_mem_iff (pairwise_ordered _) ((pairwise_ordered _).filter _) ?_)
  intro p
  rw [hmem, List.mem_filter, hmem]
  simp only [List.any_nil, Bool.not_false, Bool.and_true, Bool.and_eq_true]
  rw [← and_assoc]
  refine and_congr_right fun hp => ?_
  have hall : p ∈ ordered (found.filter fun p =>
      d.isCandidate tree p && !([] : List GroupPatterns).any (·.accepts (d.relative p))) := by
    rw [hmem]
    simpa using hp
  obtain ⟨rfl, names, hnames⟩ := hlies p hp.1
  rw [hnames.any_accepts_eq hnamed hdir hback hfinds hp.2 (hplain p hall)
    (mapM_eq_ok_iff.1 hcompiled) (mapM_eq_ok_iff.1 hmembers) hpatterns]

/-- A directory with one stylesheet, in a directory of its own. -/
def baseTree : FileTree where
  entries := [(["s".toList], .directory), (["s".toList, "base".toList], .directory),
    (["s".toList, "base".toList, "x.scss".toList], .file (.text []))]
  workingDirectory := []

/-- Stylesheets are looked for in `/s`, and partials are left out. -/
def baseDiscovery : Discovery := ⟨⟨"/s".toList⟩, true⟩

/-- The stylesheet that is an entry or a member of a group. -/
def baseSheet : Path := ⟨"/s/base/x.scss".toList⟩

/-- A pattern of files: it ends in a name. -/
def sheetsPattern : Text := "base/**/*.s[ac]ss".toList

/-- The group of this pattern. -/
def sheetsGroup : GroupPatterns :=
  ⟨["base/".toList.map .literal ++ .recursive :: .sequence :: ".s".toList.map .literal ++
    .within [.single 'a', .single 'c'] :: "ss".toList.map .literal]⟩

private theorem base_candidate : baseDiscovery.isCandidate baseTree baseSheet = true := by
  decide +kernel

private theorem base_found : baseDiscovery.findAll baseTree entryPatterns = .ok [baseSheet] := by
  decide +kernel

private theorem base_entries : baseDiscovery.entries baseTree [] = .ok [baseSheet] := by
  rw [entries, base_found]
  show Except.ok (ordered ([baseSheet].filter _)) = _
  rw [List.filter_cons, base_candidate]
  exact congrArg Except.ok (ordered_singleton baseSheet)

/-- A group takes the stylesheets below a directory, and none of them is built on its own. -/
theorem base_grouped :
    GroupPatterns.compile [sheetsPattern] = .ok sheetsGroup ∧
    baseDiscovery.members baseTree [sheetsPattern] = .ok [baseSheet] ∧
    baseDiscovery.entries baseTree [] = .ok [baseSheet] ∧
    baseDiscovery.entries baseTree [sheetsGroup] = .ok [] := by
  have hcompile : GroupPatterns.compile [sheetsPattern] = .ok sheetsGroup := by decide +kernel
  have hmembers : baseDiscovery.members baseTree [sheetsPattern] = .ok [baseSheet] := by
    have hfound : baseDiscovery.findAll baseTree [sheetsPattern] = .ok [baseSheet] := by
      decide +kernel
    rw [members, hfound]
    show Except.ok (ordered ([baseSheet].filter _)) = _
    rw [List.filter_cons, base_candidate]
    exact congrArg Except.ok (ordered_singleton baseSheet)
  refine ⟨hcompile, hmembers, base_entries, ?_⟩
  have hcompiled : [[sheetsPattern]].mapM GroupPatterns.compile = .ok [sheetsGroup] :=
    mapM_eq_ok_iff.2 (.cons hcompile .nil)
  have hgroups : [[sheetsPattern]].mapM (baseDiscovery.members baseTree) = .ok [[baseSheet]] :=
    mapM_eq_ok_iff.2 (.cons hmembers .nil)
  have hnamed : baseTree.WellNamed := ⟨by decide +kernel, by decide +kernel⟩
  have hdir : Glob.Firm baseDiscovery.stylesDir := ⟨by decide +kernel, by decide +kernel⟩
  obtain ⟨all, hall, hsame⟩ :=
    entries_eq_filter_members hnamed hdir (by decide +kernel) hcompiled hgroups
    (by decide +kernel)
  obtain rfl : all = [baseSheet] := Except.ok.inj (hall.symm.trans base_entries)
  rw [hsame (by decide +kernel)]
  decide +kernel

/-- A pattern that ends in `**`. -/
def deepPattern : Text := "base/**".toList

/-- The group of the pattern that ends in `**`. -/
def deepGroup : GroupPatterns := ⟨["base/".toList.map .literal ++ [.recursive]]⟩

/-- `**` at the end matches every stylesheet below a directory and finds directories only.  So the
stylesheet is neither built on its own nor a member of the group. -/
theorem base_dropped :
    GroupPatterns.compile [deepPattern] = .ok deepGroup ∧
    baseDiscovery.members baseTree [deepPattern] = .ok [] ∧
    baseDiscovery.entries baseTree [] = .ok [baseSheet] ∧
    baseDiscovery.entries baseTree [deepGroup] = .ok [] := by
  refine ⟨by decide +kernel, ?_, base_entries, ?_⟩
  · have hfound : baseDiscovery.findAll baseTree [deepPattern] = .ok [] := by decide +kernel
    rw [members, hfound]
    exact congrArg Except.ok ordered_nil
  · have hmatch : deepGroup.accepts (baseDiscovery.relative baseSheet) = true := by decide +kernel
    rw [entries, base_found]
    show Except.ok (ordered ([baseSheet].filter _)) = _
    rw [List.filter_cons, List.any_cons, hmatch, Bool.true_or, Bool.not_true, Bool.and_false]
    exact congrArg Except.ok ordered_nil

end Discovery

end StyleBundle
