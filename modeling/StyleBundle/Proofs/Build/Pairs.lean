import StyleBundle.Proofs.Build.Containment
import StyleBundle.Proofs.Build.Partition
import StyleBundle.Proofs.Glob.Alike
import StyleBundle.Proofs.Source.Outside

/-!
# One unit on two disks

Two disks may differ inside a directory, and in what some changed files hold.  A unit that
succeeds on both writes the same stylesheet, if nothing that it uses lies in the directory, and no
changed file was used (`BuildUnit.exists_css`).

A unit uses files in three ways.  It starts from some (`BuildUnit.starts`), it puts global mixins
in front of them (`Compilation.Loads`), and directives lead to others, which become the
dependencies of its output.
-/

namespace StyleBundle

open FileTree

variable {base : Path} {changed : List Location} {t t' s s' : FileTree} {d d' : Disk}

/-! ## Members of a group -/

namespace Discovery

variable {finder : Discovery} {patterns : List Text} {members members' : List Path} {p : Path}

private theorem head?_escape_display (h : finder.stylesDir.isAbsolute = true) (rest : Text) :
    (Glob.escape finder.stylesDir.display ++ rest).head? = some '/' := by
  obtain ⟨text, htext⟩ := List.head?_eq_some_iff.1 (beq_iff_eq.1 h)
  rw [Path.display, htext]
  simp [Text.slashed, Glob.escape]

theorem isFile_of_isCandidate (h : finder.isCandidate t p = true) : t.isFile p = true :=
  (Bool.and_eq_true_iff.1 h).2

theorem isFile_of_mem_members (h : finder.members t patterns = .ok members) (hp : p ∈ members) :
    t.isFile p = true := by
  obtain ⟨found, _, h⟩ := bind_eq_ok_iff.1 h
  cases h
  exact isFile_of_isCandidate (List.mem_filter.1 (mem_of_mem_ordered hp)).2

theorem isFile_of_mem_entries {groups : List GroupPatterns} {entries : List Path}
    (h : finder.entries t groups = .ok entries) (hp : p ∈ entries) : t.isFile p = true := by
  obtain ⟨found, _, h⟩ := bind_eq_ok_iff.1 h
  cases h
  have hkept := (List.mem_filter.1 (mem_of_mem_ordered hp)).2
  exact isFile_of_isCandidate (Bool.and_eq_true_iff.1 hkept).1

/-- What is found below an absolute directory is absolute. -/
theorem isAbsolute_of_mem_findAll (hdir : finder.stylesDir.isAbsolute = true) {found : List Path}
    (h : finder.findAll t patterns = .ok found) (hp : p ∈ found) : p.isAbsolute = true := by
  obtain ⟨pattern, _, paths, hpaths, hp⟩ := exists_find_of_mem_findAll h hp
  exact Glob.isAbsolute_of_mem_find (head?_escape_display hdir _)
    (find_eq_ok_iff_display.1 hpaths) hp

theorem isAbsolute_of_mem_members (hdir : finder.stylesDir.isAbsolute = true)
    (h : finder.members t patterns = .ok members) (hp : p ∈ members) : p.isAbsolute = true := by
  obtain ⟨found, hfound, h⟩ := bind_eq_ok_iff.1 h
  cases h
  exact isAbsolute_of_mem_findAll hdir hfound (List.mem_filter.1 (mem_of_mem_ordered hp)).1

theorem isAbsolute_of_mem_entries (hdir : finder.stylesDir.isAbsolute = true)
    {groups : List GroupPatterns} {entries : List Path}
    (h : finder.entries t groups = .ok entries) (hp : p ∈ entries) : p.isAbsolute = true := by
  obtain ⟨found, hfound, h⟩ := bind_eq_ok_iff.1 h
  cases h
  exact isAbsolute_of_mem_findAll hdir hfound (List.mem_filter.1 (mem_of_mem_ordered hp)).1

/-- A member is found in an alike tree too, if its path keeps clear. -/
private theorem exists_member_of_alike (halike : Alike base changed t t') (hnamed : t.WellNamed)
    (hdir : finder.stylesDir.isAbsolute = true) (h : finder.members t patterns = .ok members)
    (h' : finder.members t' patterns = .ok members') (hp : p ∈ members)
    (hclear : base.KeepsClear p) :
    ∃ q ∈ members', p.components = q.components := by
  obtain ⟨found, hfound, hmembers⟩ := bind_eq_ok_iff.1 h
  obtain ⟨found', hfound', hmembers'⟩ := bind_eq_ok_iff.1 h'
  cases hmembers
  cases hmembers'
  obtain ⟨hp, hcandidate⟩ := List.mem_filter.1 (mem_of_mem_ordered hp)
  obtain ⟨pattern, hpattern, paths, hpaths, hp⟩ := exists_find_of_mem_findAll hfound hp
  obtain ⟨lists, hlists, _⟩ := bind_eq_ok_iff.1 hfound'
  obtain ⟨paths', _, hpaths'⟩ := exists_right_of_forall₂ (mapM_eq_ok_iff.1 hlists) hpattern
  have hp' : p ∈ paths' := Glob.mem_find_of_alike halike hnamed (head?_escape_display hdir _)
    (find_eq_ok_iff_display.1 hpaths) (find_eq_ok_iff_display.1 hpaths') hp hclear
  have hcandidate' : finder.isCandidate t' p = true := by
    rw [isCandidate, halike.isFile_eq hclear]
    exact hcandidate
  refine exists_mem_ordered (List.mem_filter.2 ⟨?_, hcandidate'⟩)
  exact (mem_findAll_iff hfound').2 ⟨pattern, hpattern, paths', hpaths', hp'⟩

/-- Lists in order that have the same components have them in the same order. -/
private theorem map_components_eq {paths others : List Path}
    (hpaths : paths.Pairwise fun p q => p.le q = true ∧ p.components ≠ q.components)
    (hothers : others.Pairwise fun p q => p.le q = true ∧ p.components ≠ q.components)
    (h : ∀ steps, steps ∈ paths.map Path.components ↔ steps ∈ others.map Path.components) :
    paths.map Path.components = others.map Path.components := by
  have hnodup : ∀ {list : List Path},
      list.Pairwise (fun p q => p.le q = true ∧ p.components ≠ q.components) →
      (list.map Path.components).Nodup := fun hlist =>
    List.pairwise_map.2 (hlist.imp And.right)
  have hsorted : ∀ {list : List Path},
      list.Pairwise (fun p q => p.le q = true ∧ p.components ≠ q.components) →
      (list.map Path.components).Pairwise fun steps others =>
        Path.leComponents steps others = true :=
    fun hlist => List.pairwise_map.2 (hlist.imp And.left)
  have hperm := (List.perm_ext_iff_of_nodup (hnodup hpaths) (hnodup hothers)).2 h
  exact hperm.eq_of_pairwise (fun _ _ _ _ => Path.leComponents_antisymm) (hsorted hpaths)
    (hsorted hothers)

/-- A group has the same members in alike trees, if the paths of all of them keep clear. -/
theorem members_components_eq (halike : Alike base changed t t') (hnamed : t.WellNamed)
    (hnamed' : t'.WellNamed) (hdir : finder.stylesDir.isAbsolute = true)
    (h : finder.members t patterns = .ok members) (h' : finder.members t' patterns = .ok members')
    (hclear : ∀ p ∈ members, base.KeepsClear p) (hclear' : ∀ p ∈ members', base.KeepsClear p) :
    members.map Path.components = members'.map Path.components := by
  have hordered :
      ∀ {t : FileTree} {members : List Path}, finder.members t patterns = .ok members →
      members.Pairwise fun p q => p.le q = true ∧ p.components ≠ q.components := by
    intro t members h
    obtain ⟨found, _, h⟩ := bind_eq_ok_iff.1 h
    cases h
    exact pairwise_ordered _
  refine map_components_eq (hordered h) (hordered h') fun steps => ?_
  rw [List.mem_map, List.mem_map]
  constructor
  · rintro ⟨p, hp, rfl⟩
    obtain ⟨q, hq, hsame⟩ := exists_member_of_alike halike hnamed hdir h h' hp (hclear p hp)
    exact ⟨q, hq, hsame.symm⟩
  · rintro ⟨p, hp, rfl⟩
    obtain ⟨q, hq, hsame⟩ :=
      exists_member_of_alike halike.symm hnamed' hdir h' h hp (hclear' p hp)
    exact ⟨q, hq, hsame.symm⟩

end Discovery

/-! ## Global mixins -/

namespace Compilation

variable {c : Compilation}

/-- The path is the file of one of the global mixins. -/
def Loads (c : Compilation) (t : FileTree) (p : Path) : Prop :=
  ∃ mixins name text, c.mixins = some mixins ∧ name ∈ mixins.names ∧
    mixins.find? t name = some (p, text)

private theorem find?_eq (halike : Alike base changed t t') {mixins : Mixins} {name : Text}
    (h : ∀ p text, mixins.find? t name = some (p, text) → base.KeepsClear p ∧ p.place ∉ changed)
    (h' : ∀ p text, mixins.find? t' name = some (p, text) → base.KeepsClear p ∧
      p.place ∉ changed) :
    mixins.find? t name = mixins.find? t' name := by
  refine findSome?_eq_of_good (fun found : Path × Text => base.KeepsClear found.1 ∧
    found.1.place ∉ changed)
    (fun variant hgood hgood' => ?_) (fun found => h found.1 found.2) fun found =>
      h' found.1 found.2
  -- A variant that one of the trees can read is good, so both read it alike.
  simp only at hgood hgood' ⊢
  cases hread : t.read (mixins.stylesDir.push variant) with
  | ok text =>
    rw [hread] at hgood
    obtain ⟨hclear, hunchanged⟩ := hgood _ rfl
    rw [halike.read_eq hclear hunchanged, hread]
  | error cause =>
    cases hread' : t'.read (mixins.stylesDir.push variant) with
    | error cause' => rfl
    | ok text =>
      rw [hread'] at hgood'
      obtain ⟨hclear, hunchanged⟩ := hgood' _ rfl
      rw [halike.read_eq hclear hunchanged, hread] at hread'
      cases hread'

/-- A text is prepared alike in alike trees, if no mixin is read from the base or from a changed
file. -/
theorem prepare_eq (halike : Alike base changed t t')
    (h : ∀ p, c.Loads t p → base.KeepsClear p ∧ p.place ∉ changed)
    (h' : ∀ p, c.Loads t' p → base.KeepsClear p ∧ p.place ∉ changed) (text : Text) :
    c.prepare t text = c.prepare t' text := by
  rw [prepare, prepare]
  cases hmixins : c.mixins with
  | none => rfl
  | some mixins =>
    have hload : mixins.load t = mixins.load t' := by
      rw [Mixins.load, Mixins.load]
      refine mapM_congr_of_mem fun name hname => ?_
      rw [find?_eq halike (fun p text hfind => h p ⟨mixins, name, text, hmixins, hname, hfind⟩)
        fun p text hfind => h' p ⟨mixins, name, text, hmixins, hname, hfind⟩]
    simp only [hload]

end Compilation

/-! ## Disks while units run -/

/-- A disk stays true to a tree while units write inside the base. -/
theorem runInvariant_trueTo {paths : List Path} (hbase : base.isAbsolute = true)
    (h : ∀ p ∈ paths, Path.StaysIn base p) (hway : HasWay base s) :
    RunInvariant paths (Disk.TrueTo base s) := by
  have hsame := updateInvariant_sameOutside hbase h s
  have hset : ∀ {t : FileTree} {cache : List (Path × Text)} {p : Path} {node : Node},
      Disk.TrueTo base s ⟨t, cache⟩ → SameOutside base s (t.set (t.placeOf p.components) node) →
      Disk.TrueTo base s ⟨t.set (t.placeOf p.components) node, cache⟩ := fun htrue htree =>
    ⟨htree, htrue.named.set (fun _ hname => htrue.named.isName_of_mem_placeOf hname) _,
      htrue.unique.set _ _, htrue.cache⟩
  refine ⟨fun cache => ⟨?_, ?_⟩, fun d reads hreads htrue => htrue.rememberAll hway hreads⟩
  · intro p hp up hup t q hq hne hparent hfree htrue
    exact hset htrue (hsame.growth p hp up hup t q hq hne hparent hfree htrue.tree)
  · intro t text p hp hne hparent hdir htrue
    exact hset htrue (hsame.write t text p hp hne hparent hdir htrue.tree)

/-! ## Units -/

namespace BuildPlan

variable {b : BuildPlan}

theorem mem_dedupTexts {text : Text} {texts : List Text} :
    text ∈ dedupTexts texts ↔ text ∈ texts := by
  rw [dedupTexts, firstOccurrences_eq_eraseDupsBy]
  exact List.mem_eraseDups

theorem exists_of_expanding_ok {step : Catalog → Expansion Expanded} {e : Expanded}
    (h : b.expanding step d = .ok e d') :
    ∃ session, step ⟨b.settings, d.source⟩ .start = .ok e session := by
  rw [expanding] at h
  split at h
  · rename_i session hrun
    cases h
    exact ⟨session, hrun⟩
  · cases h

/-- Without a compiler, the stylesheet is the text that was prepared. -/
theorem exists_of_compileAndWrite {entry : Entry} {expanded : Expanded}
    {logical intermediate cssPath : Path} {output : BuiltOutput}
    (hcompiler : b.compilation.compiler = .passthrough)
    (h : b.compileAndWrite entry expanded logical intermediate cssPath d = .ok output d') :
    ∃ css, b.compilation.prepare d.tree expanded.content = .ok css ∧
      (∀ text, text ∈ output.dependencies ↔ text ∈ expanded.dependencies.map Path.text) ∧
      d'.tree.lookup cssPath = .ok (.file (.text css)) := by
  obtain ⟨compiled, d₁, hcompile, h⟩ := exists_of_bind_ok h
  obtain ⟨hcompiled, rfl⟩ : b.compilation.compile d.tree expanded.content logical = .ok compiled ∧
      d₁ = d := by
    rw [compiling] at hcompile
    split at hcompile
    · rename_i hcompiled
      cases hcompile
      exact ⟨hcompiled, rfl⟩
    · cases hcompile
  obtain ⟨css, hprepare, hcompiled⟩ := bind_eq_ok_iff.1 hcompiled
  rw [hcompiler] at hcompiled
  cases hcompiled
  obtain ⟨d₂, hwrite⟩ : ∃ d₂, (do
      let mapPath ← Layout.writeStylesheet cssPath css none
      return (⟨entry, cssPath, mapPath, dedupTexts (expanded.dependencies.map Path.text ++ [])⟩ :
        BuiltOutput) : Building BuiltOutput) d₂ = .ok output d' := by
    split at h
    · obtain ⟨_, d₂, _, h⟩ := exists_of_bind_ok h
      exact ⟨d₂, h⟩
    · exact ⟨_, h⟩
  obtain ⟨mapPath, d₃, hsheet, hrest⟩ := exists_of_bind_ok hwrite
  cases hrest
  obtain ⟨_, d₄, hcss, hrest⟩ := exists_of_bind_ok hsheet
  cases hrest
  refine ⟨css, hprepare, fun text => ?_, Layout.lookup_writeFile hcss⟩
  rw [mem_dedupTexts, List.append_nil]

section Pair

variable (hbase : base.isAbsolute = true) (h : d.TrueTo base s) (h' : d'.TrueTo base s')
  (hway : HasWay base s) (hway' : HasWay base s') (halike : Alike base changed s s')
include hbase h h' hway hway' halike

/-- Members that are expanded on both disks expand to the same. -/
theorem expandMembers_eq {members members' : List Path} {e e' : Expanded} {d₁ d₁' : Disk}
    (hsame : members.map Path.components = members'.map Path.components)
    (hfiles : ∀ p ∈ members, d.tree.isFile p = true) (hrun : b.expandMembers members d = .ok e d₁)
    (hrun' : b.expandMembers members' d' = .ok e' d₁')
    (hclear : ∀ q ∈ e.dependencies, base.KeepsClear q ∧ q.place ∉ changed)
    (hclear' : ∀ q ∈ e'.dependencies, base.KeepsClear q) : e = e' := by
  induction members generalizing d d' members' e e' with
  | nil =>
    cases members' with
    | nil =>
      cases hrun
      cases hrun'
      rfl
    | cons p' rest' => cases hsame
  | cons p rest ih =>
    cases members' with
    | nil => cases hsame
    | cons p' rest' =>
      obtain ⟨hp, hrest⟩ := List.cons.inj hsame
      obtain ⟨first, d₂, hfirst, hrun⟩ := exists_of_bind_ok hrun
      obtain ⟨more, d₃, hmore, hend⟩ := exists_of_bind_ok hrun
      cases hend
      obtain ⟨first', d₂', hfirst', hrun'⟩ := exists_of_bind_ok hrun'
      obtain ⟨more', d₃', hmore', hend'⟩ := exists_of_bind_ok hrun'
      cases hend'
      simp only [List.forall_mem_append] at hclear hclear'
      have hfirsts : first = first' := by
        obtain ⟨session, hbundle⟩ := exists_of_expanding_ok hfirst
        obtain ⟨session', hbundle'⟩ := exists_of_expanding_ok hfirst'
        exact h.bundleFile_eq h' hway hway' halike hp
          (hfiles p List.mem_cons_self) hbundle hbundle' hclear.1 hclear'.1
      -- The rest runs on disks that have read more, but have the same files.
      have hquiet : RunInvariant [] (Disk.TrueTo base s) :=
        runInvariant_trueTo hbase (by simp) hway
      have hquiet' : RunInvariant [] (Disk.TrueTo base s') :=
        runInvariant_trueTo hbase (by simp) hway'
      have htrue := (keeps_expanding b hquiet (.bundle p)).of_ok h hfirst
      have htrue' := (keeps_expanding b hquiet' (.bundle p')).of_ok h' hfirst'
      have htree : d₂.tree = d.tree :=
        (keeps_expanding b (runInvariant_tree d.tree) (.bundle p)).of_ok rfl hfirst
      have hmores : more = more' := by
        refine ih htrue htrue' hrest (fun q hq => ?_) hmore hmore' hclear.2 hclear'.2
        rw [htree]
        exact hfiles q (List.mem_cons_of_mem p hq)
      rw [hfirsts, hmores]

end Pair

end BuildPlan

namespace BuildUnit

variable {b : BuildPlan} {u : BuildUnit} {output output' : BuiltOutput} {after after' : Disk}

/-- The files that the unit starts from. -/
def starts (b : BuildPlan) (t : FileTree) : BuildUnit → List Path
  | entry p => [p]
  | group g => (b.discovery.members t g.patterns).toOption.getD []

/-- No path that the unit uses leads through the base. -/
structure UsesOutside (b : BuildPlan) (base : Path) (u : BuildUnit) (t : FileTree)
    (output : BuiltOutput) : Prop where
  starts : ∀ p ∈ u.starts b t, base.KeepsClear p
  mixins : ∀ p, b.compilation.Loads t p → base.KeepsClear p
  dependencies : ∀ text ∈ output.dependencies, base.KeepsClear ⟨text⟩

/-- The file at the location is the entry, or one of the dependencies of the output. -/
def Lists (u : BuildUnit) (output : BuiltOutput) (place : Location) : Prop :=
  (∃ p, u = .entry p ∧ p.place = place) ∨ ∃ text ∈ output.dependencies,
    (Path.mk text).place = place

section Pair

variable (hbase : base.isAbsolute = true) (h : d.TrueTo base s) (h' : d'.TrueTo base s')
  (hway : HasWay base s) (hway' : HasWay base s') (halike : Alike base changed s s')
include hbase h h' hway hway' halike

/-- A unit that is expanded on both disks expands to the same. -/
private theorem expansion_eq {e e' : Expanded} {d₁ d₁' : Disk}
    (hstyles : b.stylesDir.isAbsolute = true)
    (hfiles : ∀ p ∈ u.starts b d.tree, d.tree.isFile p = true)
    (hstarts : ∀ p ∈ u.starts b d.tree, base.KeepsClear p)
    (hstarts' : ∀ p ∈ u.starts b d'.tree, base.KeepsClear p)
    (hentry : ∀ p, u = .entry p → p.place ∉ changed) (hrun : u.expansion b d = .ok e d₁)
    (hrun' : u.expansion b d' = .ok e' d₁')
    (hclear : ∀ q ∈ e.dependencies, base.KeepsClear q ∧ q.place ∉ changed)
    (hclear' : ∀ q ∈ e'.dependencies, base.KeepsClear q) : e = e' := by
  cases u with
  | entry p =>
    rw [expansion] at hrun hrun'
    obtain ⟨session, hrun⟩ := BuildPlan.exists_of_expanding_ok hrun
    obtain ⟨session', hrun'⟩ := BuildPlan.exists_of_expanding_ok hrun'
    exact h.expandFile_eq h' hway hway' halike (hstarts p List.mem_cons_self)
      (hfiles p List.mem_cons_self) (hentry p rfl) hrun hrun' hclear hclear'
  | group g =>
    obtain ⟨members, d₂, hask, hexpand⟩ := exists_of_bind_ok hrun
    obtain ⟨members', d₂', hask', hexpand'⟩ := exists_of_bind_ok hrun'
    obtain ⟨hmembers, rfl⟩ := BuildPlan.exists_of_asking_ok hask
    obtain ⟨hmembers', rfl⟩ := BuildPlan.exists_of_asking_ok hask'
    have hstart : starts b d₂.tree (group g) = members := by rw [starts, hmembers]; rfl
    have hstart' : starts b d₂'.tree (group g) = members' := by rw [starts, hmembers']; rfl
    rw [hstart] at hfiles hstarts
    rw [hstart'] at hstarts'
    have hsame := Discovery.members_components_eq (h.alike h' hway hway' halike) h.named
      h'.named hstyles hmembers hmembers' hstarts hstarts'
    exact BuildPlan.expandMembers_eq hbase h h' hway hway' halike hsame hfiles hexpand
      hexpand' hclear hclear'

/-- A unit that succeeds on both disks writes one stylesheet, if no path that it uses leads
through the base, and no file that it uses was changed. -/
theorem exists_css (hcompiler : b.compilation.compiler = .passthrough)
    (hstyles : b.stylesDir.isAbsolute = true)
    (hfiles : ∀ p ∈ u.starts b d.tree, d.tree.isFile p = true)
    (hstep : u.step b d = .ok output after) (hstep' : u.step b d' = .ok output' after')
    (huses : u.UsesOutside b base d.tree output) (huses' : u.UsesOutside b base d'.tree output')
    (hunlisted : ∀ place ∈ changed, ¬ u.Lists output place)
    (hmixins : ∀ p, b.compilation.Loads d.tree p ∨ b.compilation.Loads d'.tree p →
      p.place ∉ changed) :
    ∃ css, after.tree.lookup (u.cssPath b) = .ok (.file (.text css)) ∧
      after'.tree.lookup (u.cssPath b) = .ok (.file (.text css)) := by
  rw [step_eq_bind] at hstep hstep'
  obtain ⟨e, d₁, hexpand, hstep⟩ := exists_of_bind_ok hstep
  obtain ⟨e', d₁', hexpand', hstep'⟩ := exists_of_bind_ok hstep'
  obtain ⟨css, hprepare, hlist, hcss⟩ := BuildPlan.exists_of_compileAndWrite hcompiler hstep
  obtain ⟨css', hprepare', hlist', hcss'⟩ := BuildPlan.exists_of_compileAndWrite hcompiler hstep'
  have htree : d₁.tree = d.tree :=
    (keeps_expansion b (runInvariant_tree d.tree) u).of_ok rfl hexpand
  have htree' : d₁'.tree = d'.tree :=
    (keeps_expansion b (runInvariant_tree d'.tree) u).of_ok rfl hexpand'
  have hsame : e = e' := by
    refine expansion_eq hbase h h' hway hway' halike hstyles hfiles huses.starts huses'.starts ?_
      hexpand hexpand' ?_ ?_
    · exact fun p hp hplace => hunlisted _ hplace (.inl ⟨p, hp, rfl⟩)
    · intro q hq
      have hq := (hlist q.text).2 (List.mem_map_of_mem hq)
      exact ⟨huses.dependencies _ hq, fun hplace => hunlisted _ hplace (.inr ⟨_, hq, rfl⟩)⟩
    · exact fun q hq => huses'.dependencies _ ((hlist' q.text).2 (List.mem_map_of_mem hq))
  rw [htree, hsame, Compilation.prepare_eq (h.alike h' hway hway' halike)
    (fun p hp => ⟨huses.mixins p hp, hmixins p (.inl hp)⟩)
    fun p hp => ⟨huses'.mixins p hp, hmixins p (.inr hp)⟩] at hprepare
  rw [htree', hprepare] at hprepare'
  cases hprepare'
  exact ⟨css, hcss, hcss'⟩

end Pair

end BuildUnit

end StyleBundle
