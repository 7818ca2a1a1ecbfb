import StyleBundle.Proofs.Expansion.Dependencies

/-!
# Dependencies are all that matters

Two sources with the same files and directories may differ in what their files hold.  An expansion
that succeeds on one of them is the same on the other, as long as the file itself and its
dependencies hold the same texts (`Catalog.expandFile_of_same_texts`).  What other files hold does
not matter, not even to the question whether expansion succeeds.

The two runs are followed side by side, at the same depth and with the same paths in flight
(`Catalog.fileOutcome_of_same_texts`).  The limits of the two sources may differ, but a result
does not depend on the depth (`Catalog.fileOutcome_of_room`).

A file may be read by two spellings of its path, of which the dependencies list the first only.
This is where the laws of sources are needed: both spellings have one text.  Every tree in memory
and every disk obeys them (`Memory.lawful_source`, `Disk.lawful_source`).
-/

namespace StyleBundle

namespace Catalog

variable {settings : Settings} {s₁ s₂ : Source} {flight : InFlight}

/-! ## What lookups depend on -/

/-- The sources have the same files and directories. -/
structure SameEntries (s₁ s₂ : Source) : Prop where
  isFile_eq : s₁.isFile = s₂.isFile
  isDirectory_eq : s₁.isDirectory = s₂.isDirectory
  list_eq : s₁.list = s₂.list

/-- A target is looked up to the same file in both sources, and trees have the same members. -/
structure SameLookups (s₁ s₂ : Source) : Prop where
  isFile_eq : s₁.isFile = s₂.isFile
  members_eq : ∀ directory, membersByName s₁ directory = membersByName s₂ directory

theorem SameEntries.sameLookups (h : SameEntries s₁ s₂) : SameLookups s₁ s₂ where
  isFile_eq := h.isFile_eq
  members_eq directory := by
    simp only [membersByName, stylesheetsIn, h.isFile_eq, h.isDirectory_eq, h.list_eq]

namespace SameLookups

variable (h : SameLookups s₁ s₂)

include h

theorem locate_eq (target : Text) (directory : Path) :
    (Catalog.mk settings s₁).locate target directory =
      (Catalog.mk settings s₂).locate target directory := by
  simp only [locate, findFile?, findMapped?, search?, firstFile?, h.isFile_eq]

theorem contributes {child : Path → Expanded → Prop} {directory : Path} {d : Directive}
    {x : Contribution} (hx : (Catalog.mk settings s₁).Contributes child directory d x) :
    (Catalog.mk settings s₂).Contributes child directory d x := by
  cases hx with
  | file found e hkind hlocate hchild =>
    rw [h.locate_eq] at hlocate
    exact .file found e hkind hlocate hchild
  | tree members hkind hmembers =>
    have heq := h.members_eq (treeDirectory d.target directory)
    refine .tree members hkind ?_
    rw [← heq]
    exact hmembers

theorem assembled {child : Path → Expanded → Prop} {text : Text} {directory : Path} {e : Expanded}
    (he : (Catalog.mk settings s₁).Assembled child text directory e) :
    (Catalog.mk settings s₂).Assembled child text directory e := by
  obtain ⟨contributions, hcontributions, rfl⟩ := he
  exact ⟨contributions, hcontributions.imp fun d x hx => h.contributes hx, rfl⟩

end SameLookups

/-! ## Two runs side by side -/

/-- Every dependency names a file. -/
theorem isFile_of_mem_dependencies {c : Catalog} {depth : Nat} {p d : Path} {e : Expanded}
    (h : c.fileOutcome depth flight p = .ok e) (hd : d ∈ e.dependencies) :
    c.source.isFile d = true := by
  induction depth generalizing flight p e with
  | zero => exact absurd h fileOutcome_zero_ne_ok
  | succ depth ih =>
    obtain ⟨text, _, _, hassembled⟩ := fileOutcome_eq_ok_iff.1 h
    obtain ⟨used, hchildren, hdependencies, hused⟩ := hassembled.exists_used
    rw [hdependencies] at hd
    obtain ⟨u, hu, hmem⟩ := List.mem_flatMap.1 (Path.mem_of_mem_dedup hd)
    rcases List.mem_cons.1 hmem with rfl | hmem
    · obtain ⟨_, _, hlead⟩ := (mem_childrenIn hchildren).1 (List.mem_map.2 ⟨u, hu, rfl⟩)
      exact hlead.isFile
    · exact ih (hused u hu) hmem

/-- A run succeeds alike on a source where the file and all spellings of its dependencies hold the
same texts. -/
theorem fileOutcome_of_same_texts (hlookups : SameLookups s₁ s₂) {depth : Nat} {p : Path}
    {e : Expanded} (h : (Catalog.mk settings s₁).fileOutcome depth flight p = .ok e)
    (hp : s₁.read p = s₂.read p)
    (hread : ∀ r, s₁.isFile r = true → r.isIn e.dependencies = true → s₁.read r = s₂.read r) :
    (Catalog.mk settings s₂).fileOutcome depth flight p = .ok e := by
  induction depth generalizing flight p e with
  | zero => exact absurd h fileOutcome_zero_ne_ok
  | succ depth ih =>
    obtain ⟨text, htext, hcontains, hassembled⟩ := fileOutcome_eq_ok_iff.1 h
    refine fileOutcome_eq_ok_iff.2 ⟨text, hp.symm.trans htext, hcontains, ?_⟩
    apply hlookups.assembled
    apply hassembled.imp
    intro d _ r e' hlead hchild hused
    refine ih hchild (hread r hlead.isFile (hused r List.mem_cons_self)) ?_
    -- What is a dependency of a part is, in some spelling, a dependency of the whole.
    intro r' hfile hr'
    obtain ⟨q, hq, hsame⟩ := Path.isIn_iff.1 hr'
    obtain ⟨q', hq', hsame'⟩ := Path.isIn_iff.1 (hused q (List.mem_cons_of_mem r hq))
    exact hread r' hfile (Path.isIn_iff.2 ⟨q', hq', hsame.trans hsame'⟩)

/-- An expansion that succeeds on one source succeeds with the same result on every source that
has the same files and directories, and the same texts for the file and for its dependencies. -/
theorem expandFile_of_same_texts (settings : Settings) (s₁ s₂ : Source) (h₁ : s₁.Lawful)
    (h₂ : s₂.Lawful) (hfile : s₁.isFile = s₂.isFile)
    (hdirectory : s₁.isDirectory = s₂.isDirectory) (hlist : s₁.list = s₂.list) (p : Path)
    (e : Expanded) (s : Session) (h : (Catalog.mk settings s₁).expandFile p .start = .ok e s)
    (hp : s₁.read p = s₂.read p) (hdependencies : ∀ d ∈ e.dependencies, s₁.read d = s₂.read d) :
    ∃ s', (Catalog.mk settings s₂).expandFile p .start = .ok e s' := by
  have houtcome := fileOutcome_of_expandFile h
  have hread : ∀ r, s₁.isFile r = true → r.isIn e.dependencies = true →
      s₁.read r = s₂.read r := by
    intro r hr hin
    obtain ⟨d, hd, hcomponents⟩ := Path.isIn_iff.1 hin
    have hsame := Path.same_iff.2 hcomponents
    have hd₁ : s₁.isFile d = true := isFile_of_mem_dependencies houtcome hd
    calc s₁.read r = s₁.read d := h₁.read_same r d hr hd₁ hsame
      _ = s₂.read d := hdependencies d hd
      _ = s₂.read r := (h₂.read_same r d (hfile ▸ hr) (hfile ▸ hd₁) hsame).symm
  have hentries : SameEntries s₁ s₂ := ⟨hfile, hdirectory, hlist⟩
  have hother := fileOutcome_of_same_texts hentries.sameLookups houtcome hp hread
  exact exists_expandFile_of_fileOutcome (fileOutcome_of_room (room_empty h₂) hother)

/-! ### A file that does not matter -/

/-- The file that is expanded. -/
def besideEntry : Path := ⟨"a.scss".toList⟩

/-- The file that it asks for. -/
def besideUsed : Path := ⟨"b.scss".toList⟩

/-- A file that includes a second one, and a third file with any text. -/
def beside (other : Text) : Memory :=
  ((Memory.empty.addFile besideEntry "//= require 'b'".toList).addFile besideUsed
    "B".toList).addFile ⟨"z.scss".toList⟩ other

/-- Settings with a root and nothing else. -/
def besideSettings : Settings :=
  { root := ⟨"/".toList⟩, includePaths := [], fallbackDirs := [], aliases := [], mappings := [],
    ignorePartials := false }

private theorem beside_expandFile :
    ∃ s, (Catalog.mk besideSettings (beside "1".toList).source).expandFile besideEntry .start =
      .ok ⟨"B".toList, [besideUsed]⟩ s := by
  have hparse : Directive.parse "//= require 'b'".toList =
      [⟨.require, "b".toList, "//= require 'b'".toList, 0⟩] := by decide
  apply exists_expandFile_of_fileOutcome
  refine fileOutcome_eq_ok_iff.2 ⟨_, rfl, rfl, assembled_of_parse_eq_singleton hparse
    (.file besideUsed ⟨"B".toList, []⟩ rfl rfl ?_) ?_ ?_⟩
  · exact fileOutcome_eq_ok_iff.2 ⟨_, rfl, by decide, assembled_of_parse_eq_nil (by decide)⟩
  · decide
  · decide

theorem beside_same_texts :
    (beside "1".toList).source.read ⟨"z.scss".toList⟩ ≠
        (beside "2".toList).source.read ⟨"z.scss".toList⟩ ∧
      ∃ e s s',
        (Catalog.mk besideSettings (beside "1".toList).source).expandFile besideEntry .start =
          .ok e s ∧
        (Catalog.mk besideSettings (beside "2".toList).source).expandFile besideEntry .start =
          .ok e s' := by
  obtain ⟨s, h⟩ := beside_expandFile
  obtain ⟨s', h'⟩ := expandFile_of_same_texts besideSettings (beside "1".toList).source
    (beside "2".toList).source (Memory.lawful_source _) (Memory.lawful_source _) rfl rfl rfl
    besideEntry _ s h rfl (by
      intro d hd
      cases List.mem_singleton.1 hd
      rfl)
  exact ⟨by decide, _, s, s', h, h'⟩

end Catalog

end StyleBundle
