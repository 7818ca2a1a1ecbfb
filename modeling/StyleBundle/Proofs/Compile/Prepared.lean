import Mathlib.Data.List.DropRight
import StyleBundle.Compile.Compilation
import StyleBundle.Proofs.Compile.Replaced
import StyleBundle.Proofs.Lists
import StyleBundle.Proofs.Text.Split

/-!
# Package imports in the text for the backend

The text for the backend is made of the blocks of the global mixins and of the stylesheet, and
package imports are replaced in the stylesheet only.  So those of the mixins reach the backend as
they are (`Compilation.prepare_replaced_iff`).

A package import may also come about where two of the pieces meet: the one in front ends with a
keyword (`PackageImport.opens`), and the one behind starts with what belongs behind a keyword
(`PackageImport.continues`).  A block starts with a slash, so this happens in front of the
stylesheet only.
-/

namespace StyleBundle

namespace PackageImport

variable {t u v front rest directory : Text}

/-! ## Where two pieces meet -/

/-- Whether the text ends with a keyword, or with a keyword and white space. -/
def opens (t : Text) : Bool :=
  keywords.any fun keyword => keyword.isSuffixOf (t.rdropWhile isWhitespace)

/-- Whether the text starts with what belongs behind a keyword: white space, a quote, a tilde and
a character with which a path can start. -/
def continues (t : Text) : Bool :=
  match t.dropWhile isWhitespace with
  | quote :: '~' :: first :: _ => isQuote quote && first != '/' && !isQuote first
  | _ => false

theorem opens_iff :
    opens t = true ↔ ∃ before keyword space, keyword ∈ keywords ∧
    (∀ c ∈ space, isWhitespace c = true) ∧
      t = before ++ (keyword ++ space) := by
  simp only [opens, List.any_eq_true, List.isSuffixOf_iff_suffix]
  constructor
  · rintro ⟨keyword, hkeyword, before, hbefore⟩
    refine ⟨before, keyword, t.rtakeWhile isWhitespace, hkeyword,
      fun c hc => List.mem_rtakeWhile_imp hc, ?_⟩
    rw [← List.append_assoc, hbefore, List.rdropWhile_append_rtakeWhile]
  · rintro ⟨before, keyword, space, hkeyword, hwhite, rfl⟩
    obtain ⟨c, hlast, hletter⟩ := keyword_getLast? hkeyword
    obtain ⟨letters, rfl⟩ := List.getLast?_eq_some_iff.1 hlast
    have hdrop : (before ++ (letters ++ [c] ++ space)).rdropWhile isWhitespace =
        before ++ (letters ++ [c]) := by
      have hreverse : ∀ c ∈ space.reverse, isWhitespace c = true :=
        fun c hc => hwhite c (List.mem_reverse.1 hc)
      have hdrop := dropWhile_append_cons (t := letters.reverse ++ before.reverse)
        hreverse hletter
      simpa [List.rdropWhile] using congrArg List.reverse hdrop
    exact ⟨_, hkeyword, before, hdrop.symm⟩

theorem continues_iff :
    continues t = true ↔ ∃ space quote first, (∀ c ∈ space, isWhitespace c = true) ∧
    isQuote quote = true ∧
      first ≠ '/' ∧ isQuote first = false ∧ (space ++ [quote, '~']) ++ [first] <+: t := by
  constructor
  · intro h
    rw [continues] at h
    split at h
    · rename_i quote first behind hdrop
      have htext : t.takeWhile isWhitespace ++ t.dropWhile isWhitespace = t :=
        List.takeWhile_append_dropWhile
      rw [hdrop] at htext
      simp only [Bool.and_eq_true, bne_iff_ne, Bool.not_eq_true'] at h
      refine ⟨t.takeWhile isWhitespace, quote, first, fun c hc => List.mem_takeWhile_imp hc,
        h.1.1, h.1.2, h.2, behind, ?_⟩
      simpa using htext
    · cases h
  · rintro ⟨space, quote, first, hwhite, hquote, hslash, hfirst, behind, rfl⟩
    have htext : (space ++ [quote, '~']) ++ [first] ++ behind = space ++ quote :: '~' :: first ::
        behind := by
      simp
    rw [continues, htext, dropWhile_append_cons hwhite (isWhitespace_of_isQuote hquote)]
    simp [hquote, hslash, hfirst]

theorem newline_notMem_keyword {keyword : Text} (h : keyword ∈ keywords) : '\n' ∉ keyword := by
  revert keyword
  decide

/-- A site that is cut behind a line end is cut in its white space. -/
theorem Site.cut_core (s : Site t) (hcut : s.core = front ++ rest)
    (hfront : front.getLast? = some '\n') (hrest : rest ≠ []) :
    ∃ left right, s.space = left ++ right ∧ front = s.keyword ++ left ∧
      rest = (right ++ [s.quote, '~']) ++ [s.first] := by
  have hcore : s.keyword ++ (s.space ++ ([s.quote, '~'] ++ [s.first])) = front ++ rest := by
    simpa [core, head] using hcut
  rcases List.append_eq_append_iff.1 hcore with ⟨left, hleft, hspace⟩ | ⟨more, hkeyword, -⟩
  · rcases List.append_eq_append_iff.1 hspace with ⟨cut, hcut, hend⟩ | ⟨right, hright, hend⟩
    · -- What is cut off behind the white space would end with the quote or with the tilde.
      have hnil : cut = [] := by
        by_contra hne
        have hline : '\n' ∈ cut := by
          rw [hleft, hcut, ← List.append_assoc, List.getLast?_append_of_ne_nil _ hne] at hfront
          exact List.mem_of_getLast? hfront
        rcases List.prefix_concat_iff.1 ⟨rest, hend.symm⟩ with hall | hpart
        · rw [hall, List.self_eq_append_right] at hend
          exact hrest hend
        · have hmem := hpart.subset hline
          have hquote : '\n' ≠ s.quote := ne_quote s.isQuote_quote rfl
          simp [hquote] at hmem
      rw [hnil, List.append_nil] at hcut
      rw [hnil, List.nil_append] at hend
      exact ⟨left, [], by rw [hcut, List.append_nil], hleft, hend.symm⟩
    · exact ⟨left, right, hright, hleft, by simpa using hend⟩
  · have hline : '\n' ∈ s.keyword :=
      hkeyword ▸ List.mem_append_left _ (List.mem_of_getLast? hfront)
    exact absurd hline (newline_notMem_keyword s.keyword_mem)

/-- The sites of two pieces are those of either piece and the one that comes about where they
meet. -/
theorem nonempty_site_append_iff (hu : u.getLast? = some '\n') :
    Nonempty (Site (u ++ v)) ↔
      Nonempty (Site u) ∨ Nonempty (Site v) ∨ (opens u = true ∧ continues v = true) := by
  constructor
  · rintro ⟨s⟩
    rcases List.append_eq_append_iff.1 s.text_eq_core with ⟨more, -, hv⟩ | ⟨front, hfront, hcore⟩
    · right
      left
      rw [hv]
      exact ⟨(s.ofCore (List.prefix_append _ _)).prepend more⟩
    · have hleft : s.core <+: front → Nonempty (Site u) := by
        intro hstarts
        rw [hfront]
        exact ⟨(s.ofCore hstarts).prepend s.before⟩
      rcases List.append_eq_append_iff.1 hcore with ⟨more, hmore, -⟩ | ⟨rest, hcut, hrest⟩
      · exact .inl (hleft ⟨more, hmore.symm⟩)
      · by_cases hnone : rest = []
        · rw [hnone, List.append_nil] at hcut
          exact .inl (hleft (hcut ▸ List.prefix_rfl))
        · by_cases hempty : front = []
          · right
            left
            rw [hempty, List.nil_append] at hcut
            rw [hrest, ← hcut]
            exact ⟨s.ofCore (List.prefix_append _ _)⟩
          · -- The cut goes through the site.
            right
            right
            rw [hfront, List.getLast?_append_of_ne_nil _ hempty] at hu
            obtain ⟨left, right, hspace, rfl, rfl⟩ := s.cut_core hcut hu hnone
            have hwhite := s.white
            rw [hspace, List.forall_mem_append] at hwhite
            exact ⟨opens_iff.2 ⟨s.before, s.keyword, left, s.keyword_mem, hwhite.1, hfront⟩,
              continues_iff.2 ⟨right, s.quote, s.first, hwhite.2, s.isQuote_quote, s.first_ne,
                s.isQuote_first, s.behind, hrest.symm⟩⟩
  · rintro (⟨⟨s⟩⟩ | ⟨⟨s⟩⟩ | ⟨hopens, hcontinues⟩)
    · exact ⟨s.append v⟩
    · exact ⟨s.prepend u⟩
    · obtain ⟨before, keyword, left, hkeyword, hleft, rfl⟩ := opens_iff.1 hopens
      obtain ⟨right, quote, first, hright, hquote, hslash, hfirst, behind, rfl⟩ :=
        continues_iff.1 hcontinues
      exact ⟨⟨before, keyword, left ++ right, quote, first, behind, hkeyword,
        List.forall_mem_append.2 ⟨hleft, hright⟩, hquote, hslash, hfirst, by simp⟩⟩

theorem nonempty_site_newline_iff : Nonempty (Site ('\n' :: t)) ↔ Nonempty (Site t) := by
  constructor
  · rintro ⟨s⟩
    obtain ⟨s', -⟩ := Site.exists_of_le (u := ['\n']) s
      (s.le_start_of_notMem (u := ['\n']) (by decide))
    exact ⟨s'⟩
  · rintro ⟨s⟩
    exact ⟨s.prepend ['\n']⟩

theorem continues_newline : continues ('\n' :: t) = continues t := by
  rw [continues, continues, List.dropWhile_cons_of_pos (by decide)]

theorem continues_replace (hdirectory : directory.head? = some '/') :
    continues (replace directory t) = continues t := by
  rw [Bool.eq_iff_iff, continues_iff, continues_iff]
  constructor
  · rintro ⟨space, quote, first, hwhite, hquote, hslash, hfirst, h⟩
    refine ⟨space, quote, first, hwhite, hquote, hslash, hfirst,
      prefix_of_prefix_replace hdirectory ?_ h⟩
    simp [notMem_white hwhite (c := '/') rfl, ne_quote hquote (c := '/') rfl, hslash.symm]
  · rintro ⟨space, quote, first, hwhite, hquote, hslash, hfirst, h⟩
    refine ⟨space, quote, first, hwhite, hquote, hslash, hfirst, prefix_replace ?_ h⟩
    simp [notMem_white hwhite (c := '@') rfl, ne_quote hquote (c := '@') rfl]

/-! ## Joined pieces -/

theorem continues_of_head? (h : t.head? = some '/') : continues t = false := by
  obtain ⟨rest, rfl⟩ := List.head?_eq_some_iff.1 h
  rw [continues, List.dropWhile_cons_of_neg (by decide)]
  split
  · rename_i heq
    obtain ⟨rfl, -⟩ := List.cons.inj heq
    rfl
  · rfl

theorem joinWith_cons_append (block : Text) (blocks : List Text) (t : Text) :
    Text.joinWith ['\n'] (block :: blocks ++ [t]) =
      block ++ '\n' :: Text.joinWith ['\n'] (blocks ++ [t]) := by
  cases blocks with
  | nil => simp [Text.joinWith]
  | cons next blocks => simp [Text.joinWith_cons_cons]

/-- Among pieces that start with a slash and end a line, none meets the next one in a site. -/
theorem nonempty_site_joinWith_iff {blocks : List Text}
    (hblocks : ∀ block ∈ blocks, block.head? = some '/' ∧ block.getLast? = some '\n') :
    Nonempty (Site (Text.joinWith ['\n'] (blocks ++ [t]))) ↔
      (∃ block ∈ blocks, Nonempty (Site block)) ∨ Nonempty (Site t) ∨
        ∃ block ∈ blocks.getLast?, opens block = true ∧ continues t = true := by
  induction blocks with
  | nil => simp [Text.joinWith]
  | cons block blocks ih =>
    rw [joinWith_cons_append, nonempty_site_append_iff (hblocks block List.mem_cons_self).2,
      nonempty_site_newline_iff, continues_newline,
      ih fun other hother => hblocks other (List.mem_cons_of_mem _ hother)]
    cases blocks with
    | nil => simp [Text.joinWith]
    | cons next blocks =>
      have hslash : (Text.joinWith ['\n'] (next :: blocks ++ [t])).head? = some '/' := by
        rw [joinWith_cons_append, List.head?_append, (hblocks next (by simp)).1]
        rfl
      rw [continues_of_head? hslash, List.getLast?_cons_cons]
      simp [or_assoc]

end PackageImport

namespace Mixins

variable {m : Mixins} {tree : FileTree}

/-- The mixin with the name is found, and the text is its block. -/
def IsBlockOf (m : Mixins) (tree : FileTree) (name block : Text) : Prop :=
  ∃ file content, m.find? tree name = some (file, content) ∧ block = m.block file content

theorem load_eq_ok_iff {blocks : List Text} :
    m.load tree = .ok blocks ↔ List.Forall₂ (m.IsBlockOf tree) m.names blocks := by
  rw [load, mapM_eq_ok_iff]
  constructor
  · intro h
    refine h.imp fun name block hblock => ?_
    split at hblock
    · rename_i file content hfind
      cases hblock
      exact ⟨file, content, hfind, rfl⟩
    · cases hblock
  · intro h
    refine h.imp fun name block hblock => ?_
    obtain ⟨file, content, hfind, rfl⟩ := hblock
    rw [hfind]

theorem IsBlockOf.ends {name block : Text} (h : m.IsBlockOf tree name block) :
    block.head? = some '/' ∧ block.getLast? = some '\n' := by
  obtain ⟨file, content, -, rfl⟩ := h
  refine ⟨?_, List.getLast?_concat⟩
  unfold Mixins.block
  rw [List.head?_append, List.head?_append, List.head?_append]
  rfl

end Mixins

theorem Path.head?_display {directory : Path} (h : directory.isAbsolute = true) :
    directory.display.head? = some '/' := by
  rw [isAbsolute, beq_iff_eq] at h
  rw [display, Text.slashed, List.head?_map, h]
  rfl

theorem Path.isQuote_of_mem_display {directory : Path}
    (h : ∀ c ∈ directory.text, PackageImport.isQuote c = false) :
    ∀ c ∈ directory.display, PackageImport.isQuote c = false := by
  intro c hc
  rw [display, Text.slashed, List.mem_map] at hc
  obtain ⟨d, hd, rfl⟩ := hc
  split
  · rfl
  · exact h d hd

namespace Compilation

open PackageImport

/-- The text for the backend has no package import exactly when the mixins have none, each one of
the stylesheet has white space behind its keyword, and none comes about where the last mixin meets
the stylesheet. -/
theorem prepare_replaced_iff (p : Compilation) (tree : FileTree) (mixins : Mixins)
    (directory : Path) (expanded : Text) (hmixins : p.mixins = some mixins)
    (hdirectory : p.packageDir = some directory) (habsolute : directory.isAbsolute = true)
    (hplain : ∀ c ∈ directory.text, isQuote c = false)
    (hfound : ∀ name ∈ mixins.names, (mixins.find? tree name).isSome = true)
    (hclear : Unhidden expanded) :
    ∃ blocks text,
      List.Forall₂ (mixins.IsBlockOf tree) mixins.names blocks ∧
      p.prepare tree expanded = .ok text ∧ (IsEmpty (Site text) ↔
        (∀ block ∈ blocks, IsEmpty (Site block)) ∧ (∀ s : Site expanded, s.Spaced) ∧
          ∀ block ∈ blocks.getLast?, opens block = true → continues expanded = false) := by
  obtain ⟨blocks, hblocks⟩ :
      ∃ blocks, List.Forall₂ (mixins.IsBlockOf tree) mixins.names blocks := by
    apply exists_forall₂
    intro name hname
    obtain ⟨⟨file, content⟩, hfind⟩ := Option.isSome_iff_exists.1 (hfound name hname)
    exact ⟨_, file, content, hfind, rfl⟩
  have hprepare : p.prepare tree expanded =
      .ok (Text.joinWith ['\n'] (blocks ++ [replace directory.display expanded])) := by
    have hreplace : p.replacePackages expanded = replace directory.display expanded := by
      rw [replacePackages, hdirectory]
    rw [prepare, hmixins]
    simp only [Mixins.load_eq_ok_iff.2 hblocks, hreplace]
    rfl
  have hends : ∀ block ∈ blocks, block.head? = some '/' ∧ block.getLast? = some '\n' := by
    intro block hblock
    obtain ⟨name, -, hname⟩ := exists_left_of_forall₂ hblocks hblock
    exact hname.ends
  have hhead := Path.head?_display habsolute
  refine ⟨blocks, _, hblocks, hprepare, ?_⟩
  rw [← not_nonempty_iff, nonempty_site_joinWith_iff hends,
    nonempty_site_replace_iff hhead (Path.isQuote_of_mem_display hplain) hclear,
    continues_replace hhead]
  simp only [not_or, not_exists, not_and, not_nonempty_iff, not_not, Bool.not_eq_true]

/-! ### A mixin without an import and one with an import -/

/-- The directory of the stylesheets, with a mixin. -/
def sharedTree (mixin : Text) : FileTree :=
  ⟨[(["s".toList], .directory), (["s".toList, "m.scss".toList], .file (.text mixin))], []⟩

/-- One global mixin. -/
def sharedMixins : Mixins :=
  ⟨⟨"/".toList⟩, ⟨"/s".toList⟩, ["m".toList]⟩

/-- The mixin is put in front, and packages lie in `/n`. -/
def sharedCompilation : Compilation :=
  ⟨.passthrough, some sharedMixins, some ⟨"/n".toList⟩⟩

/-- A stylesheet that imports a package file. -/
def sharedSheet : Text :=
  "@use \"~p\";".toList

private theorem sharedSheet_spaced (s : Site sharedSheet) : s.Spaced := by
  refine s.spaced_of_start_le (u := "@use ".toList) (v := "~p\";".toList) rfl
    (plain_of_all rfl) rfl ?_ rfl rfl
  by_contra hlt
  obtain ⟨s', -⟩ := Site.exists_of_le (u := "@use \"".toList) (v := "~p\";".toList) s
    (Nat.not_le.1 hlt)
  exact absurd (List.mem_of_getElem? s'.getElem?_start) (by decide)

theorem shared_replaced :
    sharedCompilation.prepare (sharedTree "$a: 1;".toList) sharedSheet =
        .ok "// Global mixin from: s/m.scss\n$a: 1;\n\n@use \"/n/p\";".toList ∧
      IsEmpty (Site "// Global mixin from: s/m.scss\n$a: 1;\n\n@use \"/n/p\";".toList) := by
  have hprepare : sharedCompilation.prepare (sharedTree "$a: 1;".toList) sharedSheet =
      .ok "// Global mixin from: s/m.scss\n$a: 1;\n\n@use \"/n/p\";".toList := rfl
  have hload : sharedMixins.load (sharedTree "$a: 1;".toList) =
      .ok ["// Global mixin from: s/m.scss\n$a: 1;\n".toList] := rfl
  obtain ⟨blocks, text, hblocks, htext, hiff⟩ :=
    prepare_replaced_iff sharedCompilation (sharedTree "$a: 1;".toList) sharedMixins ⟨"/n".toList⟩
      sharedSheet rfl rfl rfl (plain_of_all rfl) (by decide) (by decide)
  obtain rfl := Except.ok.inj (hprepare.symm.trans htext)
  obtain rfl := Except.ok.inj (hload.symm.trans (Mixins.load_eq_ok_iff.2 hblocks))
  refine ⟨hprepare, hiff.2 ⟨?_, sharedSheet_spaced, ?_⟩⟩
  · intro block hblock
    obtain rfl := List.mem_singleton.1 hblock
    exact isEmpty_site_of_plain (plain_of_all rfl)
  · intro block _ _
    rfl

/-- The package import of a mixin is not replaced, though no keyword is hidden. -/
theorem shared_import_left :
    Unhidden "@import \"~p\";".toList ∧
      sharedCompilation.prepare (sharedTree "@import \"~p\";".toList) [] =
        .ok "// Global mixin from: s/m.scss\n@import \"~p\";\n\n".toList ∧
      Nonempty (Site "// Global mixin from: s/m.scss\n@import \"~p\";\n\n".toList) :=
  ⟨by decide, rfl, ⟨⟨"// Global mixin from: s/m.scss\n".toList, "@import".toList, [' '], '"', 'p',
    "\";\n\n".toList, by decide, List.all_eq_true.1 rfl, rfl, by decide, rfl, rfl⟩⟩⟩

end Compilation

end StyleBundle
