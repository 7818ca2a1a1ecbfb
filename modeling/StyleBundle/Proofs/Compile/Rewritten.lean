import StyleBundle.Compile.Sass
import StyleBundle.Proofs.Json.Members
import StyleBundle.Proofs.Path.Renamed

/-!
# Source maps for the logical file

`SourceMap.Rewritten` says which value is a source map for the logical file, by its names and the
values under them.  There is one such value (`SourceMap.rewritten_iff`): the logical file stands
where the input stood among the sources, the map names the CSS file if it named one, and nothing
else is different.

The CSS file has the name of the logical file with another extension (`SourceMap.NamesCss`),
except for logical files like `..scss`, for which the map names no file
(`SourceMap.cssName_of_endsDotted`).
-/

namespace StyleBundle

namespace SourceMap

variable {input logical : Path} {css : Text} {before after other : Json}

/-! ## What a map for the logical file is -/

/-- The name of the CSS file for a path: its file name with another extension, and the empty text
for a path without a file name. -/
inductive NamesCss (p : Path) : Text → Prop where
  | unnamed : p.fileName? = none → NamesCss p []
  | named {name css : Text} : p.fileName? = some name → Path.Renamed "css".toList name css →
      NamesCss p css

/-- Sources with one URL for another, each at its place. -/
structure Replaces (old new : Text) (before after : List Json) : Prop where
  length : after.length = before.length
  changed : ∀ i : Nat, before[i]? = some (.string old) → after[i]? = some (.string new)
  kept : ∀ (i : Nat) (source : Json), before[i]? = some source → source ≠ .string old →
    after[i]? = some source

/-- `after` is the source map `before` for the logical file instead of the input, and for a CSS
file with the given name. -/
structure Rewritten (input logical : Path) (css : Text) (before after : Json) : Prop where
  plain : before.names? = none → after = before
  names : after.names? = before.names?
  others : ∀ name, name ≠ "sources".toList → name ≠ "file".toList →
    after.get? name = before.get? name
  file : after.get? "file".toList = (before.get? "file".toList).map fun _ => .string css
  sources : ∀ items, before.get? "sources".toList = some (.array items) →
    ∃ replaced, after.get? "sources".toList = some (.array replaced) ∧
      Replaces (fileUrl input) (fileUrl logical) items replaced
  unlisted : (∀ items, before.get? "sources".toList ≠ some (.array items)) →
    after.get? "sources".toList = before.get? "sources".toList

/-- A source that is a text. -/
def sourceText? : Json → Option Text
  | .string url => some url
  | _ => none

/-- The texts among the sources. -/
def sourceTexts (map : Json) : List Text :=
  match map.get? "sources".toList with
  | some (.array items) => items.filterMap sourceText?
  | _ => []

/-! ## There is one -/

theorem Replaces.unique {old new : Text} {items a b : List Json} (ha : Replaces old new items a)
    (hb : Replaces old new items b) : a = b := by
  refine List.ext_getElem? fun i => ?_
  cases hi : items[i]? with
  | none =>
    rw [List.getElem?_eq_none_iff] at hi
    rw [List.getElem?_eq_none (ha.length ▸ hi), List.getElem?_eq_none (hb.length ▸ hi)]
  | some source =>
    by_cases hold : source = .string old
    · subst hold
      rw [ha.changed i hi, hb.changed i hi]
    · rw [ha.kept i source hi hold, hb.kept i source hi hold]

theorem Rewritten.get?_eq (ha : Rewritten input logical css before after)
    (hb : Rewritten input logical css before other) (name : Text) :
    after.get? name = other.get? name := by
  by_cases hsources : name = "sources".toList
  · subst hsources
    by_cases hlist : ∃ items, before.get? "sources".toList = some (.array items)
    · obtain ⟨items, hitems⟩ := hlist
      obtain ⟨a, hgeta, ha⟩ := ha.sources items hitems
      obtain ⟨b, hgetb, hb⟩ := hb.sources items hitems
      rw [hgeta, hgetb, ha.unique hb]
    · have hunlisted := not_exists.1 hlist
      rw [ha.unlisted hunlisted, hb.unlisted hunlisted]
  · by_cases hfile : name = "file".toList
    · rw [hfile, ha.file, hb.file]
    · rw [ha.others name hsources hfile, hb.others name hsources hfile]

theorem exists_members {value : Json} {names : List Text} (h : value.names? = some names) :
    ∃ members, value = .object members ∧ members.map Prod.fst = names := by
  cases value with
  | object members => exact ⟨members, rfl, Option.some.inj h⟩
  | _ => cases h

theorem Rewritten.unique (hd : before.Distinct) (ha : Rewritten input logical css before after)
    (hb : Rewritten input logical css before other) : after = other := by
  cases hnames : before.names? with
  | none => rw [ha.plain hnames, hb.plain hnames]
  | some names =>
    obtain ⟨members, rfl, hmembers⟩ := exists_members hnames
    obtain ⟨a, rfl, hna⟩ := exists_members (ha.names.trans hnames)
    obtain ⟨b, rfl, hnb⟩ := exists_members (hb.names.trans hnames)
    have hnodup : (a.map Prod.fst).Nodup := by
      rw [hna, ← hmembers]
      exact hd
    rw [Json.members_eq_of_get? hnodup (hna.trans hnb.symm) fun name => ha.get?_eq hb name]

/-! ## The map that is written -/

theorem get?_replace (input logical : Path) (map : Json) (name : Text) :
    (replace input logical map).get? name =
      (map.get? name).map (replaceMember input logical name) := by
  cases map with
  | object members => exact Json.get?_map (replaceMember input logical) members name
  | _ => rfl

theorem names?_replace (input logical : Path) (map : Json) :
    (replace input logical map).names? = map.names? := by
  cases map with
  | object members => simp [replace, Json.names?]
  | _ => rfl

theorem replaces_map (old new : Text) (items : List Json) :
    Replaces old new items (items.map (replaceSource old new)) := by
  refine ⟨List.length_map _, fun i hi => ?_, fun i source hi hne => ?_⟩
  · rw [List.getElem?_map, hi]
    simp [replaceSource]
  · rw [List.getElem?_map, hi]
    cases source with
    | string url =>
      have hurl : url ≠ old := fun heq => hne (heq ▸ rfl)
      simp [replaceSource, hurl]
    | _ => rfl

theorem rewritten_replace (input logical : Path) (before : Json) :
    Rewritten input logical (cssName logical) before (replace input logical before) where
  plain h := by
    cases before with
    | object members => cases h
    | _ => rfl
  names := names?_replace input logical before
  others name hsources hfile := by
    rw [get?_replace]
    cases before.get? name with
    | none => rfl
    | some value => simp only [Option.map_some, replaceMember, if_neg hsources, if_neg hfile]
  file := by
    rw [get?_replace]
    rfl
  sources items hitems := by
    rw [get?_replace, hitems]
    exact ⟨_, rfl, replaces_map _ _ items⟩
  unlisted h := by
    rw [get?_replace]
    cases hget : before.get? "sources".toList with
    | none => rfl
    | some value =>
      cases value with
      | array items => exact absurd hget (h items)
      | _ => rfl

theorem rewritten_iff (hd : before.Distinct) {map : Json} :
    Rewritten input logical (cssName logical) before map ↔ map = replace input logical before :=
  ⟨fun h => h.unique hd (rewritten_replace input logical before),
    fun h => h ▸ rewritten_replace input logical before⟩

theorem loadedUrls_eq (input : Path) (map : Json) :
    loadedUrls input map = (sourceTexts map).filter fun url => decide (url ≠ fileUrl input) := by
  have hsource : ∀ source, loadedUrl? (fileUrl input) source =
      (sourceText? source).filter fun url => decide (url ≠ fileUrl input) := by
    intro source
    cases source with
    | string url =>
      by_cases hurl : url = fileUrl input <;> simp [loadedUrl?, sourceText?, hurl, Option.filter]
    | _ => rfl
  rw [loadedUrls, sourceTexts]
  cases map.get? "sources".toList with
  | none => rfl
  | some value =>
    cases value with
    | array items =>
      change items.filterMap _ = (items.filterMap sourceText?).filter _
      rw [List.filter_filterMap, funext hsource]
    | _ => rfl

/-! ## The name of the CSS file -/

theorem namesCss_cssName (h : ¬ logical.EndsDotted) : NamesCss logical (cssName logical) := by
  cases hname : logical.fileName? with
  | none =>
    rw [cssName, Path.fileName?_withExtension_of_none hname]
    exact .unnamed hname
  | some name =>
    obtain ⟨_, _, hends⟩ := Path.exists_ends hname
    rw [cssName, Path.fileName?_withExtension hname h (by decide) (by decide)]
    exact .named hname ((Path.renamed_iff hends.isName.ne_nil).2 rfl)

theorem cssName_of_endsDotted (h : logical.EndsDotted) : cssName logical = [] := by
  rw [cssName, Path.fileName?_withExtension_of_endsDotted h]
  rfl

theorem exists_namesCss_of_endsDotted (h : logical.EndsDotted) : ∃ css, NamesCss logical css := by
  obtain ⟨_, _, _, _, hends⟩ := h.exists_ends
  exact ⟨_, .named hends.fileName? ((Path.renamed_iff hends.isName.ne_nil).2 rfl)⟩

theorem NamesCss.ne_nil_of_endsDotted (hcss : NamesCss logical css) (h : logical.EndsDotted) :
    css ≠ [] := by
  obtain ⟨_, _, _, _, hends⟩ := h.exists_ends
  cases hcss with
  | unnamed hnone => simp [hends.fileName?] at hnone
  | named _ hrenamed =>
    cases hrenamed with
    | replaced _ _ => simp
    | added _ => simp

/-- A map that names no CSS file is right for every name. -/
theorem Rewritten.of_unnamed (h : Rewritten input logical css before after)
    (hfile : before.get? "file".toList = none) (css' : Text) :
    Rewritten input logical css' before after where
  plain := h.plain
  names := h.names
  others := h.others
  file := by rw [h.file, hfile]; rfl
  sources := h.sources
  unlisted := h.unlisted

/-! ## Reading a map -/

theorem readMap_of_parse? {text : Text} (h : Json.parse? text = some before) :
    Sass.readMap input logical text =
      .ok ((replace input logical before).compact, loadedUrls input before) := by
  rw [Sass.readMap, h]

/-- Every JSON value can be read as a source map, and the loaded URLs are the other texts among
its sources.  What is written is the map for the logical file, unless it names a CSS file and the
logical file is one like `..scss`; then the name is empty and all else is as it should be. -/
theorem readMap_rewritten_iff (input logical : Path) {text : Text} {before : Json}
    (h : Json.parse? text = some before) :
    ∃ after, Sass.readMap input logical text = .ok (after.compact,
        (sourceTexts before).filter fun url => decide (url ≠ fileUrl input)) ∧
      ((∃ css, NamesCss logical css ∧
          ∀ map, Rewritten input logical css before map ↔ map = after) ↔
        (logical.EndsDotted → before.get? "file".toList = none)) ∧
      (logical.EndsDotted → ∀ map, Rewritten input logical [] before map ↔ map = after) := by
  have hd := Json.distinct_of_parse? h
  have hwritten : ∀ map, Rewritten input logical (cssName logical) before map ↔
      map = replace input logical before := fun _ => rewritten_iff hd
  refine ⟨replace input logical before, ?_, ⟨?_, ?_⟩, fun hend => ?_⟩
  · rw [readMap_of_parse? h, loadedUrls_eq]
  · rintro ⟨css, hcss, hall⟩ hend
    -- The one map would have to give the CSS file both names.
    have hnamed := ((hall _).2 rfl).file
    rw [((hwritten _).2 rfl).file, cssName_of_endsDotted hend] at hnamed
    cases hfile : before.get? "file".toList with
    | none => rfl
    | some value =>
      rw [hfile, Option.map_some, Option.map_some, Option.some.injEq, Json.string.injEq] at hnamed
      exact absurd hnamed.symm (hcss.ne_nil_of_endsDotted hend)
  · intro hfile
    by_cases hend : logical.EndsDotted
    · obtain ⟨css, hcss⟩ := exists_namesCss_of_endsDotted hend
      refine ⟨css, hcss, fun map => ⟨fun hmap => ?_, fun hmap => ?_⟩⟩
      · exact (hwritten map).1 (hmap.of_unnamed (hfile hend) _)
      · exact ((hwritten map).2 hmap).of_unnamed (hfile hend) _
    · exact ⟨cssName logical, namesCss_cssName hend, hwritten⟩
  · rw [← cssName_of_endsDotted hend]
    exact hwritten

/-- A map with the input twice among its sources, and a source that is no text. -/
def twiceMap : Text :=
  ("\x7b\"version\":3,\"file\":\"i\"," ++
    "\"sources\":[\"file:///t\",7,\"b\",\"file:///t\",\"b\"]\x7d").toList

/-- The map as a value.  Members are kept in the order of their names. -/
def twiceValue : Json :=
  .object [("file".toList, .string "i".toList),
    ("sources".toList, .array [.string "file:///t".toList, .number (.natural 7),
      .string "b".toList, .string "file:///t".toList, .string "b".toList]),
    ("version".toList, .number (.natural 3))]

theorem twice_map_rewritten :
    Json.parse? twiceMap = some twiceValue ∧
      ∃ css after, NamesCss ⟨"/s/a.scss".toList⟩ css ∧
        Sass.readMap ⟨"/t".toList⟩ ⟨"/s/a.scss".toList⟩ twiceMap =
          .ok (after.compact, ["b".toList, "b".toList]) ∧
        ∀ map, Rewritten ⟨"/t".toList⟩ ⟨"/s/a.scss".toList⟩ css twiceValue map ↔ map = after := by
  have hparse : Json.parse? twiceMap = some twiceValue := by rfl
  have hplain : ¬ Path.EndsDotted ⟨"/s/a.scss".toList⟩ := by
    rintro ⟨ext, -, -, hlast⟩
    have hname : (Text.split '/' "/s/a.scss".toList).getLast? = some ('a' :: ".scss".toList) := by
      rfl
    rw [hname] at hlast
    simp at hlast
  obtain ⟨after, hread, hiff, -⟩ :=
    readMap_rewritten_iff ⟨"/t".toList⟩ ⟨"/s/a.scss".toList⟩ hparse
  obtain ⟨css, hcss, hall⟩ := hiff.2 fun hend => absurd hend hplain
  exact ⟨hparse, css, after, hcss, hread, hall⟩

/-- The CSS file for `..scss` is `..css`, and the map names no file. -/
theorem dotted_map_unnamed :
    NamesCss ⟨"/a/..scss".toList⟩ "..css".toList ∧
      Sass.readMap ⟨"/t".toList⟩ ⟨"/a/..scss".toList⟩
          "\x7b\"file\":\"i\",\"sources\":[]\x7d".toList =
        .ok ("\x7b\"file\":\"\",\"sources\":[]\x7d".toList, []) := by
  constructor
  · have hrenamed : Path.Renamed "css".toList (['.'] ++ '.' :: "scss".toList)
        (['.'] ++ '.' :: "css".toList) := .replaced (by simp) (by decide)
    exact .named (by rfl) hrenamed
  · have hparse : Json.parse? "\x7b\"file\":\"i\",\"sources\":[]\x7d".toList =
        some (.object [("file".toList, .string "i".toList), ("sources".toList, .array [])]) := by
      rfl
    have hreplace : replace ⟨"/t".toList⟩ ⟨"/a/..scss".toList⟩
        (.object [("file".toList, .string "i".toList), ("sources".toList, .array [])]) =
          .object [("file".toList, .string []), ("sources".toList, .array [])] := by
      rfl
    have hcompact :
        (Json.object [("file".toList, .string []), ("sources".toList, .array [])]).compact =
          "\x7b\"file\":\"\",\"sources\":[]\x7d".toList := by
      simp only [Json.compact, Json.compactMembers, Json.compactItems]
      rfl
    rw [readMap_of_parse? hparse, hreplace, hcompact]
    rfl

end SourceMap

end StyleBundle
