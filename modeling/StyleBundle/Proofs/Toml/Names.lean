import Mathlib.Data.List.Nodup
import StyleBundle.Proofs.Lists
import StyleBundle.Toml.Parser

/-!
# Names in a TOML document

The tables of a document have different names in them (`Toml.distinct_of_parse?`).  Every change
to a table under construction is a change at the end of a path (`Toml.reach`), and puts a name
there that is new.  The table of a header is put in its place when the next header is read, so its
name has to stay free until then (`Toml.Draft.Distinct`).
-/

namespace StyleBundle

namespace Toml

/-- The names of a table are different. -/
def Distinct : Toml → Prop
  | .table entries => (entries.map Prod.fst).Nodup
  | _ => True

/-- The names of each table of an entry under construction are different. -/
inductive Item.Distinct : Item → Prop
  | value {value : Toml} : value.Distinct → Item.Distinct (.value value)
  | table {origin : Origin} {entries : Entries} :
    (entries.map Prod.fst).Nodup → (∀ entry ∈ entries, Item.Distinct entry.2) →
    Item.Distinct (.table origin entries)
  | tables {elements : List Entries} :
    (∀ entries ∈ elements, (entries.map Prod.fst).Nodup) →
    (∀ entries ∈ elements, ∀ entry ∈ entries, Item.Distinct entry.2) →
    Item.Distinct (.tables elements)

/-! ## Tables under construction -/

/-- The names of the table and of all tables in it are different. -/
structure Entries.Distinct (entries : Entries) : Prop where
  names : (entries.map Prod.fst).Nodup
  items : ∀ entry ∈ entries, entry.2.Distinct

theorem distinct_nil : Entries.Distinct [] :=
  ⟨List.nodup_nil, by simp⟩

namespace Entries

variable {entries : Entries} {name : Text} {item : Item}

theorem find?_eq_none_iff : entries.find? name = none ↔ name ∉ entries.map Prod.fst := by
  rw [Entries.find?, Option.map_eq_none_iff, List.find?_eq_none, List.mem_map, not_exists]
  refine forall_congr' fun entry => ?_
  rw [beq_iff_eq, not_and]

theorem mem_of_find? (h : entries.find? name = some item) : (name, item) ∈ entries := by
  obtain ⟨⟨other, item⟩, hfind, rfl⟩ := Option.map_eq_some_iff.1 h
  obtain rfl : other = name := by simpa using List.find?_some hfind
  exact List.mem_of_find?_eq_some hfind

theorem find?_append_new (h : name ∉ entries.map Prod.fst) (item : Item) :
    Entries.find? (entries ++ [(name, item)]) name = some item := by
  have hnone := find?_eq_none_iff.2 h
  rw [Entries.find?, Option.map_eq_none_iff] at hnone
  rw [Entries.find?, List.find?_append, hnone]
  simp

theorem names_replace (entries : Entries) (name : Text) (item : Item) :
    (entries.replace name item).map Prod.fst = entries.map Prod.fst := by
  rw [replace, List.map_map]
  refine List.map_congr_left fun entry _ => ?_
  simp only [Function.comp]
  split_ifs <;> rfl

theorem find?_replace (h : entries.find? name = some item) (other : Item) :
    (entries.replace name other).find? name = some other := by
  induction entries with
  | nil => cases h
  | cons entry entries ih =>
    obtain ⟨first, kept⟩ := entry
    by_cases hfirst : first = name
    · simp [replace, Entries.find?, hfirst]
    · simp only [replace, Entries.find?, List.map_cons, hfirst, if_false,
        List.find?_cons] at h ih ⊢
      simp only [beq_eq_false_iff_ne.2 hfirst] at h ⊢
      exact ih h

theorem Distinct.append (h : entries.Distinct) (hnew : name ∉ entries.map Prod.fst)
    (hitem : item.Distinct) : Entries.Distinct (entries ++ [(name, item)]) := by
  constructor
  · rw [List.map_append, List.nodup_append]
    refine ⟨h.names, by simp, ?_⟩
    simpa using fun other hother => ne_of_mem_of_not_mem hother hnew
  · simpa [or_imp, forall_and, hitem] using h.items

theorem Distinct.replace (h : entries.Distinct) (name : Text) (hitem : item.Distinct) :
    (entries.replace name item).Distinct := by
  refine ⟨names_replace entries name item ▸ h.names, fun entry hentry => ?_⟩
  obtain ⟨⟨other, kept⟩, hkept, rfl⟩ := List.mem_map.1 hentry
  simp only
  split_ifs
  · exact hitem
  · exact h.items _ hkept

theorem Distinct.of_find? (h : entries.Distinct) (hfind : entries.find? name = some item) :
    item.Distinct :=
  h.items _ (mem_of_find? hfind)

end Entries

theorem distinct_of_table {origin : Origin} {entries : Entries}
    (h : Item.Distinct (.table origin entries)) : entries.Distinct := by
  cases h with
  | table hnames hitems => exact ⟨hnames, hitems⟩

theorem distinct_of_tables {elements : List Entries} (h : Item.Distinct (.tables elements)) :
    ∀ entries ∈ elements, entries.Distinct := by
  cases h with
  | tables hnames hitems =>
    exact fun entries hentries => ⟨hnames entries hentries, hitems entries hentries⟩

theorem tables_distinct {elements : List Entries} (h : ∀ entries ∈ elements, entries.Distinct) :
    Item.Distinct (.tables elements) :=
  .tables (fun entries hentries => (h entries hentries).names) fun entries hentries =>
    (h entries hentries).items

/-! ## The end of a path -/

/-- The table that a name leads to, the latest one of a list. -/
def inner (entries : Entries) (name : Text) : Entries :=
  match entries.find? name with
  | some (.table _ entries) => entries
  | some (.tables elements) => elements.getLast?.getD []
  | _ => []

/-- The table at the end of a path. -/
def reach : List Text → Entries → Entries
  | [], entries => entries
  | name :: path, entries => reach path (inner entries name)

theorem Entries.Distinct.inner {entries : Entries} (h : entries.Distinct) (name : Text) :
    (inner entries name).Distinct := by
  rw [Toml.inner]
  split
  · rename_i hfind
    exact distinct_of_table (h.of_find? hfind)
  · rename_i elements hfind
    cases hlast : elements.getLast? with
    | none => exact distinct_nil
    | some latest =>
      exact distinct_of_tables (h.of_find? hfind) latest (List.mem_of_getLast? hlast)
  · exact distinct_nil

theorem Entries.Distinct.reach {entries : Entries} (h : entries.Distinct) (path : List Text) :
    (reach path entries).Distinct := by
  induction path generalizing entries with
  | nil => exact h
  | cons name path ih => exact ih (h.inner name)

section Descend

variable {α : Type} {created origin : Origin} {change : Origin → Entries → Option (α × Entries)}
  {name : Text} {path : List Text} {entries entries' : Entries} {result : α}

/-- A path leads through the table of its first name, which takes the place of the old one. -/
theorem cases_of_descend
    (h : descend created change (name :: path) origin entries = some (result, entries')) :
    ∃ next changed, descend created change path next (inner entries name) =
      some (result, changed) ∧ inner entries' name = changed ∧
      (entries.Distinct → changed.Distinct → entries'.Distinct) := by
  rw [descend] at h
  cases hfind : entries.find? name with
  | none =>
    simp only [hfind] at h
    obtain ⟨⟨result, made⟩, hmade, h⟩ := Option.bind_eq_some_iff.1 h
    cases h
    have hnew := Entries.find?_eq_none_iff.1 hfind
    refine ⟨created, made, ?_, ?_, fun hentries hchanged => ?_⟩
    · simpa only [inner, hfind] using hmade
    · simp only [inner, Entries.find?_append_new hnew]
    · exact hentries.append hnew (.table hchanged.names hchanged.items)
  | some item =>
    cases item with
    | value value =>
      simp only [hfind] at h
      cases h
    | table origin old =>
      simp only [hfind] at h
      split_ifs at h
      · cases h
      obtain ⟨⟨result, changed⟩, hchanged, h⟩ := Option.bind_eq_some_iff.1 h
      cases h
      refine ⟨origin, changed, ?_, ?_, fun hentries hdistinct => ?_⟩
      · simpa only [inner, hfind] using hchanged
      · simp only [inner, Entries.find?_replace hfind]
      · exact hentries.replace name (.table hdistinct.names hdistinct.items)
    | tables elements =>
      cases hlast : elements.getLast? with
      | none =>
        simp only [hfind, hlast] at h
        cases h
      | some latest =>
        simp only [hfind, hlast] at h
        obtain ⟨⟨result, changed⟩, hchanged, h⟩ := Option.bind_eq_some_iff.1 h
        cases h
        refine ⟨.header, changed, ?_, ?_, fun hentries hdistinct => ?_⟩
        · simpa only [inner, hfind, hlast, Option.getD_some] using hchanged
        · simp [inner, Entries.find?_replace hfind]
        · refine hentries.replace name (tables_distinct fun table htable => ?_)
          rcases List.mem_append.1 htable with htable | htable
          · exact distinct_of_tables (hentries.of_find? hfind) table
              (List.dropLast_subset _ htable)
          · rw [List.mem_singleton.1 htable]
            exact hdistinct

/-- What is changed is the table at the end of the path. -/
theorem exists_change_of_descend
    (h : descend created change path origin entries = some (result, entries')) :
    ∃ last, change last (reach path entries) = some (result, reach path entries') := by
  induction path generalizing origin entries entries' with
  | nil => exact ⟨origin, h⟩
  | cons name path ih =>
    obtain ⟨next, changed, hchanged, hinner, _⟩ := cases_of_descend h
    rw [reach, reach, hinner]
    exact ih hchanged

/-- Names stay different if those at the end of the path do. -/
theorem Entries.Distinct.descend (hentries : entries.Distinct)
    (h : descend created change path origin entries = some (result, entries'))
    (hend : (Toml.reach path entries').Distinct) : entries'.Distinct := by
  induction path generalizing origin entries entries' with
  | nil => exact hend
  | cons name path ih =>
    obtain ⟨next, changed, hchanged, hinner, hdistinct⟩ := cases_of_descend h
    rw [Toml.reach, hinner] at hend
    exact hdistinct hentries (ih (hentries.inner name) hchanged hend)

end Descend

theorem Entries.Distinct.assign {path : List Text} {name : Text} {value : Toml}
    {entries entries' : Entries} (hentries : entries.Distinct) (hvalue : value.Distinct)
    (h : assign path name value entries = some entries') : entries'.Distinct := by
  obtain ⟨⟨_, changed⟩, hdescend, rfl⟩ := Option.map_eq_some_iff.1 h
  obtain ⟨last, hchange⟩ := exists_change_of_descend hdescend
  refine hentries.descend hdescend ?_
  split_ifs at hchange with hrefused
  rw [not_or, Bool.not_eq_true, Option.isSome_eq_false_iff, Option.isNone_iff_eq_none] at hrefused
  rw [← (Prod.mk.inj (Option.some.inj hchange)).2]
  exact (hentries.reach path).append (Entries.find?_eq_none_iff.1 hrefused.2) (.value hvalue)

/-! ## Documents under construction -/

namespace Draft

variable {d d' : Draft} {header : Header} {entries : Entries}

/-- The names of all tables are different, and the name of the table under construction is
free. -/
structure Distinct (d : Draft) : Prop where
  root : d.root.Distinct
  current : d.current.Distinct
  free : ∀ header, d.header = some header → header.isElement = false →
    header.name ∉ (reach header.path d.root).map Prod.fst

theorem distinct_empty : empty.Distinct :=
  ⟨distinct_nil, distinct_nil, by simp [empty]⟩

theorem distinct_place {table entries' : Entries} (hentries : entries.Distinct)
    (htable : table.Distinct)
    (hfree : header.isElement = false → header.name ∉ entries.map Prod.fst)
    (h : place header table entries = some entries') : entries'.Distinct := by
  rw [place] at h
  split at h
  · rename_i helement
    cases h
    exact hentries.append (hfree helement) (.table htable.names htable.items)
  · rename_i hfind
    cases h
    refine hentries.append (Entries.find?_eq_none_iff.1 hfind) (tables_distinct ?_)
    simpa using htable
  · rename_i elements hfind
    cases h
    refine hentries.replace header.name (tables_distinct fun other hother => ?_)
    rcases List.mem_append.1 hother with hother | hother
    · exact distinct_of_tables (hentries.of_find? hfind) other hother
    · rw [List.mem_singleton.1 hother]
      exact htable
  · cases h

theorem Distinct.close (hd : d.Distinct) (h : d.close = some entries) : entries.Distinct := by
  rw [Draft.close] at h
  split at h
  · cases h
    exact hd.current
  · rename_i header hheader
    obtain ⟨⟨_, changed⟩, hdescend, rfl⟩ := Option.map_eq_some_iff.1 h
    obtain ⟨_, hchange⟩ := exists_change_of_descend hdescend
    obtain ⟨placed, hplace, hplaced⟩ := Option.map_eq_some_iff.1 hchange
    refine hd.root.descend hdescend ?_
    rw [← (Prod.mk.inj hplaced).2]
    exact distinct_place (hd.root.reach _) hd.current (hd.free header hheader) hplace

/-- A table that is opened again takes its name with it. -/
theorem distinct_begin {table entries' : Entries} (hentries : entries.Distinct)
    (h : begin header entries = some (table, entries')) :
    table.Distinct ∧ entries'.Distinct ∧
      (header.isElement = false → header.name ∉ entries'.map Prod.fst) := by
  rw [begin] at h
  split at h
  · rename_i hfind
    cases h
    exact ⟨distinct_nil, hentries, fun _ => Entries.find?_eq_none_iff.1 hfind⟩
  · rename_i hfind
    cases h
    refine ⟨distinct_of_table (hentries.of_find? hfind), ⟨?_, ?_⟩, fun _ => ?_⟩
    · exact hentries.names.sublist (List.filter_sublist.map _)
    · exact fun entry hentry => hentries.items entry (List.mem_of_mem_filter hentry)
    · simp
  · rename_i helement _
    cases h
    refine ⟨distinct_nil, hentries, fun hno => ?_⟩
    rw [hno] at helement
    cases helement
  · cases h

theorem Distinct.start (hd : d.Distinct) (h : d.start header = some d') : d'.Distinct := by
  obtain ⟨root, hclose, h⟩ := Option.bind_eq_some_iff.1 h
  obtain ⟨⟨current, root'⟩, hdescend, h⟩ := Option.bind_eq_some_iff.1 h
  cases h
  have hroot := hd.close hclose
  obtain ⟨_, hbegin⟩ := exists_change_of_descend hdescend
  obtain ⟨hcurrent, hend, hfree⟩ := distinct_begin (hroot.reach header.path) hbegin
  refine ⟨hroot.descend hdescend hend, hcurrent, fun other hother => ?_⟩
  cases hother
  exact hfree

theorem Distinct.set (hd : d.Distinct) {path : List Text} {name : Text} {value : Toml}
    (hvalue : value.Distinct) (h : d.set path name value = some d') : d'.Distinct := by
  obtain ⟨current, hassign, h⟩ := Option.bind_eq_some_iff.1 h
  cases h
  exact ⟨hd.root, hd.current.assign hvalue hassign, hd.free⟩

end Draft

/-! ## Reading -/

theorem names_finishEntries (entries : Entries) :
    (finishEntries entries).map Prod.fst = entries.map Prod.fst := by
  induction entries with
  | nil => rfl
  | cons entry entries ih =>
    obtain ⟨name, item⟩ := entry
    rw [finishEntries, List.map_cons, List.map_cons, ih]

theorem mem_finishEntries {entries : Entries} {entry : Text × Toml}
    (h : entry ∈ finishEntries entries) :
    ∃ item, (entry.1, item) ∈ entries ∧ entry.2 = finishItem item := by
  induction entries with
  | nil => cases h
  | cons first entries ih =>
    obtain ⟨name, item⟩ := first
    rw [finishEntries, List.mem_cons] at h
    rcases h with rfl | h
    · exact ⟨item, List.mem_cons_self, rfl⟩
    · obtain ⟨item, hitem, hvalue⟩ := ih h
      exact ⟨item, List.mem_cons_of_mem _ hitem, hvalue⟩

theorem Item.Distinct.finishItem {item : Item} (h : item.Distinct) :
    (finishItem item).Distinct := by
  cases h with
  | value hvalue => exact hvalue
  | @table _ entries hnames _ =>
    rw [Toml.finishItem, Toml.Distinct, names_finishEntries]
    exact hnames
  | tables _ _ => trivial

theorem distinct_of_scalarValue? {t rest : Text} {value : Toml}
    (h : scalarValue? t = some (value, rest)) :
    value.Distinct := by
  obtain ⟨read, hread, h⟩ := Option.map_eq_some_iff.1 h
  cases h
  rw [unquoted?] at hread
  split_ifs at hread
  · cases hread
    trivial
  · cases hread
    trivial
  · split at hread
    · cases hread
      trivial
    · cases hread
      trivial
    · cases hread
      trivial
    · cases hread

/-- The values that the reader gives have different names. -/
def ReadsDistinct (value : Reader Toml) : Prop :=
  ∀ t read rest, value t = some (read, rest) → read.Distinct

theorem ReadsDistinct.keyValue? {value : Reader Toml} (hvalue : ReadsDistinct value)
    {t rest : Text} {key : List Text × Text} {read : Toml}
    (h : keyValue? value t = some ((key, read), rest)) :
    read.Distinct := by
  obtain ⟨⟨parts, t₁⟩, _, h⟩ := Option.bind_eq_some_iff.1 h
  obtain ⟨key, _, h⟩ := Option.bind_eq_some_iff.1 h
  obtain ⟨t₂, _, h⟩ := Option.bind_eq_some_iff.1 h
  obtain ⟨⟨found, t₃⟩, hfound, h⟩ := Option.bind_eq_some_iff.1 h
  cases h
  exact hvalue _ _ _ hfound

theorem ReadsDistinct.inlineEntries {value : Reader Toml} (hvalue : ReadsDistinct value)
    {steps : Nat} {entries entries' : Entries} {t rest : Text} (hentries : entries.Distinct)
    (h : inlineEntries value steps entries t = some (entries', rest)) : entries'.Distinct := by
  induction steps generalizing entries t with
  | zero => cases h
  | succ steps ih =>
    rw [Toml.inlineEntries] at h
    obtain ⟨t₁, _, h⟩ := Option.bind_eq_some_iff.1 h
    split at h
    · cases h
      exact hentries
    · obtain ⟨⟨⟨⟨path, name⟩, read⟩, t₂⟩, hread, h⟩ := Option.bind_eq_some_iff.1 h
      obtain ⟨assigned, hassign, h⟩ := Option.bind_eq_some_iff.1 h
      obtain ⟨t₃, _, h⟩ := Option.bind_eq_some_iff.1 h
      have hassigned := hentries.assign (hvalue.keyValue? hread) hassign
      split at h
      · exact ih hassigned h
      · cases h
        exact hassigned
      · cases h

theorem readsDistinct_value? (depth : Nat) : ReadsDistinct (value? depth) := by
  induction depth using Nat.strongRecOn with
  | ind depth ih =>
    intro t read rest h
    unfold value? at h
    split at h
    · obtain ⟨_, _, h⟩ := Option.map_eq_some_iff.1 h
      cases h
      trivial
    · obtain ⟨_, _, h⟩ := Option.map_eq_some_iff.1 h
      cases h
      trivial
    · cases depth with
      | zero => cases h
      | succ depth =>
        obtain ⟨_, _, h⟩ := Option.map_eq_some_iff.1 h
        cases h
        trivial
    · cases depth with
      | zero => cases h
      | succ depth =>
        obtain ⟨⟨entries, _⟩, hentries, h⟩ := Option.map_eq_some_iff.1 h
        cases h
        rw [Toml.Distinct, names_finishEntries]
        exact ((ih depth (Nat.lt_succ_self depth)).inlineEntries distinct_nil hentries).names
    · exact distinct_of_scalarValue? h

theorem Draft.Distinct.line? {d d' : Draft} (hd : d.Distinct) {t rest : Text}
    (h : line? d t = some (d', rest)) : d'.Distinct := by
  unfold Toml.line? at h
  split at h
  · obtain ⟨⟨header, _⟩, _, h⟩ := Option.bind_eq_some_iff.1 h
    obtain ⟨started, hstart, h⟩ := Option.bind_eq_some_iff.1 h
    cases h
    exact hd.start hstart
  · obtain ⟨⟨header, _⟩, _, h⟩ := Option.bind_eq_some_iff.1 h
    obtain ⟨started, hstart, h⟩ := Option.bind_eq_some_iff.1 h
    cases h
    exact hd.start hstart
  · obtain ⟨⟨⟨⟨path, name⟩, value⟩, _⟩, hread, h⟩ := Option.bind_eq_some_iff.1 h
    obtain ⟨changed, hset, h⟩ := Option.bind_eq_some_iff.1 h
    cases h
    exact hd.set ((readsDistinct_value? _).keyValue? hread) hset

theorem Draft.Distinct.document? {d d' : Draft} (hd : d.Distinct) {steps : Nat} {t : Text}
    (h : document? steps d t = some d') : d'.Distinct := by
  induction steps generalizing d t with
  | zero => cases h
  | succ steps ih =>
    rw [Toml.document?] at h
    obtain ⟨t₁, _, h⟩ := Option.bind_eq_some_iff.1 h
    split at h
    · cases h
      exact hd
    · obtain ⟨⟨next, t₂⟩, hline, h⟩ := Option.bind_eq_some_iff.1 h
      obtain ⟨t₃, _, h⟩ := Option.bind_eq_some_iff.1 h
      exact ih (hd.line? hline) h

/-- The names of a document are different, and so are those of each table that it names. -/
theorem distinct_of_parse? {t : Text} {entries : List (Text × Toml)}
    (h : parse? t = some entries) :
    (entries.map Prod.fst).Nodup ∧ ∀ entry ∈ entries, entry.2.Distinct := by
  obtain ⟨d, hdocument, h⟩ := Option.bind_eq_some_iff.1 h
  obtain ⟨closed, hclose, rfl⟩ := Option.map_eq_some_iff.1 h
  have hclosed := (Draft.distinct_empty.document? hdocument).close hclose
  refine ⟨names_finishEntries closed ▸ hclosed.names, fun entry hentry => ?_⟩
  obtain ⟨item, hitem, hvalue⟩ := mem_finishEntries hentry
  rw [hvalue]
  exact (hclosed.items _ hitem).finishItem

end Toml

end StyleBundle
