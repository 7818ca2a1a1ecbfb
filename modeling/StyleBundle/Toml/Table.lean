import StyleBundle.Toml.Basic

/-!
# Tables under construction

A TOML document builds its tables piece by piece.  A table can come from its own header, from the
path of another header, or from a dotted key, and this decides what may still be added to it:

* a table with its own header is not defined again;
* a table from the path of a header may get its own header later;
* a table from dotted keys is extended by dotted keys only;
* values, inline tables and lists written as values are never extended.
-/

namespace StyleBundle

namespace Toml

/-- How a table came to be. -/
inductive Origin where
  /-- By its own header, or as the table of the whole document. -/
  | header
  /-- By the path of another header. -/
  | path
  /-- By a dotted key. -/
  | dotted
deriving DecidableEq

/-- An entry of a table under construction. -/
inductive Item where
  /-- A value. -/
  | value (value : Toml)
  /-- A table. -/
  | table (origin : Origin) (entries : List (Text × Item))
  /-- A list of tables that headers build, the latest last. -/
  | tables (elements : List (List (Text × Item)))

/-- The entries of a table under construction. -/
abbrev Entries := List (Text × Item)

/-- The entry with a name. -/
def Entries.find? (entries : Entries) (name : Text) : Option Item :=
  (List.find? (fun (other, _) => other == name) entries).map Prod.snd

/-- The entries with one of them replaced. -/
def Entries.replace (entries : Entries) (name : Text) (item : Item) : Entries :=
  entries.map fun (other, kept) => if other = name then (other, item) else (other, kept)

/-- Changes the table at the end of a path and gives a result besides.  Tables that are missing on
the way come to be with the origin `created`. -/
def descend {α : Type} (created : Origin) (change : Origin → Entries → Option (α × Entries)) :
    (path : List Text) → Origin → Entries → Option (α × Entries)
  | [], origin, entries => change origin entries
  | name :: path, _, entries =>
    match entries.find? name with
    | none => do
      let (result, made) ← descend created change path created []
      return (result, entries ++ [(name, .table created made)])
    | some (.table origin inner) => do
      if created = .dotted ∧ origin = .header then none
      let (result, changed) ← descend created change path origin inner
      return (result, entries.replace name (.table origin changed))
    | some (.tables elements) =>
      match elements.getLast? with
      | none => none
      | some latest => do
        let (result, changed) ← descend created change path .header latest
        return (result, entries.replace name (.tables (elements.dropLast ++ [changed])))
    | some (.value _) => none

/-- Sets a value under a key, which is a path and a name.  The name must be new, and a dotted key
must end in a table that dotted keys made. -/
def assign (path : List Text) (name : Text) (value : Toml) (entries : Entries) : Option Entries :=
  (descend .dotted
    (fun origin inner =>
      if decide (origin = .dotted) = path.isEmpty ∨ (inner.find? name).isSome then none
      else some ((), inner ++ [(name, .value value)]))
    path .header entries).map Prod.snd

mutual

/-- The finished value of an entry. -/
def finishItem : Item → Toml
  | .value value => value
  | .table _ entries => .table (finishEntries entries)
  | .tables elements => .array (finishElements elements)

/-- The finished entries of a table. -/
def finishEntries : List (Text × Item) → List (Text × Toml)
  | [] => []
  | (name, item) :: rest => (name, finishItem item) :: finishEntries rest

/-- The finished tables of a list. -/
def finishElements : List (List (Text × Item)) → List Toml
  | [] => []
  | entries :: rest => .table (finishEntries entries) :: finishElements rest

end

/-! ## Documents -/

/-- The header of a table: the path to its parent, its name, and whether it starts a new table of
a list. -/
structure Header where
  /-- The path to the parent. -/
  path : List Text
  /-- The name. -/
  name : Text
  /-- Whether the table is one of a list. -/
  isElement : Bool

/-- A document under construction. -/
structure Draft where
  /-- The table of the whole document, without the table under construction. -/
  root : Entries
  /-- The header of the table under construction, nothing for the table of the document. -/
  header : Option Header
  /-- The table under construction. -/
  current : Entries

namespace Draft

/-- A document of which nothing was read. -/
def empty : Draft := ⟨[], none, []⟩

/-- Puts a finished table under the name of its header. -/
def place (header : Header) (table entries : Entries) : Option Entries :=
  match header.isElement, entries.find? header.name with
  | false, _ => some (entries ++ [(header.name, .table .header table)])
  | true, none => some (entries ++ [(header.name, .tables [table])])
  | true, some (.tables elements) =>
    some (entries.replace header.name (.tables (elements ++ [table])))
  | true, some _ => none

/-- The table of the document with the table under construction in its place. -/
def close (d : Draft) : Option Entries :=
  match d.header with
  | none => some d.current
  | some header =>
    (descend .path (fun _ entries => (place header d.current entries).map fun e => ((), e))
      header.path .header d.root).map Prod.snd

/-- The entries that the table of a header starts with, and its parent without that table.  Only a
table that came from the path of a header is opened again. -/
def begin (header : Header) (entries : Entries) : Option (Entries × Entries) :=
  match header.isElement, entries.find? header.name with
  | _, none => some ([], entries)
  | false, some (.table .path start) =>
    some (start, entries.filter fun (other, _) => other != header.name)
  | true, some (.tables _) => some ([], entries)
  | _, some _ => none

/-- Starts the table of a header. -/
def start (d : Draft) (header : Header) : Option Draft := do
  let root ← d.close
  let (current, root) ← descend .path (fun _ entries => begin header entries) header.path
    .header root
  return ⟨root, some header, current⟩

/-- Sets a value in the table under construction. -/
def set (d : Draft) (path : List Text) (name : Text) (value : Toml) : Option Draft := do
  let current ← assign path name value d.current
  return { d with current := current }

/-- The finished document. -/
def finish (d : Draft) : Option (List (Text × Toml)) :=
  d.close.map finishEntries

end Draft

end Toml

end StyleBundle
