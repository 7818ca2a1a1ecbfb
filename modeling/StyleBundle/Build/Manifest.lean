import StyleBundle.Json.Printer

/-!
# Manifests

A manifest lists, for every stylesheet that was written, what it was made of.  Its keys stand in
the order of code points.
-/

namespace StyleBundle

/-- What a stylesheet was made of. -/
structure ManifestRecord where
  /-- The entry file, or the name of the group. -/
  source : Text
  /-- The files and URLs that went into it. -/
  dependencies : List Text
deriving DecidableEq

/-- The records of all stylesheets, by key. -/
structure Manifest where
  /-- The records, in the order of their keys. -/
  records : List (Text × ManifestRecord)
deriving DecidableEq

namespace Manifest

/-- A manifest without records. -/
def empty : Manifest := ⟨[]⟩

/-- Sets the record of a key. -/
def insert (m : Manifest) (key : Text) (record : ManifestRecord) : Manifest :=
  ⟨Json.insertMember key record m.records⟩

/-- The record of a key. -/
def get? (m : Manifest) (key : Text) : Option ManifestRecord :=
  (m.records.find? fun (other, _) => other == key).map Prod.snd

/-- The number of records. -/
def size (m : Manifest) : Nat :=
  m.records.length

/-- A record as JSON. -/
def recordJson (r : ManifestRecord) : Json :=
  .object [("source".toList, .string r.source),
    ("dependencies".toList, .array (r.dependencies.map .string))]

/-- The manifest as JSON. -/
def json (m : Manifest) : Json :=
  .object (m.records.map fun (key, record) => (key, recordJson record))

/-- The text of the manifest. -/
def text (m : Manifest) : Text :=
  m.json.pretty

end Manifest

end StyleBundle
