import StyleBundle.Toml.Basic

/-!
# Comparing TOML values

The values of a list and of a table are values again, so the equality of values is decided along
with that of lists and of tables.  With it, what a document says can be computed and compared.
-/

namespace StyleBundle

namespace Toml

mutual

/-- Whether two values are the same. -/
def same : Toml → Toml → Bool
  | .string value, .string other => value == other
  | .integer value, .integer other => value == other
  | .float, .float => true
  | .boolean value, .boolean other => value == other
  | .datetime value, .datetime other => value == other
  | .array items, .array others => sameItems items others
  | .table entries, .table others => sameEntries entries others
  | _, _ => false

/-- Whether two lists have the same values. -/
def sameItems : List Toml → List Toml → Bool
  | [], [] => true
  | item :: items, other :: others => item.same other && sameItems items others
  | _, _ => false

/-- Whether two tables have the same entries in the same order. -/
def sameEntries : List (Text × Toml) → List (Text × Toml) → Bool
  | [], [] => true
  | (name, value) :: entries, (name', value') :: entries' =>
    name == name' && value.same value' && sameEntries entries entries'
  | _, _ => false

end

mutual

theorem same_iff : ∀ v w : Toml, v.same w = true ↔ v = w
  | .string _, w => by cases w <;> simp [same]
  | .integer _, w => by cases w <;> simp [same]
  | .float, w => by cases w <;> simp [same]
  | .boolean _, w => by cases w <;> simp [same]
  | .datetime _, w => by cases w <;> simp [same]
  | .array items, w => by cases w <;> simp [same, sameItems_iff items]
  | .table entries, w => by cases w <;> simp [same, sameEntries_iff entries]

theorem sameItems_iff : ∀ items others : List Toml,
    sameItems items others = true ↔ items = others
  | [], others => by cases others <;> simp [sameItems]
  | item :: items, others => by
    cases others <;> simp [sameItems, same_iff item, sameItems_iff items]

theorem sameEntries_iff : ∀ entries entries' : List (Text × Toml),
    sameEntries entries entries' = true ↔ entries = entries'
  | [], entries' => by cases entries' <;> simp [sameEntries]
  | (_, value) :: entries, entries' => by
    cases entries' <;> simp [sameEntries, same_iff value, sameEntries_iff entries, Prod.ext_iff]

end

instance : DecidableEq Toml := fun v w => decidable_of_iff _ (same_iff v w)

end Toml

end StyleBundle
