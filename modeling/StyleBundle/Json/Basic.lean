import StyleBundle.Number.Double
import StyleBundle.Text.Basic

/-!
# JSON values

The values of JSON.  An object keeps its members in order; `Json.ofPairs` puts them in the order
of their names and keeps no name twice.  Integers of 64 bits are kept exactly; every other number
is a double.
-/

namespace StyleBundle

/-- A number as JSON knows it. -/
inductive JsonNumber where
  /-- A natural number below two to the power 64. -/
  | natural (n : Nat)
  /-- The negative of a positive number up to two to the power 63. -/
  | negative (n : Nat)
  /-- A double. -/
  | double (x : Double)
deriving DecidableEq

/-- A JSON value. -/
inductive Json where
  /-- The null value. -/
  | null
  /-- A truth value. -/
  | bool (value : Bool)
  /-- A number. -/
  | number (value : JsonNumber)
  /-- A text. -/
  | string (value : Text)
  /-- A list of values. -/
  | array (items : List Json)
  /-- Named values. -/
  | object (members : List (Text × Json))

namespace Json

/-- The members with one of them set. -/
def insertMember {α : Type} (name : Text) (value : α) : List (Text × α) → List (Text × α)
  | [] => [(name, value)]
  | (other, kept) :: rest =>
    if name = other then (name, value) :: rest
    else if Text.le name other then (name, value) :: (other, kept) :: rest
    else (other, kept) :: insertMember name value rest

/-- The members from pairs, of which the last one counts for each name. -/
def members {α : Type} (pairs : List (Text × α)) : List (Text × α) :=
  pairs.foldl (fun sofar (name, value) => insertMember name value sofar) []

/-- An object from pairs. -/
def ofPairs (pairs : List (Text × Json)) : Json :=
  .object (members pairs)

/-- The value of a member. -/
def get? (name : Text) : Json → Option Json
  | .object members => (members.find? fun (other, _) => other == name).map Prod.snd
  | _ => none

end Json

end StyleBundle
