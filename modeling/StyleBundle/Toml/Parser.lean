import StyleBundle.Toml.Quoted
import StyleBundle.Toml.Scalar
import StyleBundle.Toml.Table

/-!
# Reading TOML

`Toml.parse?` reads a document of TOML 1.1.  Lists and inline tables may go over several lines,
may hold comments and may end in a comma.  They nest at most 80 deep.  A byte order mark at the
start is skipped.
-/

namespace StyleBundle

namespace Toml

/-! ## Between the tokens -/

/-- The text without leading blanks. -/
def skipBlanks (t : Text) : Text :=
  t.dropWhile isBlank

/-- Skips blanks, newlines and comments. -/
def skipTrivia (inComment : Bool) : Text → Option Text
  | [] => some []
  | '\n' :: rest => skipTrivia false rest
  | '\r' :: '\n' :: rest => skipTrivia false rest
  | c :: rest =>
    if inComment then
      if isControl c then none else skipTrivia true rest
    else if isBlank c then skipTrivia false rest
    else if c = '#' then skipTrivia true rest
    else some (c :: rest)

/-- Skips the rest of a line, which may hold blanks and a comment only. -/
def skipLine (inComment : Bool) : Text → Option Text
  | [] => some []
  | '\n' :: rest => some rest
  | '\r' :: '\n' :: rest => some rest
  | c :: rest =>
    if inComment then
      if isControl c then none else skipLine true rest
    else if isBlank c then skipLine false rest
    else if c = '#' then skipLine true rest
    else none

/-! ## Keys -/

/-- Whether the character may stand in a key without quotes. -/
def isBareChar (c : Char) : Bool :=
  c.isAlphanum || c == '_' || c == '-'

/-- Reads one part of a key. -/
def simpleKey? : Reader Text := fun t =>
  match quotedLine? t with
  | some read => some read
  | none =>
    match t.span isBareChar with
    | ([], _) => none
    | (name, rest) => some (name, rest)

/-- Reads a key with at most `steps` parts, dots between them and blanks around the dots. -/
def key? : (steps : Nat) → Reader (List Text)
  | 0, _ => none
  | steps + 1, t => do
    let (part, rest) ← simpleKey? (skipBlanks t)
    match skipBlanks rest with
    | '.' :: rest =>
      let (more, rest) ← key? steps rest
      return (part :: more, rest)
    | rest => return ([part], rest)

/-- A key cut into its path and its name. -/
def cutKey? (parts : List Text) : Option (List Text × Text) :=
  parts.getLast?.map fun name => (parts.dropLast, name)

/-- Reads a key, an equals sign and a value. -/
def keyValue? (value : Reader Toml) : Reader ((List Text × Text) × Toml) := fun t => do
  let (parts, rest) ← key? (t.length + 1) t
  let key ← cutKey? parts
  let rest ← Text.after? ['='] (skipBlanks rest)
  let (read, rest) ← value (skipBlanks rest)
  return ((key, read), rest)

/-! ## Values -/

/-- Reads the values of a list up to its closing bracket, at most `steps` of them. -/
def listItems (value : Reader Toml) : (steps : Nat) → Reader (List Toml)
  | 0, _ => none
  | steps + 1, t => do
    match ← skipTrivia false t with
    | ']' :: rest => return ([], rest)
    | t =>
      let (first, rest) ← value t
      match ← skipTrivia false rest with
      | ',' :: rest =>
        let (more, rest) ← listItems value steps rest
        return (first :: more, rest)
      | ']' :: rest => return ([first], rest)
      | _ => none

/-- Reads the entries of an inline table up to its closing brace, at most `steps` of them, and
adds them to those read before. -/
def inlineEntries (value : Reader Toml) : (steps : Nat) → Entries → Reader Entries
  | 0, _, _ => none
  | steps + 1, entries, t => do
    match ← skipTrivia false t with
    | '\x7d' :: rest => return (entries, rest)
    | t =>
      let (((path, name), read), rest) ← keyValue? value t
      let entries ← assign path name read entries
      match ← skipTrivia false rest with
      | ',' :: rest => inlineEntries value steps entries rest
      | '\x7d' :: rest => return (entries, rest)
      | _ => none

/-- Reads a value with at most `depth` levels of lists and inline tables. -/
def value? : (depth : Nat) → Reader Toml
  | depth, t =>
    match t with
    | '"' :: _ => (quoted? t).map fun (read, rest) => (.string read, rest)
    | '\'' :: _ => (quoted? t).map fun (read, rest) => (.string read, rest)
    | '[' :: rest =>
      match depth with
      | 0 => none
      | depth + 1 =>
        (listItems (value? depth) t.length rest).map fun (read, rest) => (.array read, rest)
    | '\x7b' :: rest =>
      match depth with
      | 0 => none
      | depth + 1 =>
        (inlineEntries (value? depth) t.length [] rest).map fun (read, rest) =>
          (.table (finishEntries read), rest)
    | t => scalarValue? t

/-- The levels of nesting that are read. -/
def depthLimit : Nat := 80

/-! ## Documents -/

/-- Reads the rest of a header after its opening brackets. -/
def header? (isElement : Bool) : Reader Header := fun t => do
  let (parts, rest) ← key? (t.length + 1) t
  let (path, name) ← cutKey? parts
  let rest ← Text.after? (if isElement then "]]".toList else "]".toList) (skipBlanks rest)
  return (⟨path, name, isElement⟩, rest)

/-- Reads one line of a document that is not blank. -/
def line? (d : Draft) (t : Text) : Option (Draft × Text) :=
  match t with
  | '[' :: '[' :: rest => do
    let (header, rest) ← header? true rest
    return (← d.start header, rest)
  | '[' :: rest => do
    let (header, rest) ← header? false rest
    return (← d.start header, rest)
  | t => do
    let (((path, name), value), rest) ← keyValue? (value? depthLimit) t
    return (← d.set path name value, rest)

/-- Reads a document of at most `steps` lines. -/
def document? : (steps : Nat) → Draft → Text → Option Draft
  | 0, _, _ => none
  | steps + 1, d, t => do
    match ← skipTrivia false t with
    | [] => return d
    | t =>
      let (d, rest) ← line? d t
      document? steps d (← skipLine false rest)

/-- The text without a byte order mark. -/
def dropMark : Text → Text
  | '\ufeff' :: rest => rest
  | t => t

/-- Reads a document and gives the entries of its table. -/
def parse? (t : Text) : Option (List (Text × Toml)) := do
  let t := dropMark t
  (← document? (t.length + 1) .empty t).finish

end Toml

end StyleBundle
