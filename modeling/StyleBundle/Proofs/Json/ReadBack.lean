import Mathlib.Data.List.Forall2
import StyleBundle.Json.Printer
import StyleBundle.Proofs.Json.Members

/-!
# Reading what was written

A text between quotes is read back character by character (`Json.textFrom_flatMap_escape`): no
escape is cut short, and none goes on into what follows it.

`Json.Spells` says that a text stands for a value wherever it is read, whatever comes after it.
Texts do, and so do lists and objects over several lines if their parts do (`Json.spells_array`,
`Json.spells_object`).  The reader puts the members of an object in the order of their names;
`Json.written?`  reads them in the order in which they stand in the text.
-/

namespace StyleBundle

theorem Digit.hex?_ofHex {n : Nat} (h : n < 16) : hex? (ofHex n) = some n := by
  have hall : ∀ n : Fin 16, hex? (ofHex n.1) = some n.1 := by decide
  exact hall ⟨n, h⟩

namespace Json

/-! ## Texts between quotes -/

/-- What belongs to an escape is passed over. -/
theorem textFrom_append (front rest : Text) :
    textFrom front.length (front ++ rest) = textFrom 0 rest := by
  induction front with
  | nil => rfl
  | cons c front ih =>
    rw [List.length_cons, List.cons_append, textFrom]
    exact ih

/-- A character is read, and the rest of the text after what it is written with. -/
theorem textFrom_of_character? {c : Char} (d : Char) (more : Text) (hquote : d ≠ '"')
    (h : ∀ rest, character? (d :: more ++ rest) = some (c, more.length)) (rest : Text) :
    textFrom 0 (d :: more ++ rest) = (textFrom 0 rest).map fun read => (c :: read.1, read.2) := by
  have hread := h rest
  rw [List.cons_append] at hread ⊢
  rw [textFrom, if_neg hquote, hread]
  change ((textFrom more.length (more ++ rest)).bind fun read => some (c :: read.1, read.2)) = _
  rw [textFrom_append]
  cases textFrom 0 rest <;> rfl

theorem hexFour?_control {n : Nat} (h : n < 0x20) :
    hexFour? '0' '0' (Digit.ofHex (n / 16)) (Digit.ofHex (n % 16)) = some n := by
  have hzero : Digit.hex? '0' = some 0 := by decide
  rw [hexFour?, hzero, Digit.hex?_ofHex (by omega), Digit.hex?_ofHex (by omega)]
  change some (((0 * 16 + 0) * 16 + n / 16) * 16 + n % 16) = some n
  congr 1
  omega

/-- A control character is read from its code point. -/
theorem character?_control {c : Char} (h : c.toNat < 0x20) (rest : Text) :
    character? ('\\' :: 'u' :: '0' :: '0' :: Digit.ofHex (c.toNat / 16) ::
      Digit.ofHex (c.toNat % 16) :: rest) = some (c, 5) := by
  have hlow : isLowSurrogate c.toNat = false := by
    simp only [isLowSurrogate, Bool.and_eq_false_iff, decide_eq_false_iff_not]
    omega
  have hhigh : isHighSurrogate c.toNat = false := by
    simp only [isHighSurrogate, Bool.and_eq_false_iff, decide_eq_false_iff_not]
    omega
  simp only [character?, hexFour?_control h, Option.bind_eq_bind, Option.bind_some, hlow, hhigh,
    Bool.false_eq_true, if_false, Char.ofNat_toNat]
  rfl

/-- Any other character is read as it stands there. -/
theorem character?_plain {c : Char} (hback : c ≠ '\\') (h : ¬ c.toNat < 0x20) (rest : Text) :
    character? (c :: rest) = some (c, 0) := by
  unfold character?
  split
  · rename_i heq
    exact absurd (List.cons.inj heq).1 hback
  · rename_i heq
    exact absurd (List.cons.inj heq).1 hback
  · rename_i heq
    obtain ⟨rfl, -⟩ := List.cons.inj heq
    rw [if_neg h]
  · rename_i heq
    cases heq

theorem textFrom_escape (c : Char) (rest : Text) :
    textFrom 0 (escape c ++ rest) = (textFrom 0 rest).map fun read => (c :: read.1, read.2) := by
  unfold escape
  split
  -- The escapes with a letter of their own.
  iterate 7 exact textFrom_of_character? _ [_] (by decide) (fun _ => rfl) rest
  rename_i hquote hback _ _ _ _ _
  split_ifs with hcontrol
  · exact textFrom_of_character? _ [_, _, _, _, _] (by decide) (character?_control hcontrol) rest
  · exact textFrom_of_character? _ [] hquote (character?_plain hback hcontrol) rest

theorem textFrom_flatMap_escape (t rest : Text) :
    textFrom 0 (t.flatMap escape ++ '"' :: rest) = some (t, rest) := by
  induction t with
  | nil => rfl
  | cons c t ih => rw [List.flatMap_cons, List.append_assoc, textFrom_escape, ih, Option.map_some]

/-! ## Values over several lines -/

/-- The text starts with a quote, a bracket or a brace. -/
def Opens (text : Text) : Prop :=
  ∃ c more, text = c :: more ∧ (c = '"' ∨ c = '[' ∨ c = '\x7b')

/-- The text is read as the value, whatever follows it. -/
structure Spells (depth : Nat) (text : Text) (value : Json) : Prop where
  opens : Opens text
  value? : ∀ rest, value? depth (text ++ rest) = some (value, rest)

section Space

variable {depth level : Nat} {text s t : Text} {value : Json}

theorem skipSpace_of_opens (h : Opens text) (rest : Text) :
    skipSpace (text ++ rest) = text ++ rest := by
  obtain ⟨c, more, rfl, rfl | rfl | rfl⟩ := h <;> rfl

theorem skipSpace_newLine (level : Nat) (t : Text) :
    skipSpace (newLine level ++ t) = skipSpace t := by
  refine List.dropWhile_append_of_pos fun c hc => ?_
  rcases List.mem_cons.1 hc with rfl | hc
  · rfl
  · rw [List.eq_of_mem_replicate hc]
    rfl

theorem value?_congr (h : skipSpace s = skipSpace t) :
    Json.value? depth s = Json.value? depth t := by
  rw [Json.value?, Json.value?, h]

end Space

theorem spells_quote (depth : Nat) (t : Text) : Spells depth (quote t) (.string t) where
  opens := ⟨'"', _, rfl, .inl rfl⟩
  value? := by
    intro rest
    have hread := textFrom_flatMap_escape t rest
    have htext : quote t ++ rest = '"' :: (t.flatMap escape ++ '"' :: rest) := by simp [quote]
    rw [htext, Json.value?]
    change (textFrom 0 (t.flatMap escape ++ '"' :: rest)).map _ = _
    rw [hread]
    rfl

/-- On a line of its own a value is read as well. -/
theorem Spells.value?_newLine {depth : Nat} {text : Text} {value : Json}
    (h : Spells depth text value) (level : Nat) (rest : Text) :
    Json.value? depth (newLine level ++ text ++ rest) = some (value, rest) := by
  rw [List.append_assoc, value?_congr (skipSpace_newLine level _), h.value?]

/-! ## Lists and objects

Items and members are written and read in the same way, so both are brought to one form. -/

section Separated

variable {α β : Type} {close : Char} {level outer : Nat}

/-- Goes on after a thing that was read. -/
def goOn (close : Char) (again : Text → Option (List β × Text)) (first : β × Text) :
    Option (List β × Text) :=
  match skipSpace first.2 with
  | [] => none
  | c :: rest =>
    if c = ',' then (again rest).map fun more => (first.1 :: more.1, more.2)
    else if c = close then some ([first.1], rest)
    else none

/-- Reads things separated by commas up to a closing character, at most `steps` of them. -/
def separated (close : Char) (item : Text → Option (β × Text)) :
    (steps : Nat) → Text → Option (List β × Text)
  | 0, _ => none
  | steps + 1, t => (item t).bind (goOn close (separated close item steps))

section GoOn

variable {again : Text → Option (List β × Text)} {first : β × Text} {rest : Text}

theorem goOn_of_comma (h : skipSpace first.2 = ',' :: rest) :
    goOn close again first = (again rest).map fun more => (first.1 :: more.1, more.2) := by
  simp only [goOn, h, if_true]

theorem goOn_of_close (hcomma : close ≠ ',') (h : skipSpace first.2 = close :: rest) :
    goOn close again first = some ([first.1], rest) := by
  simp only [goOn, h, if_neg hcomma, if_true]

theorem goOn_of_other (hcomma : ∀ rest, skipSpace first.2 ≠ ',' :: rest)
    (hclose : ∀ rest, skipSpace first.2 ≠ close :: rest) : goOn close again first = none := by
  rw [goOn]
  split
  · rfl
  · rename_i c rest heq
    have hc : c ≠ ',' := fun hc => hcomma rest (hc ▸ heq)
    have hc' : c ≠ close := fun hc => hclose rest (hc ▸ heq)
    rw [if_neg hc, if_neg hc']

end GoOn

/-- Further things, each on a line of its own. -/
def further (level : Nat) (write : α → Text) (more : List α) : Text :=
  more.flatMap fun a => ',' :: (newLine level ++ write a)

theorem length_le_further (level : Nat) (write : α → Text) (more : List α) :
    more.length ≤ (further level write more).length := by
  induction more with
  | nil => exact Nat.zero_le _
  | cons a more ih =>
    simp only [further, List.flatMap_cons, List.length_append, List.length_cons] at ih ⊢
    omega

/-- What is read after a thing that was read: the further ones, up to the closing character. -/
theorem separated_further {item : Text → Option (β × Text)} {write : α → Text}
    (hcomma : close ≠ ',') (hclose : ∀ rest, skipSpace (close :: rest) = close :: rest)
    {more : List α} {values : List β} {first : β} {t rest : Text} {steps : Nat}
    (hmore : List.Forall₂ (fun a b => ∀ rest,
      item (newLine level ++ write a ++ rest) = some (b, rest))
      more values)
    (h : item t = some (first, further level write more ++ (newLine outer ++ close :: rest)))
    (hsteps : more.length < steps) :
      separated close item steps t = some (first :: values, rest) := by
  -- Each of the things that are left takes one step.
  induction hmore generalizing t first steps with
  | nil =>
    cases steps with
    | zero => cases hsteps
    | succ steps =>
      have hend : skipSpace (further level write [] ++ (newLine outer ++ close :: rest)) =
          close :: rest := by
        rw [further, List.flatMap_nil, List.nil_append, skipSpace_newLine, hclose]
      rw [separated, h, Option.bind_some, goOn_of_close hcomma hend]
  | @cons a b more values ha _ ih =>
    cases steps with
    | zero => cases hsteps
    | succ steps =>
      have hnext : skipSpace
          (further level write (a :: more) ++ (newLine outer ++ close :: rest)) =
          ',' :: (newLine level ++ write a ++
            (further level write more ++ (newLine outer ++ close :: rest))) := by
        simp only [further, List.flatMap_cons, List.cons_append, List.append_assoc]
        rfl
      have hrest := ih (ha _) (Nat.lt_of_succ_lt_succ hsteps)
      rw [separated, h, Option.bind_some, goOn_of_comma hnext, hrest, Option.map_some]

/-- The first thing and the further ones, where the number of steps is the length of the text. -/
theorem separated_length {item : Text → Option (β × Text)} {write : α → Text}
    (hcomma : close ≠ ',') (hclose : ∀ rest, skipSpace (close :: rest) = close :: rest) {a : α}
    {b : β} {more : List α} {values : List β} {rest : Text}
    (ha : ∀ rest, item (write a ++ rest) = some (b, rest))
    (hmore : List.Forall₂ (fun a b => ∀ rest,
      item (newLine level ++ write a ++ rest) = some (b, rest))
      more values) :
    separated close item
      (write a ++ (further level write more ++ (newLine outer ++ close :: rest))).length
      (write a ++ (further level write more ++ (newLine outer ++ close :: rest))) =
        some (b :: values, rest) := by
  refine separated_further hcomma hclose hmore (ha _) ?_
  have hlength := length_le_further level write more
  simp only [List.length_append, List.length_cons]
  omega

end Separated

section Items

variable {depth level : Nat}

theorem items_eq (item : Text → Option (Json × Text)) (steps : Nat) (t : Text) :
    items item steps t = separated ']' item steps t := by
  induction steps generalizing t with
  | zero => rfl
  | succ steps ih =>
    rw [items, separated, Option.bind_eq_bind]
    congr 1
    funext first
    dsimp only
    split
    · rename_i rest heq
      rw [goOn_of_comma heq, ih]
      cases separated ']' item steps rest <;> rfl
    · rename_i rest heq
      exact (goOn_of_close (by decide) heq).symm
    · rename_i hcomma hclose
      exact (goOn_of_other hcomma hclose).symm

theorem prettyItems_eq (level : Nat) (items : List Json) :
    prettyItems level items = further level (prettyAt level) items := by
  induction items with
  | nil => rfl
  | cons item items ih =>
    rw [prettyItems, ih]
    simp [further]

theorem arrayBody_of_opens {text : Text} (item : Text → Option (Json × Text)) (h : Opens text)
    (rest : Text) :
    arrayBody item (newLine level ++ (text ++ rest)) =
      (separated ']' item (text ++ rest).length (text ++ rest)).map
        fun read => (.array read.1, read.2) := by
  rw [arrayBody, skipSpace_newLine, skipSpace_of_opens h, ← items_eq]
  obtain ⟨c, more, rfl, rfl | rfl | rfl⟩ := h <;> rfl

theorem spells_array {items values : List Json}
    (h : List.Forall₂ (fun v w => Spells depth (prettyAt (level + 1) v) w) items values) :
    Spells (depth + 1) (prettyAt level (.array items)) (.array values) := by
  cases h with
  | nil =>
    have htext : prettyAt level (.array []) = ['[', ']'] := by
      simp [prettyAt, compact, compactItems]
    rw [htext]
    exact ⟨⟨'[', _, rfl, .inr (.inl rfl)⟩, fun rest => by rw [Json.value?]; rfl⟩
  | @cons v w items values hv hmore =>
    rw [prettyAt, prettyItems_eq]
    refine ⟨⟨'[', _, rfl, .inr (.inl rfl)⟩, fun rest => ?_⟩
    have htext : '[' :: newLine (level + 1) ++ prettyAt (level + 1) v ++
        further (level + 1) (prettyAt (level + 1)) items ++ newLine level ++ [']'] ++ rest =
          '[' :: (newLine (level + 1) ++ (prettyAt (level + 1) v ++
            (further (level + 1) (prettyAt (level + 1)) items ++
              (newLine level ++ ']' :: rest)))) := by
      simp
    rw [htext, Json.value?]
    change arrayBody (Json.value? depth) _ = _
    rw [arrayBody_of_opens _ hv.opens, separated_length (by decide) (fun _ => rfl) hv.value?
      (hmore.imp fun _ _ hspells => hspells.value?_newLine (level + 1))]
    rfl

end Items

section Members

variable {depth level : Nat}

/-- A member as it is written. -/
def memberText (level : Nat) (member : Text × Json) : Text :=
  quote member.1 ++ ": ".toList ++ prettyAt level member.2

theorem pairs_eq (item : Text → Option (Json × Text)) (steps : Nat) (t : Text) :
    pairs item steps t = separated '\x7d' (member? item) steps t := by
  induction steps generalizing t with
  | zero => rfl
  | succ steps ih =>
    rw [pairs, separated, Option.bind_eq_bind]
    congr 1
    funext first
    dsimp only
    split
    · rename_i rest heq
      rw [goOn_of_comma heq, ih]
      cases separated '\x7d' (member? item) steps rest <;> rfl
    · rename_i rest heq
      exact (goOn_of_close (by decide) heq).symm
    · rename_i hcomma hclose
      exact (goOn_of_other hcomma hclose).symm

theorem prettyMembers_eq (level : Nat) (members : List (Text × Json)) :
    prettyMembers level members = further level (memberText level) members := by
  induction members with
  | nil => rfl
  | cons member members ih =>
    rw [prettyMembers, ih]
    simp [further, memberText]

theorem member?_memberText {member : Text × Json} {value : Json}
    (h : Spells depth (prettyAt level member.2) value) {front : Text}
    (hfront : ∀ t, skipSpace (front ++ t) = skipSpace t) (rest : Text) :
    member? (Json.value? depth) (front ++ memberText level member ++ rest) =
      some ((member.1, value), rest) := by
  have hspace : skipSpace (front ++ memberText level member ++ rest) =
      '"' :: (member.1.flatMap escape ++ '"' :: ':' :: ' ' ::
        (prettyAt level member.2 ++ rest)) := by
    have htext : memberText level member ++ rest =
        '"' :: (member.1.flatMap escape ++ '"' :: ':' :: ' ' ::
          (prettyAt level member.2 ++ rest)) := by
      simp [memberText, quote]
    rw [List.append_assoc, hfront, htext]
    rfl
  have hvalue : Json.value? depth (' ' :: (prettyAt level member.2 ++ rest)) =
      some (value, rest) := by
    rw [← h.value? rest]
    exact value?_congr rfl
  rw [member?, hspace]
  simp only [textFrom_flatMap_escape, Option.bind_eq_bind, Option.bind_some]
  change ((Json.value? depth (' ' :: (prettyAt level member.2 ++ rest))).bind _) = _
  rw [hvalue]
  rfl

theorem opens_memberText (level : Nat) (member : Text × Json) : Opens (memberText level member) :=
  ⟨'"', _, rfl, .inl rfl⟩

/-- Reads the members of an object after its opening brace, in the order in which they stand
there. -/
def memberList? (item : Text → Option (Json × Text)) (t : Text) :
    Option (List (Text × Json) × Text) :=
  let body := skipSpace t
  if body.head? = some '\x7d' then some ([], body.tail) else pairs item body.length body

theorem objectBody_eq (item : Text → Option (Json × Text)) (t : Text) :
    objectBody item t = (memberList? item t).map fun read => (ofPairs read.1, read.2) := by
  rw [objectBody]
  split
  · rename_i rest hclose
    have hlist : memberList? item t = some ([], rest) := by simp [memberList?, hclose]
    rw [hlist]
    rfl
  · rename_i hopen
    have hhead : (skipSpace t).head? ≠ some '\x7d' := by
      intro hhead
      obtain ⟨rest, hrest⟩ := List.head?_eq_some_iff.1 hhead
      exact hopen rest hrest
    have hlist : memberList? item t = pairs item (skipSpace t).length (skipSpace t) := by
      simp [memberList?, hhead]
    rw [hlist]

theorem memberList?_of_opens {text : Text} (item : Text → Option (Json × Text)) (h : Opens text)
    (rest : Text) :
    memberList? item (newLine level ++ (text ++ rest)) =
      separated '\x7d' (member? item) (text ++ rest).length (text ++ rest) := by
  rw [memberList?, skipSpace_newLine, skipSpace_of_opens h, ← pairs_eq]
  obtain ⟨c, more, rfl, rfl | rfl | rfl⟩ := h <;> rfl

/-- After its brace an object is read as the members that it was written from. -/
theorem exists_memberList? {members values : List (Text × Json)}
    (h : List.Forall₂ (fun v w => v.1 = w.1 ∧ Spells depth (prettyAt (level + 1) v.2) w.2)
      members values) :
    ∃ body, prettyAt level (.object members) = '\x7b' :: body ∧
      ∀ rest, memberList? (Json.value? depth) (body ++ rest) = some (values, rest) := by
  cases h with
  | nil =>
    have htext : prettyAt level (.object []) = ['\x7b', '\x7d'] := by
      simp [prettyAt, compact, compactMembers]
    exact ⟨['\x7d'], htext, fun rest => rfl⟩
  | @cons v w members values hv hmore =>
    have htext : prettyAt level (.object (v :: members)) = '\x7b' :: (newLine (level + 1) ++
        (memberText (level + 1) v ++ (further (level + 1) (memberText (level + 1)) members ++
          (newLine level ++ ['\x7d'])))) := by
      rw [prettyAt, prettyMembers_eq]
      simp [memberText]
    refine ⟨_, htext, fun rest => ?_⟩
    have hread : ∀ {v w : Text × Json}, v.1 = w.1 ∧ Spells depth (prettyAt (level + 1) v.2) w.2 →
        ∀ front, (∀ t, skipSpace (front ++ t) = skipSpace t) → ∀ rest,
          member? (Json.value? depth) (front ++ memberText (level + 1) v ++ rest) =
            some (w, rest) := by
      intro v w hvw front hfront rest
      rw [member?_memberText hvw.2 hfront, hvw.1]
    have hfirst : ∀ rest, member? (Json.value? depth) (memberText (level + 1) v ++ rest) =
        some (w, rest) := hread hv [] fun _ => rfl
    simp only [List.append_assoc, List.cons_append, List.nil_append]
    rw [memberList?_of_opens _ (opens_memberText _ _)]
    exact separated_length (by decide) (fun _ => rfl) hfirst
      (hmore.imp fun _ _ hvw => hread hvw _ (skipSpace_newLine (level + 1)))

theorem spells_object {members values : List (Text × Json)}
    (h : List.Forall₂ (fun v w => v.1 = w.1 ∧ Spells depth (prettyAt (level + 1) v.2) w.2)
      members values) :
    Spells (depth + 1) (prettyAt level (.object members)) (ofPairs values) := by
  obtain ⟨body, htext, hbody⟩ := exists_memberList? h
  rw [htext]
  refine ⟨⟨'\x7b', _, rfl, .inr (.inr rfl)⟩, fun rest => ?_⟩
  rw [Json.value?]
  change objectBody (Json.value? depth) (body ++ rest) = _
  rw [objectBody_eq, hbody]
  rfl

end Members

/-! ## Whole texts -/

theorem parse?_of_spells {text : Text} {value : Json} (h : Spells depthLimit text value) :
    parse? text = some value := by
  have hread := h.value? []
  rw [List.append_nil] at hread
  rw [parse?, hread]
  rfl

/-- The members of the object that a text holds, in the order in which they stand there. -/
def written? (t : Text) : Option (List (Text × Json)) :=
  let text := skipSpace t
  if text.head? = some '\x7b' then (memberList? (value? (depthLimit - 1)) text.tail).map Prod.fst
  else none

theorem written?_pretty {members values : List (Text × Json)}
    (h : List.Forall₂ (fun v w => v.1 = w.1 ∧ Spells (depthLimit - 1) (prettyAt 1 v.2) w.2)
      members values) :
    written? (pretty (.object members)) = some values := by
  obtain ⟨body, htext, hbody⟩ := exists_memberList? h
  have hread := hbody []
  rw [List.append_nil] at hread
  rw [pretty, htext, written?]
  change (memberList? (value? (depthLimit - 1)) body).map Prod.fst = _
  rw [hread]
  rfl

end Json

end StyleBundle
