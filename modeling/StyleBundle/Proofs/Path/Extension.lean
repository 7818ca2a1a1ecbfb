import StyleBundle.Proofs.Path.Components

/-!
# File names at the end of a path

A path text that ends in a slash and a name has this name as its file name.  Another extension
replaces what stands behind the last dot of the name, and leaves the text in front of it alone
(`Path.withExtension_append_slash`).  `Path.EndsIn` says so of components.
-/

namespace StyleBundle

namespace Text

/-! ## Joining and cutting -/

theorem joinWith_append_singleton (separator : Text) {pieces : List Text} (hne : pieces ≠ [])
    (last : Text) :
    joinWith separator (pieces ++ [last]) = joinWith separator pieces ++ separator ++ last := by
  induction pieces with
  | nil => exact absurd rfl hne
  | cons piece pieces ih =>
    cases pieces with
    | nil => rfl
    | cons next pieces =>
      rw [List.cons_append, List.cons_append, joinWith_cons_cons, ← List.cons_append,
        ih (by simp), joinWith_cons_cons]
      simp only [List.append_assoc]

theorem joinWith_split (separator : Char) (t : Text) :
    joinWith [separator] (split separator t) = t := by
  induction t with
  | nil => rfl
  | cons c rest ih =>
    by_cases hc : c = separator
    · subst hc
      obtain ⟨piece, pieces, hrest⟩ := List.exists_cons_of_ne_nil (split_ne_nil c rest)
      rw [split_cons_separator, hrest, joinWith_cons_cons, ← hrest, ih]
      rfl
    · obtain ⟨piece, pieces, hrest, hsplit⟩ := split_cons_of_ne hc rest
      rw [hrest] at ih
      rw [hsplit]
      cases pieces with
      | nil =>
        change c :: piece = c :: rest
        rw [← ih]
        rfl
      | cons next pieces =>
        rw [joinWith_cons_cons] at ih ⊢
        rw [← ih]
        rfl

/-- A text that holds a mark can be cut at the last one. -/
theorem exists_last_of_mem {mark : Char} {t : Text} (h : mark ∈ t) :
    ∃ before after, t = before ++ mark :: after ∧ mark ∉ after := by
  obtain ⟨after, before, hreverse, hmark⟩ := List.eq_append_cons_of_mem (List.mem_reverse.2 h)
  refine ⟨before.reverse, after.reverse, ?_, by simpa using hmark⟩
  rw [← List.reverse_reverse t, hreverse]
  simp

theorem cutLast?_of_notMem {mark : Char} {t : Text} (h : mark ∉ t) : cutLast? mark t = none := by
  induction t with
  | nil => rfl
  | cons c rest ih =>
    rw [List.mem_cons, not_or] at h
    rw [cutLast?, ih h.2]
    simp [Ne.symm h.1]

/-- The last mark is the one with no other behind it. -/
theorem cutLast?_append {mark : Char} (before : Text) {after : Text} (h : mark ∉ after) :
    cutLast? mark (before ++ mark :: after) = some (before, after) := by
  induction before with
  | nil =>
    rw [List.nil_append, cutLast?, cutLast?_of_notMem h]
    simp
  | cons c before ih => rw [List.cons_append, cutLast?, ih]

end Text

namespace Path

/-! ## The file name -/

theorem mk_append_slash (front name : Text) (h : '/' ∉ name) :
    Path.mk (front ++ '/' :: name) = (Path.mk (front ++ ['/'])).push name := by
  rw [push, join, if_neg (by simp [isAbsolute_mk_of_notMem h]), if_pos (by simp)]
  simp

theorem components_append_name (front : Text) {name : Text} (h : Component.IsName name) :
    (Path.mk (front ++ '/' :: name)).components =
      (Path.mk (front ++ ['/'])).components ++ [.normal name] := by
  rw [mk_append_slash front name h.one_piece, components_push_name _ h]

theorem fileName?_append_name (front : Text) {name : Text} (h : Component.IsName name) :
    (Path.mk (front ++ '/' :: name)).fileName? = some name := by
  rw [fileName?, components_append_name front h, List.getLast?_concat]

theorem lead_append_body (p : Path) : p.lead ++ Text.joinWith ['/'] p.body = p.text := by
  have htext := Text.joinWith_split '/' p.text
  rcases lead_cases p with ⟨_, hlead, _, hsplit⟩ | ⟨_, hlead, _, pieces, hbody, hsplit⟩ |
    ⟨_, hlead, _, hsplit, _⟩
  · have hne : p.body ≠ [] := Text.split_ne_nil '/' _
    obtain ⟨piece, pieces, hbody⟩ := List.exists_cons_of_ne_nil hne
    rw [hsplit, hbody, Text.joinWith_cons_cons] at htext
    rw [hlead, hbody]
    exact htext
  · rw [hsplit] at htext
    rw [hlead, hbody]
    cases pieces with
    | nil => exact htext
    | cons next pieces =>
      rw [Text.joinWith_cons_cons] at htext ⊢
      exact htext
  · rw [hlead, ← hsplit]
    exact htext

/-- The pieces behind the lead end with the name. -/
theorem exists_body_eq (front : Text) {name : Text} (h : '/' ∉ name) :
    ∃ init, (Path.mk (front ++ '/' :: name)).body = init ++ [name] := by
  have hsplit : Text.split '/' (front ++ '/' :: name) = Text.split '/' front ++ [name] := by
    rw [Text.split_append_separator, Text.split_of_notMem h]
  obtain ⟨piece, pieces, hfront⟩ := List.exists_cons_of_ne_nil (Text.split_ne_nil '/' front)
  rw [hfront, List.cons_append] at hsplit
  rcases lead_cases (Path.mk (front ++ '/' :: name)) with ⟨_, _, _, hbody⟩ |
    ⟨_, _, _, rest, hbody, hrest⟩ | ⟨_, _, _, hbody, _⟩
  · rw [hsplit, List.cons.injEq] at hbody
    exact ⟨pieces, hbody.2.symm⟩
  · rw [hsplit, List.cons.injEq] at hrest
    exact ⟨[] :: pieces, by rw [hbody, ← hrest.2]; rfl⟩
  · exact ⟨piece :: pieces, by rw [← hbody, hsplit]; rfl⟩

/-- The pieces backward start with the name.  Another piece in its place changes the end of the
text alone. -/
theorem exists_backward_eq (front : Text) {name : Text} (h : Component.IsName name) :
    ∃ before, (Path.mk (front ++ '/' :: name)).backward = name :: before ∧
      ∀ piece, ofBackward (Path.mk (front ++ '/' :: name)).lead (piece :: before) =
        ⟨front ++ '/' :: piece⟩ := by
  obtain ⟨init, hbody⟩ := exists_body_eq front h.one_piece
  have htext := lead_append_body (Path.mk (front ++ '/' :: name))
  generalize (Path.mk (front ++ '/' :: name)).lead = lead at htext ⊢
  rw [hbody] at htext
  refine ⟨init.reverse, ?_, fun piece => ?_⟩
  · rw [backward, hbody, List.reverse_concat,
      List.dropWhile_cons_of_neg (by simp [h.idle_eq_false])]
  · -- The text in front of the last piece does not depend on it.
    obtain ⟨before, hbefore⟩ : ∃ before, ∀ last,
        lead ++ Text.joinWith ['/'] (init ++ [last]) = before ++ last := by
      by_cases hinit : init = []
      · exact ⟨lead, fun last => by rw [hinit]; rfl⟩
      · refine ⟨lead ++ (Text.joinWith ['/'] init ++ ['/']), fun last => ?_⟩
        rw [Text.joinWith_append_singleton _ hinit, List.append_assoc lead]
    have hfront : before = front ++ ['/'] := by
      rw [hbefore] at htext
      have happend : before ++ name = (front ++ ['/']) ++ name := by simpa using htext
      exact List.append_cancel_right happend
    rw [ofBackward, List.reverse_cons, List.reverse_reverse, hbefore, hfront]
    simp

/-! ## Another extension -/

theorem cutName?_append {stem ext : Text} (hstem : stem ≠ []) (hext : '.' ∉ ext) :
    cutName? (stem ++ '.' :: ext) = some (stem, ext) := by
  rw [cutName?, Text.cutLast?_append stem hext]
  simp [hstem]

theorem stem_append {stem ext : Text} (hstem : stem ≠ []) (hext : '.' ∉ ext) :
    Path.stem (stem ++ '.' :: ext) = stem := by
  rw [Path.stem, cutName?_append hstem hext]

/-- Another extension replaces what stands behind the last dot of the name. -/
theorem withExtension_append_slash (front : Text) {stem ext : Text}
    (hname : Component.IsName (stem ++ '.' :: ext)) (hstem : stem ≠ []) (hdot : stem ≠ ['.'])
    (hext : '.' ∉ ext) (extension : Text) :
    (Path.mk (front ++ '/' :: (stem ++ '.' :: ext))).withExtension extension =
      ⟨front ++ '/' :: (stem ++ '.' :: extension)⟩ := by
  have hbare : Component.IsName (stem ++ ['.']) := by
    have hslash := hname.one_piece
    rw [List.mem_append, not_or] at hslash
    refine .of_ne (by simp [hslash.1]) (by simp) (by simpa using hstem) fun hup => hdot ?_
    exact List.append_cancel_right (hup : stem ++ ['.'] = ['.'] ++ ['.'])
  have hold : (Path.mk (front ++ '/' :: (stem ++ '.' :: ext))).extension? = some ext := by
    rw [extension?, fileName?_append_name front hname, Option.bind_some,
      cutName?_append hstem hext]
    rfl
  -- The dot stays when the old extension is cut off.
  have hcut : (front ++ '/' :: (stem ++ '.' :: ext)).take
      ((front ++ '/' :: (stem ++ '.' :: ext)).length - ext.length) =
      front ++ '/' :: (stem ++ ['.']) := by
    have hsplit : front ++ '/' :: (stem ++ '.' :: ext) =
        (front ++ '/' :: (stem ++ ['.'])) ++ ext := by
      simp
    rw [hsplit, List.length_append, Nat.add_sub_cancel, List.take_left]
  obtain ⟨before, hbackward, hreplace⟩ := exists_backward_eq front hbare
  rw [withExtension, hold]
  simp only [hcut]
  rw [replaceAfterStem, fileName?_append_name front hbare, hbackward]
  simp only [stem_append hstem (List.not_mem_nil : '.' ∉ ([] : Text)), hreplace]
  simp

/-! ## Files in a directory -/

/-- The path is a name in a directory with the given components, and its text ends with the
name. -/
structure EndsIn (p : Path) (steps : List Component) (name : Text) : Prop where
  components : p.components = steps ++ [.normal name]
  text : ∃ front, p.text = front ++ '/' :: name

variable {p : Path} {steps : List Component} {name stem ext : Text}

theorem EndsIn.isName (h : EndsIn p steps name) : Component.IsName name := by
  have hmem : .normal name ∈ p.components := by simp [h.components]
  exact isName_of_mem_components hmem

theorem EndsIn.replace (h : EndsIn p steps name) {front name' : Text}
    (hfront : p.text = front ++ '/' :: name) (hname : Component.IsName name') :
    EndsIn ⟨front ++ '/' :: name'⟩ steps name' := by
  have hp : p = ⟨front ++ '/' :: name⟩ := by rw [← hfront]
  have hsteps := h.components
  rw [hp, components_append_name front h.isName] at hsteps
  refine ⟨?_, front, rfl⟩
  rw [components_append_name front hname, List.append_cancel_right hsteps]

theorem EndsIn.append (h : EndsIn p steps name) {tail : Text}
    (hname : Component.IsName (name ++ tail)) : EndsIn ⟨p.text ++ tail⟩ steps (name ++ tail) := by
  obtain ⟨front, hfront⟩ := h.text
  have hreplace := h.replace hfront hname
  rw [hfront]
  simpa using hreplace

theorem EndsIn.withExtension (h : EndsIn p steps (stem ++ '.' :: ext)) (hstem : stem ≠ [])
    (hdot : stem ≠ ['.']) (hext : '.' ∉ ext) {extension : Text}
    (hname : Component.IsName (stem ++ '.' :: extension)) :
    EndsIn (p.withExtension extension) steps (stem ++ '.' :: extension) := by
  obtain ⟨front, hfront⟩ := h.text
  have hp : p = ⟨front ++ '/' :: (stem ++ '.' :: ext)⟩ := by rw [← hfront]
  have hreplace := h.replace hfront hname
  rw [← withExtension_append_slash front h.isName hstem hdot hext extension, ← hp] at hreplace
  exact hreplace

end Path

end StyleBundle
