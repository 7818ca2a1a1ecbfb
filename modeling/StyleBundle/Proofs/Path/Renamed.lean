import StyleBundle.Proofs.Path.Clean
import StyleBundle.Proofs.Path.Extension

/-!
# The file name after another extension

A path has a file name when the last piece that counts is a name, and `Path.Ends` cuts the text
around this piece.  Another extension takes the place of the old one in the file name
(`Path.Renamed`), whatever stands behind the name in the text (`Path.fileName?_withExtension`).

The exception is a text that ends in a name like `..scss`.  What is left of it without the
extension is a step up, and the path has no file name any more
(`Path.fileName?_withExtension_of_endsDotted`).
-/

namespace StyleBundle

namespace Text

/-! ## Pieces around a piece -/

/-- Pieces with a slash behind each. -/
def closedPieces (pieces : List Text) : Text :=
  pieces.flatMap fun piece => piece ++ ['/']

theorem closedPieces_cons (piece : Text) (pieces : List Text) :
    closedPieces (piece :: pieces) = piece ++ '/' :: closedPieces pieces := by
  simp [closedPieces]

theorem split_closedPieces_append {pieces : List Text} (h : ∀ piece ∈ pieces, '/' ∉ piece)
    (t : Text) : split '/' (closedPieces pieces ++ t) = pieces ++ split '/' t := by
  induction pieces with
  | nil => rfl
  | cons piece pieces ih =>
    rw [closedPieces_cons, List.append_assoc, List.cons_append, split_append_separator,
      split_of_notMem (h piece List.mem_cons_self),
      ih fun other hother => h other (List.mem_cons_of_mem piece hother)]
    rfl

theorem joinWith_cons_eq (piece : Text) (pieces : List Text) :
    joinWith ['/'] (piece :: pieces) = piece ++ slashedPieces pieces := by
  induction pieces generalizing piece with
  | nil => simp [joinWith, slashedPieces]
  | cons next pieces ih =>
    rw [joinWith_cons_cons, ih, slashedPieces_cons, List.append_assoc]
    rfl

theorem joinWith_append_cons (init : List Text) (piece : Text) (trail : List Text) :
    joinWith ['/'] (init ++ piece :: trail) =
      closedPieces init ++ (piece ++ slashedPieces trail) := by
  induction init with
  | nil => exact joinWith_cons_eq piece trail
  | cons first init ih =>
    obtain ⟨next, more, hmore⟩ :=
      List.exists_cons_of_ne_nil
        (List.append_ne_nil_of_right_ne_nil init (List.cons_ne_nil piece trail))
    rw [List.cons_append, hmore, joinWith_cons_cons, ← hmore, ih, closedPieces_cons]
    simp only [List.append_assoc, List.nil_append, List.cons_append]

/-- Cutting pieces that do not count leaves pieces that do not count. -/
theorem take_slashedPieces {pieces : List Text}
    (h : ∀ piece ∈ pieces, Component.idle piece = true) (n : Nat) :
    ∃ rest, (slashedPieces pieces).take n = slashedPieces rest ∧
      ∀ piece ∈ rest, Component.idle piece = true := by
  induction pieces generalizing n with
  | nil => exact ⟨[], by simp [slashedPieces], by simp⟩
  | cons piece pieces ih =>
    cases n with
    | zero => exact ⟨[], by simp [slashedPieces], by simp⟩
    | succ n =>
      obtain ⟨rest, hrest, hidle⟩ :=
        ih (fun other hother => h other (List.mem_cons_of_mem piece hother)) (n - piece.length)
      refine ⟨piece.take n :: rest, ?_, List.forall_mem_cons.2 ⟨?_, hidle⟩⟩
      · rw [slashedPieces_cons, slashedPieces_cons, List.cons_append, List.take_succ_cons,
          List.take_append, hrest]
        rfl
      · -- A piece that does not count is empty or one dot, and so is what is left of it.
        have hpiece := h piece List.mem_cons_self
        rcases Component.idle_iff.1 hpiece with rfl | rfl
        · simp [Component.idle]
        · cases n with
          | zero => rfl
          | succ n => simp [Component.idle]

end Text

namespace Path

variable {p : Path} {init trail : List Text} {name stem old ext : Text}

/-! ## Where the file name stands -/

/-- The pieces of the path are `init`, a name, and pieces behind it that do not count. -/
structure Ends (p : Path) (init : List Text) (name : Text) (trail : List Text) : Prop where
  split : p.text.split '/' = init ++ name :: trail
  isName : Component.IsName name
  idle : ∀ piece ∈ trail, Component.idle piece = true

theorem Ends.notMem_init (h : Ends p init name trail) : ∀ piece ∈ init, '/' ∉ piece := by
  intro piece hpiece
  exact Text.notMem_of_mem_split (h.split ▸ List.mem_append_left _ hpiece)

theorem Ends.text (h : Ends p init name trail) :
    p.text = Text.closedPieces init ++ (name ++ Text.slashedPieces trail) := by
  rw [← Text.joinWith_append_cons, ← h.split, Text.joinWith_split]

theorem Ends.of_text (hinit : ∀ piece ∈ init, '/' ∉ piece) (hname : Component.IsName name)
    (hidle : ∀ piece ∈ trail, Component.idle piece = true) :
    Ends ⟨Text.closedPieces init ++ (name ++ Text.slashedPieces trail)⟩ init name trail := by
  have htrail : ∀ piece ∈ trail, '/' ∉ piece := by
    intro piece hpiece
    rcases Component.idle_iff.1 (hidle piece hpiece) with rfl | rfl
    · simp
    · decide
  refine ⟨?_, hname, hidle⟩
  rw [Text.split_closedPieces_append hinit, Text.split_append_slashedPieces _ htrail,
    Text.split_of_notMem hname.one_piece]
  rfl

theorem Ends.fileName? (h : Ends p init name trail) : p.fileName? = some name := by
  have htrail : trail.filterMap Component.ofPiece? = [] :=
    Component.filterMap_ofPiece?_eq_nil_iff.2 h.idle
  rw [Path.fileName?, components_eq, h.split, List.filterMap_append,
    List.filterMap_cons_some h.isName.counts, htrail, ← List.append_assoc, List.getLast?_concat]

theorem exists_ends (h : p.fileName? = some name) : ∃ init trail, Ends p init name trail := by
  have hlast : p.components.getLast? = some (.normal name) := by
    rw [Path.fileName?] at h
    split at h
    · cases h
      assumption
    · cases h
  have hpieces : ((p.text.split '/').filterMap Component.ofPiece?).getLast? =
      some (.normal name) := by
    rw [components_eq, List.getLast?_append, Option.or_eq_some_iff] at hlast
    refine hlast.resolve_right fun hlead => ?_
    rcases lead_cases p with ⟨_, _, hl, _⟩ | ⟨_, _, hl, _⟩ | ⟨_, _, hl, _⟩
    · simp [hl] at hlead
    · simp [hl] at hlead
    · simp [hl] at hlead
  obtain ⟨before, hbefore⟩ := List.getLast?_eq_some_iff.1 hpieces
  obtain ⟨front, back, hsplit, -, hback⟩ := List.filterMap_eq_append_iff.1 hbefore
  obtain ⟨skipped, piece, trail, rfl, -, hpiece, htrail⟩ := List.filterMap_eq_cons_iff.1 hback
  obtain ⟨hname, -⟩ := Component.ofPiece?_eq_some hpiece
  have hname : name = piece := hname
  subst hname
  refine ⟨front ++ skipped, trail, by rw [hsplit, List.append_assoc], ?_,
    Component.filterMap_ofPiece?_eq_nil_iff.1 htrail⟩
  exact isName_of_mem_components (List.mem_of_getLast? hlast)

/-- Behind the lead the pieces are the same. -/
theorem Ends.exists_body (h : Ends p init name trail) :
    ∃ front, p.body = front ++ name :: trail ∧
      p.lead ++ Text.closedPieces front = Text.closedPieces init := by
  have hsplit := h.split
  rcases lead_cases p with ⟨_, hlead, _, hbody⟩ | ⟨_, hlead, _, pieces, hbody, hdot⟩ |
    ⟨_, hlead, _, hbody, _⟩
  · rw [hbody] at hsplit
    cases init with
    | nil =>
      obtain ⟨hname, -⟩ := List.cons.inj hsplit
      exact absurd hname.symm h.isName.ne_nil
    | cons first front =>
      obtain ⟨rfl, hfront⟩ := List.cons.inj hsplit
      exact ⟨front, hfront, by rw [hlead, Text.closedPieces_cons]; rfl⟩
  · rw [hdot] at hsplit
    cases init with
    | nil =>
      obtain ⟨rfl, -⟩ := List.cons.inj hsplit
      exact absurd h.isName.idle_eq_false (by decide)
    | cons first front =>
      obtain ⟨rfl, hfront⟩ := List.cons.inj hsplit
      refine ⟨[] :: front, by rw [hbody, hfront]; rfl, ?_⟩
      rw [hlead, Text.closedPieces_cons, Text.closedPieces_cons]
      rfl
  · exact ⟨init, by rw [← hbody, hsplit], by rw [hlead]; rfl⟩

theorem Ends.replaceAfterStem (h : Ends p init name trail) (tail : Text) :
    p.replaceAfterStem tail = ⟨Text.closedPieces init ++ (Path.stem name ++ tail)⟩ := by
  obtain ⟨front, hbody, hfront⟩ := h.exists_body
  have hbackward : p.backward = name :: front.reverse := by
    have hidle : ∀ piece ∈ trail.reverse, Component.idle piece = true := fun piece hpiece =>
      h.idle piece (List.mem_reverse.1 hpiece)
    rw [backward, hbody, List.reverse_append, List.reverse_cons, List.append_assoc,
      List.dropWhile_append_of_pos hidle, List.singleton_append,
      List.dropWhile_cons_of_neg (by simp [h.isName.idle_eq_false])]
  rw [Path.replaceAfterStem, h.fileName?, hbackward]
  simp only [ofBackward, List.reverse_cons, List.reverse_reverse]
  rw [Text.joinWith_append_cons, ← List.append_assoc, hfront]
  simp [Text.slashedPieces]

/-! ## Names with another extension -/

/-- A name with another extension: in place of the old one, or behind a name that has none. -/
inductive Renamed (ext : Text) : Text → Text → Prop where
  | replaced {stem old : Text} : stem ≠ [] → '.' ∉ old →
      Renamed ext (stem ++ '.' :: old) (stem ++ '.' :: ext)
  | added {first : Char} {rest : Text} : '.' ∉ rest →
      Renamed ext (first :: rest) (first :: rest ++ '.' :: ext)

/-- A name has an extension, or no dot behind its first character. -/
theorem name_cases (h : name ≠ []) :
    (∃ stem old, stem ≠ [] ∧ '.' ∉ old ∧ name = stem ++ '.' :: old) ∨
      ∃ first rest, '.' ∉ rest ∧ name = first :: rest := by
  obtain ⟨first, rest, rfl⟩ := List.exists_cons_of_ne_nil h
  by_cases hdot : '.' ∈ rest
  · obtain ⟨before, after, rfl, hafter⟩ := Text.exists_last_of_mem hdot
    exact .inl ⟨first :: before, after, by simp, hafter, rfl⟩
  · exact .inr ⟨first, rest, hdot, rfl⟩

theorem cutName?_of_notMem (first : Char) {rest : Text} (h : '.' ∉ rest) :
    cutName? (first :: rest) = none := by
  rw [cutName?, Text.cutLast?, Text.cutLast?_of_notMem h]
  by_cases hfirst : first = '.'
  · simp [hfirst]
  · simp [hfirst]

theorem renamed_iff {after : Text} (h : name ≠ []) :
    Renamed ext name after ↔ after = Path.stem name ++ '.' :: ext := by
  constructor
  · rintro (⟨hstem, hold⟩ | hrest)
    · rw [stem_append hstem hold]
    · rw [Path.stem, cutName?_of_notMem _ hrest]
  · rintro rfl
    rcases name_cases h with ⟨stem, old, hstem, hold, rfl⟩ | ⟨first, rest, hrest, rfl⟩
    · rw [stem_append hstem hold]
      exact .replaced hstem hold
    · rw [Path.stem, cutName?_of_notMem _ hrest]
      exact .added hrest

/-! ## Paths with another extension -/

/-- The text ends in two dots and an extension. -/
def EndsDotted (p : Path) : Prop :=
  ∃ ext, ext ≠ [] ∧ '.' ∉ ext ∧ (p.text.split '/').getLast? = some ('.' :: '.' :: ext)

theorem extension?_of_fileName? (h : p.fileName? = some (stem ++ '.' :: old)) (hstem : stem ≠ [])
    (hold : '.' ∉ old) : p.extension? = some old := by
  rw [extension?, h, Option.bind_some, cutName?_append hstem hold]
  rfl

/-- With as many characters cut off the end as the extension has, the name still has its stem. -/
theorem Ends.take_text (h : Ends p init (stem ++ '.' :: old) trail) :
    ∃ rest, (∀ piece ∈ rest, Component.idle piece = true) ∧
      p.text.take (p.text.length - old.length) = Text.closedPieces init ++
        ((stem ++ '.' :: old.take (Text.slashedPieces trail).length) ++
          Text.slashedPieces rest) := by
  obtain ⟨rest, hrest, hidle⟩ :=
    Text.take_slashedPieces h.idle ((Text.slashedPieces trail).length - old.length)
  refine ⟨rest, hidle, ?_⟩
  have htext : p.text = (Text.closedPieces init ++ (stem ++ ['.'])) ++
      (old ++ Text.slashedPieces trail) := by
    rw [h.text]
    simp
  have hlength : p.text.length - old.length =
      (Text.closedPieces init ++ (stem ++ ['.'])).length + (Text.slashedPieces trail).length := by
    simp only [htext, List.length_append]
    omega
  rw [hlength, htext, List.take_length_add_append, List.take_append, hrest]
  simp

/-- What is left of the name is a name, unless the text ends in it and its stem is one dot. -/
private theorem Ends.isName_take (h : Ends p init (stem ++ '.' :: old) trail) (hstem : stem ≠ [])
    (hold : '.' ∉ old) (hend : ¬ p.EndsDotted) :
    Component.IsName (stem ++ '.' :: old.take (Text.slashedPieces trail).length) := by
  have hslash := h.isName.one_piece
  rw [List.mem_append, List.mem_cons, not_or, not_or] at hslash
  refine .of_ne ?_ (by simp) (by simp [List.append_eq_singleton_iff, hstem]) fun hup => hend ?_
  · rw [List.mem_append, List.mem_cons, not_or, not_or]
    exact ⟨hslash.1, hslash.2.1, fun hmem => hslash.2.2 (List.mem_of_mem_take hmem)⟩
  · have hlength := congrArg List.length hup
    have hpos := List.length_pos_of_ne_nil hstem
    simp only [List.length_append, List.length_cons, List.length_nil] at hlength
    have htake : old.take (Text.slashedPieces trail).length = [] :=
      List.eq_nil_of_length_eq_zero (by omega)
    rw [htake] at hup
    have hone : stem = ['.'] := List.append_cancel_right (hup : stem ++ ['.'] = ['.'] ++ ['.'])
    subst hone
    have hne : old ≠ [] := by
      rintro rfl
      exact absurd h.isName.counts (by decide)
    have htrail : trail = [] := by
      rcases List.take_eq_nil_iff.1 htake with hzero | hnil
      · cases trail with
        | nil => rfl
        | cons piece trail => simp [Text.slashedPieces_cons] at hzero
      · exact absurd hnil hne
    refine ⟨old, hne, hold, ?_⟩
    rw [h.split, htrail, List.getLast?_concat]
    rfl

/-- With another extension a name is longer than two dots. -/
private theorem isName_renamed (hname : Component.IsName name) (hne : ext ≠ [])
    (hext : '/' ∉ ext) :
    Component.IsName (Path.stem name ++ '.' :: ext) := by
  obtain ⟨tail, hname', hstem⟩ : ∃ tail, name = Path.stem name ++ tail ∧ Path.stem name ≠ [] := by
    rcases name_cases hname.ne_nil with ⟨stem, old, hstem, hold, rfl⟩ | ⟨first, rest, hrest, rfl⟩
    · rw [stem_append hstem hold]
      exact ⟨_, rfl, hstem⟩
    · rw [Path.stem, cutName?_of_notMem _ hrest]
      exact ⟨[], by simp, by simp⟩
  have hslash : '/' ∉ Path.stem name := by
    have hone := hname.one_piece
    rw [hname', List.mem_append, not_or] at hone
    exact hone.1
  have hlong : 2 < (Path.stem name ++ '.' :: ext).length := by
    have hstemPos := List.length_pos_of_ne_nil hstem
    have hextPos := List.length_pos_of_ne_nil hne
    rw [List.length_append, List.length_cons]
    omega
  refine .of_ne (by simp [hslash, hext]) ?_ ?_ ?_
  · rintro heq
    simp [heq] at hlong
  · rintro heq
    simp [heq] at hlong
  · rintro heq
    simp [heq] at hlong

/-- Another extension after the stem of the file name. -/
private theorem Ends.fileName?_replaceAfterStem (h : Ends p init name trail) (hne : ext ≠ [])
    (hext : '/' ∉ ext) :
    (p.replaceAfterStem ('.' :: ext)).fileName? = some (Path.stem name ++ '.' :: ext) := by
  have hends : Ends ⟨Text.closedPieces init ++ ((Path.stem name ++ '.' :: ext) ++
      Text.slashedPieces [])⟩ init (Path.stem name ++ '.' :: ext) [] :=
    .of_text h.notMem_init (isName_renamed h.isName hne hext) (by simp)
  rw [Text.slashedPieces, List.flatMap_nil, List.append_nil] at hends
  rw [h.replaceAfterStem, hends.fileName?]

theorem fileName?_withExtension (h : p.fileName? = some name) (hend : ¬ p.EndsDotted)
    (hne : ext ≠ []) (hext : '/' ∉ ext) :
    (p.withExtension ext).fileName? = some (Path.stem name ++ '.' :: ext) := by
  obtain ⟨init, trail, hends⟩ := exists_ends h
  rcases name_cases hends.isName.ne_nil with
    ⟨stem, old, hstem, hold, rfl⟩ | ⟨first, rest, hrest, rfl⟩
  · obtain ⟨trail', hidle, htake⟩ := hends.take_text
    have hcut := Ends.of_text hends.notMem_init (hends.isName_take hstem hold hend) hidle
    have hold' : '.' ∉ old.take (Text.slashedPieces trail).length := fun hmem =>
      hold (List.mem_of_mem_take hmem)
    rw [withExtension, extension?_of_fileName? h hstem hold]
    simp only [htake]
    rw [hcut.fileName?_replaceAfterStem hne hext, stem_append hstem hold', stem_append hstem hold]
  · have hnone : p.extension? = none := by
      rw [extension?, h, Option.bind_some, cutName?_of_notMem _ hrest]
      rfl
    rw [withExtension, hnone]
    exact hends.fileName?_replaceAfterStem hne hext

theorem fileName?_withExtension_of_none (h : p.fileName? = none) (ext : Text) :
    (p.withExtension ext).fileName? = none := by
  have hnone : p.extension? = none := by
    rw [extension?, h]
    rfl
  rw [withExtension, hnone]
  simp only [Path.replaceAfterStem, h]

/-- The pieces of a path that ends in two dots and an extension. -/
theorem EndsDotted.exists_ends (h : p.EndsDotted) :
    ∃ init ext, ext ≠ [] ∧ '.' ∉ ext ∧ Ends p init (['.'] ++ '.' :: ext) [] := by
  obtain ⟨ext, hne, hdot, hlast⟩ := h
  obtain ⟨init, hsplit⟩ := List.getLast?_eq_some_iff.1 hlast
  refine ⟨init, ext, hne, hdot, hsplit,
    .of_ne ?_ (by simp) (by simp) (by simpa using hne), by simp⟩
  exact Text.notMem_of_mem_split (hsplit ▸ List.mem_append_right _ List.mem_cons_self)

theorem fileName?_withExtension_of_endsDotted (h : p.EndsDotted) (ext : Text) :
    (p.withExtension ext).fileName? = none := by
  obtain ⟨init, old, hne, hold, hends⟩ := h.exists_ends
  have htext : p.text = (Text.closedPieces init ++ ['.', '.']) ++ old := by
    rw [hends.text]
    simp [Text.slashedPieces]
  have hcut : p.text.take (p.text.length - old.length) = Text.closedPieces init ++
      ['.', '.'] := by
    rw [htext, List.length_append, Nat.add_sub_cancel, List.take_left]
  -- The last component that is left is a step up.
  have hnone : (Path.mk (Text.closedPieces init ++ ['.', '.'])).fileName? = none := by
    have hparent : (Text.split '/' ['.', '.']).filterMap Component.ofPiece? =
        [.parent] := by decide
    rw [Path.fileName?, components_eq, Text.split_closedPieces_append hends.notMem_init,
      List.filterMap_append, hparent, ← List.append_assoc, List.getLast?_concat]
  rw [withExtension, extension?_of_fileName? hends.fileName? (by simp) hold]
  simp only [hcut, Path.replaceAfterStem, hnone]

end Path

end StyleBundle
