import Mathlib.Data.List.TakeWhile
import StyleBundle.Path.Basic
import StyleBundle.Proofs.Text.Split

/-!
# Components of paths

How the components of a path follow from the way its text was built.

* A name pushed on a path is one more component (`Path.components_push`).
* The parent of a path has all components but the last (`Path.components_of_parent?`).
* Paths are compared by components (`Path.same_iff`).
* A name among the components is a piece of the text (`Path.isName_of_mem_components`,
  `Path.mem_split_of_mem_components`).
-/

namespace StyleBundle

/-- A piece of path text that stands for a name. -/
structure Component.IsName (name : Text) : Prop where
  /-- It is one piece. -/
  one_piece : '/' ∉ name
  /-- It is neither empty nor a run of one or two dots. -/
  counts : Component.ofPiece? name = some (.normal name)

namespace Component

instance (name : Text) : Decidable (IsName name) :=
  decidable_of_iff ('/' ∉ name ∧ ofPiece? name = some (.normal name))
    ⟨fun h => ⟨h.1, h.2⟩, fun h => ⟨h.one_piece, h.counts⟩⟩

theorem idle_iff {piece : Text} : idle piece = true ↔ piece = [] ∨ piece = ['.'] := by
  simp [idle]

theorem ofPiece?_of_idle {piece : Text} (h : idle piece = true) : ofPiece? piece = none := by
  rw [ofPiece?, if_pos h]

theorem ofPiece?_parent : ofPiece? ['.', '.'] = some .parent := by decide

/-- A piece that counts is a step up or a name. -/
theorem ofPiece?_cases {piece : Text} (h : idle piece = false) :
    (piece = ['.', '.'] ∧ ofPiece? piece = some .parent) ∨
      (piece ≠ ['.', '.'] ∧ ofPiece? piece = some (.normal piece)) := by
  by_cases hp : piece = ['.', '.']
  · exact .inl ⟨hp, hp ▸ ofPiece?_parent⟩
  · right
    refine ⟨hp, ?_⟩
    rw [ofPiece?, if_neg (by simp [h]), if_neg hp]

/-- Pieces without a component are pieces that do not count. -/
theorem filterMap_ofPiece?_eq_nil_iff {pieces : List Text} :
    pieces.filterMap ofPiece? = [] ↔ ∀ piece ∈ pieces, idle piece = true := by
  rw [List.filterMap_eq_nil_iff]
  refine forall₂_congr fun piece _ => ⟨fun hnone => ?_, ofPiece?_of_idle⟩
  by_contra hcounts
  rcases ofPiece?_cases (by simpa using hcounts) with ⟨_, hsome⟩ | ⟨_, hsome⟩
  · rw [hnone] at hsome
    cases hsome
  · rw [hnone] at hsome
    cases hsome

/-- The component of a piece is a step up, or the piece itself as a name. -/
theorem ofPiece?_eq_some {piece : Text} {step : Component} (h : ofPiece? piece = some step) :
    step.text = piece ∧ (step = .parent ∨ step = .normal piece) := by
  cases hidle : idle piece with
  | true =>
    rw [ofPiece?_of_idle hidle] at h
    cases h
  | false =>
    rcases ofPiece?_cases hidle with ⟨hpiece, hparent⟩ | ⟨_, hnormal⟩
    · rw [hparent] at h
      cases h
      exact ⟨hpiece.symm, .inl rfl⟩
    · rw [hnormal] at h
      cases h
      exact ⟨rfl, .inr rfl⟩

theorem IsName.idle_eq_false {name : Text} (h : IsName name) : idle name = false := by
  by_contra hi
  rw [Bool.not_eq_false] at hi
  have hc := h.counts
  rw [ofPiece?_of_idle hi] at hc
  cases hc

theorem IsName.ne_nil {name : Text} (h : IsName name) : name ≠ [] := by
  rintro rfl
  exact absurd h.idle_eq_false (by decide)

theorem IsName.of_ne {name : Text} (hslash : '/' ∉ name) (hne : name ≠ []) (hdot : name ≠ ['.'])
    (hup : name ≠ ['.', '.']) : IsName name := by
  have hidle : idle name = false := by simp [idle, hne, hdot]
  exact ⟨hslash, ((ofPiece?_cases hidle).resolve_left fun h => hup h.1).2⟩

/-- The text of a step up or a name is one piece that counts. -/
theorem piece_of_step {step : Component}
    (h : step = .parent ∨ ∃ name, IsName name ∧ step = .normal name) :
    '/' ∉ step.text ∧ step.text ≠ [] ∧ idle step.text = false ∧
    ofPiece? step.text = some step := by
  rcases h with rfl | ⟨name, hname, rfl⟩
  · decide
  · exact ⟨hname.one_piece, hname.ne_nil, hname.idle_eq_false, hname.counts⟩

end Component

namespace Path

/-! ## Comparing paths -/

theorem same_iff {p q : Path} : p.same q = true ↔ p.components = q.components := by
  simp [same]

theorem same_refl (p : Path) : p.same p = true := same_iff.2 rfl

theorem isIn_iff {p : Path} {paths : List Path} :
    p.isIn paths = true ↔ ∃ q ∈ paths, p.components = q.components := by
  simp [isIn, same_iff]

/-! ## Pushing a piece -/

/-- The components of the pieces between slashes. -/
theorem components_eq (p : Path) :
    p.components = p.leadComponents ++ (p.text.split '/').filterMap Component.ofPiece? := rfl

theorem isAbsolute_mk_of_notMem {piece : Text} (h : '/' ∉ piece) :
    (Path.mk piece).isAbsolute = false := by
  cases piece with
  | nil => rfl
  | cons c rest =>
    have hc : c ≠ '/' := fun hc => h (hc ▸ List.mem_cons_self)
    simp [isAbsolute, hc]

/-- More text after a slash leaves the lead alone. -/
private theorem leadComponents_append_slash (front back : Text) (h : front ≠ []) :
    (Path.mk (front ++ '/' :: back)).leadComponents = (Path.mk front).leadComponents := by
  obtain ⟨c, rest, rfl⟩ := List.exists_cons_of_ne_nil h
  have hhead : (Text.split '/' (c :: rest ++ '/' :: back)).head? =
      (Text.split '/' (c :: rest)).head? := by
    rw [Text.split_append_separator]
    cases hs : Text.split '/' (c :: rest) with
    | nil => exact absurd hs (Text.split_ne_nil '/' _)
    | cons piece pieces => rfl
  have habs : (Path.mk (c :: rest ++ '/' :: back)).isAbsolute =
      (Path.mk (c :: rest)).isAbsolute := by
    simp [isAbsolute]
  rw [leadComponents, leadComponents, habs, hhead]

theorem components_append_slash {front : Text} (h : front ≠ []) (back : Text) :
    (Path.mk (front ++ '/' :: back)).components =
      (Path.mk front).components ++ (back.split '/').filterMap Component.ofPiece? := by
  rw [components_eq, components_eq, leadComponents_append_slash front back h,
    Text.split_append_separator, List.filterMap_append, List.append_assoc]

/-- A relative path joined to another one adds the components of its pieces. -/
theorem components_join {p q : Path} (hp : p.text ≠ []) (hq : q.isAbsolute = false) :
    (p.join q).components = p.components ++ (q.text.split '/').filterMap Component.ofPiece? := by
  obtain ⟨text⟩ := p
  simp only at hp
  rw [join, if_neg (by simp [hq])]
  split_ifs with hend
  · -- The slash at the end stands in front of an empty piece.
    rw [Bool.or_eq_true, decide_eq_true_iff, decide_eq_true_iff] at hend
    have hnone : Component.ofPiece? [] = none := rfl
    obtain ⟨front, rfl⟩ := List.getLast?_eq_some_iff.1 (hend.resolve_left hp)
    rw [List.append_assoc, List.singleton_append]
    by_cases hfront : front = []
    · subst hfront
      have hroot : (Path.mk ['/']).components = [.root] := by decide
      have hlead : (Path.mk ('/' :: q.text)).leadComponents = [.root] := by
        simp [leadComponents, isAbsolute]
      rw [List.nil_append, List.nil_append, hroot, components_eq, hlead,
        Text.split_cons_separator, List.filterMap_cons_none hnone]
    · rw [components_append_slash hfront, components_append_slash hfront]
      simp [Text.split, hnone]
  · exact components_append_slash hp q.text

/-- A piece that counts, pushed on a path, is one more component. -/
theorem components_push (p : Path) {piece : Text} (hs : '/' ∉ piece)
    (hidle : Component.idle piece = false) :
    (p.push piece).components = p.components ++ (Component.ofPiece? piece).toList := by
  have hrelative := isAbsolute_mk_of_notMem hs
  have htoList : (Text.split '/' piece).filterMap Component.ofPiece? =
      (Component.ofPiece? piece).toList := by
    rw [Text.split_of_notMem hs]
    cases ho : Component.ofPiece? piece <;> simp [ho]
  by_cases hp : p.text = []
  · -- The empty path has no component, and the piece is no lead.
    obtain ⟨text⟩ := p
    simp only at hp
    subst hp
    have hlead : (Path.mk piece).leadComponents = [] := by
      have hdot : piece ≠ ['.'] := by
        rintro rfl
        exact absurd hidle (by decide)
      simp [leadComponents, hrelative, Text.split_of_notMem hs, hdot]
    have hempty : (Path.mk []).components = [] := by decide
    rw [push, join, if_neg (by simp [hrelative]), if_pos (by simp), hempty, List.nil_append,
      List.nil_append, components_eq, hlead, htoList]
    rfl
  · rw [push, components_join hp hrelative, htoList]

theorem components_push_name (p : Path) {name : Text} (h : Component.IsName name) :
    (p.push name).components = p.components ++ [.normal name] := by
  rw [components_push p h.one_piece h.idle_eq_false, h.counts]
  rfl

/-! ## Parents -/

/-- An absolute path is one whose first piece is empty, but not its only one. -/
theorem isAbsolute_iff_split {p : Path} :
    p.isAbsolute = true ↔ ∃ piece pieces, p.text.split '/' = [] :: piece :: pieces := by
  obtain ⟨text⟩ := p
  cases text with
  | nil => simp [isAbsolute, Text.split]
  | cons c rest =>
    by_cases hc : c = '/'
    · subst hc
      obtain ⟨piece, pieces, hrest⟩ := List.exists_cons_of_ne_nil (Text.split_ne_nil '/' rest)
      refine ⟨fun _ => ⟨piece, pieces, ?_⟩, fun _ => by simp [isAbsolute]⟩
      rw [Text.split_cons_separator, hrest]
    · obtain ⟨piece, pieces, _, hsplit⟩ := Text.split_cons_of_ne hc rest
      simp [isAbsolute, hc, hsplit]

private theorem head_eq_of_prefix {piece : Text} {pieces body : List Text}
    (h : piece :: pieces <+: body) : body.head? = some piece := by
  obtain ⟨rest, rfl⟩ := h
  rfl

/-- The three ways in which a path text can start. -/
theorem lead_cases (p : Path) :
    (p.isAbsolute = true ∧ p.lead = ['/'] ∧ p.leadComponents = [.root] ∧
        p.text.split '/' = [] :: p.body) ∨
      (p.isAbsolute = false ∧ p.lead = ['.'] ∧ p.leadComponents = [.current] ∧
        ∃ pieces, p.body = [] :: pieces ∧ p.text.split '/' = ['.'] :: pieces) ∨
      (p.isAbsolute = false ∧ p.lead = [] ∧ p.leadComponents = [] ∧
        p.text.split '/' = p.body ∧ p.body.head? ≠ some ['.']) := by
  obtain ⟨text⟩ := p
  by_cases habs : (Path.mk text).isAbsolute = true
  · left
    have hlead : (Path.mk text).lead = ['/'] := by rw [lead, if_pos habs]
    refine ⟨habs, hlead, by rw [leadComponents, if_pos habs], ?_⟩
    obtain ⟨rest, rfl⟩ : ∃ rest, text = '/' :: rest := by
      cases text with
      | nil => exact absurd habs (by decide)
      | cons c rest =>
        have hc : c = '/' := by simpa [isAbsolute] using habs
        exact ⟨rest, hc ▸ rfl⟩
    rw [body, hlead]
    exact Text.split_cons_separator '/' rest
  · right
    have habs' : (Path.mk text).isAbsolute = false := by simpa using habs
    by_cases hdot : (Text.split '/' text).head? = some ['.']
    · left
      have hlead : (Path.mk text).lead = ['.'] := by rw [lead, if_neg habs, if_pos hdot]
      refine ⟨habs', hlead, by rw [leadComponents, if_neg habs, if_pos hdot], ?_⟩
      cases text with
      | nil => exact absurd hdot (by decide)
      | cons c rest =>
        have hc : c ≠ '/' := by
          rintro rfl
          rw [Text.split_cons_separator] at hdot
          exact absurd hdot (by simp)
        obtain ⟨piece, pieces, hrest, hsplit⟩ := Text.split_cons_of_ne hc rest
        rw [hsplit, List.head?_cons, Option.some.injEq, List.cons.injEq] at hdot
        obtain ⟨rfl, rfl⟩ := hdot
        refine ⟨pieces, ?_, hsplit⟩
        rw [body, hlead]
        exact hrest
    · right
      have hlead : (Path.mk text).lead = [] := by rw [lead, if_neg habs, if_neg hdot]
      have hbody : (Path.mk text).body = Text.split '/' text := by
        rw [body, hlead]
        rfl
      refine ⟨habs', hlead, by rw [leadComponents, if_neg habs, if_neg hdot], hbody.symm, ?_⟩
      rw [hbody]
      exact hdot

/-- The components behind the lead are those of the pieces behind it. -/
theorem components_eq_body (p : Path) :
    p.components = p.leadComponents ++ p.body.filterMap Component.ofPiece? := by
  have hnil : Component.ofPiece? [] = none := rfl
  have hdot : Component.ofPiece? ['.'] = none := rfl
  rw [components_eq]
  rcases lead_cases p with ⟨_, _, _, hsplit⟩ | ⟨_, _, _, pieces, hbody, hsplit⟩ |
    ⟨_, _, _, hsplit, _⟩
  · rw [hsplit, List.filterMap_cons_none hnil]
  · rw [hsplit, hbody, List.filterMap_cons_none hnil, List.filterMap_cons_none hdot]
  · rw [hsplit]

/-- Every component behind the lead is a step up or a name. -/
theorem eq_parent_or_isName {p : Path} {step : Component}
    (h : step ∈ (p.text.split '/').filterMap Component.ofPiece?) :
    step = .parent ∨ ∃ name, Component.IsName name ∧ step = .normal name := by
  obtain ⟨piece, hpiece, hstep⟩ := List.mem_filterMap.1 h
  rcases Component.ofPiece?_eq_some hstep with ⟨_, rfl | rfl⟩
  · exact .inl rfl
  · exact .inr ⟨piece, ⟨Text.notMem_of_mem_split hpiece, hstep⟩, rfl⟩

theorem mem_split_of_mem_components {p : Path} {name : Text} (h : .normal name ∈ p.components) :
    name ∈ p.text.split '/' ∧ Component.ofPiece? name = some (.normal name) := by
  rw [components_eq, List.mem_append] at h
  rcases h with h | h
  · rcases lead_cases p with ⟨_, _, hlead, _⟩ | ⟨_, _, hlead, _⟩ | ⟨_, _, hlead, _⟩
    · simp [hlead] at h
    · simp [hlead] at h
    · simp [hlead] at h
  · obtain ⟨piece, hpiece, hstep⟩ := List.mem_filterMap.1 h
    have htext : name = piece := (Component.ofPiece?_eq_some hstep).1
    subst htext
    exact ⟨hpiece, hstep⟩

/-- The names among the components of a path are names. -/
theorem isName_of_mem_components {p : Path} {name : Text} (h : .normal name ∈ p.components) :
    Component.IsName name := by
  obtain ⟨hpiece, hcounts⟩ := mem_split_of_mem_components h
  exact ⟨Text.notMem_of_mem_split hpiece, hcounts⟩

private theorem split_joinWith_filterMap {pieces : List Text}
    (h : ∀ piece ∈ pieces, '/' ∉ piece) :
    (Text.split '/' (Text.joinWith ['/'] pieces)).filterMap Component.ofPiece? =
      pieces.filterMap Component.ofPiece? := by
  by_cases hne : pieces = []
  · subst hne
    rfl
  · rw [Text.split_joinWith hne h]

/-- A path cut after some of its pieces keeps the components of these pieces. -/
theorem components_of_prefix (p : Path) {pieces : List Text} (h : pieces <+: p.body) :
    (Path.mk (p.lead ++ Text.joinWith ['/'] pieces)).components =
      p.leadComponents ++ pieces.filterMap Component.ofPiece? := by
  have hslash : ∀ piece ∈ pieces, '/' ∉ piece := fun piece hpiece =>
    Text.notMem_of_mem_split (h.subset hpiece)
  rcases lead_cases p with ⟨_, hlead, hcomp, _⟩ | ⟨_, hlead, hcomp, more, hbody, _⟩ |
    ⟨habs, hlead, hcomp, hsplit, hdot⟩
  · have hroot : (Path.mk ('/' :: Text.joinWith ['/'] pieces)).leadComponents = [.root] := by
      simp [leadComponents, isAbsolute]
    rw [hlead, hcomp, List.singleton_append, components_eq, hroot, Text.split_cons_separator,
      List.filterMap_cons_none rfl, split_joinWith_filterMap hslash]
  · -- The lead is a dot, so the first piece behind it is empty.
    rw [hlead, hcomp]
    cases pieces with
    | nil => decide
    | cons piece pieces =>
      have hpiece := head_eq_of_prefix h
      rw [hbody, List.head?_cons, Option.some.injEq] at hpiece
      subst hpiece
      cases pieces with
      | nil => decide
      | cons next pieces =>
        have hnext : ∀ piece ∈ next :: pieces, '/' ∉ piece := fun piece hp =>
          hslash piece (List.mem_cons_of_mem _ hp)
        have htext : ['.'] ++ Text.joinWith ['/'] ([] :: next :: pieces) =
            ['.'] ++ '/' :: Text.joinWith ['/'] (next :: pieces) := rfl
        have hcurrent : (Path.mk ['.']).leadComponents = [.current] := by decide
        rw [htext, components_eq, leadComponents_append_slash _ _ (by simp), hcurrent,
          Text.split_append_separator, List.filterMap_append, split_joinWith_filterMap hnext]
        rfl
  · rw [hlead, hcomp, List.nil_append, List.nil_append]
    cases pieces with
    | nil => decide
    | cons piece pieces =>
      have hpiece := head_eq_of_prefix h
      have hsplit' : Text.split '/' (Text.joinWith ['/'] (piece :: pieces)) = piece :: pieces :=
        Text.split_joinWith (by simp) hslash
      have hne : piece ≠ ['.'] := by
        rintro rfl
        exact hdot hpiece
      have hrel : (Path.mk (Text.joinWith ['/'] (piece :: pieces))).isAbsolute = false := by
        rw [Bool.eq_false_iff, ne_eq, isAbsolute_iff_split]
        rintro ⟨next, more, hs⟩
        rw [hsplit', List.cons.injEq] at hs
        obtain ⟨rfl, rfl⟩ := hs
        obtain ⟨rest, hrest⟩ := h
        have habs' : p.isAbsolute = true :=
          isAbsolute_iff_split.2 ⟨next, more ++ rest, hsplit.trans hrest.symm⟩
        exact absurd habs' (by simp [habs])
      have hlead' : (Path.mk (Text.joinWith ['/'] (piece :: pieces))).leadComponents = [] := by
        rw [leadComponents, if_neg (by simp [hrel])]
        simp only [hsplit', List.head?_cons, Option.some.injEq]
        rw [if_neg hne]
      rw [components_eq, hlead', List.nil_append]
      simp only [hsplit']

/-- Dropping pieces that do not count drops no component. -/
theorem dropWhile_idle_split (pieces : List Text) :
    ∃ idles, pieces = idles ++ pieces.dropWhile Component.idle ∧
      idles.reverse.filterMap Component.ofPiece? = [] := by
  refine ⟨pieces.takeWhile Component.idle, (List.takeWhile_append_dropWhile).symm, ?_⟩
  rw [List.filterMap_eq_nil_iff]
  intro piece hpiece
  rw [List.mem_reverse] at hpiece
  exact Component.ofPiece?_of_idle (List.mem_takeWhile_imp hpiece)

/-- The parent of a path has all components but the last. -/
theorem components_of_parent? {p up : Path} (h : p.parent? = some up) :
    ∃ step, p.components = up.components ++ [step] := by
  have hcomponents := components_eq_body p
  obtain ⟨idles, hidles, hnone⟩ := dropWhile_idle_split p.body.reverse
  have hbody : p.body = p.backward.reverse ++ idles.reverse := by
    rw [← List.reverse_reverse p.body, hidles, List.reverse_append]
    rfl
  rw [parent?] at h
  cases hback : p.backward with
  | nil =>
    rw [hback] at h hbody
    simp only [Option.ite_none_right_eq_some, Option.some.injEq] at h
    obtain ⟨hlead, rfl⟩ := h
    have hcurrent : p.leadComponents = [.current] := by
      rcases lead_cases p with ⟨_, hl, _⟩ | ⟨_, _, hc, _⟩ | ⟨_, hl, _⟩
      · rw [hl] at hlead
        exact absurd hlead (by decide)
      · exact hc
      · rw [hl] at hlead
        exact absurd hlead (by decide)
    refine ⟨.current, ?_⟩
    rw [hcomponents, hcurrent, hbody, List.reverse_nil, List.nil_append, hnone]
    decide
  | cons piece before =>
    rw [hback] at h hbody
    simp only [Option.some.injEq] at h
    subst h
    have hpiece : Component.idle piece = false := by
      have hhead := List.head?_dropWhile_not Component.idle p.body.reverse
      rw [show p.body.reverse.dropWhile Component.idle = piece :: before from hback] at hhead
      simpa using hhead
    obtain ⟨step, hstep⟩ : ∃ step, Component.ofPiece? piece = some step := by
      rcases Component.ofPiece?_cases hpiece with ⟨_, ho⟩ | ⟨_, ho⟩
      · exact ⟨_, ho⟩
      · exact ⟨_, ho⟩
    obtain ⟨between, hbetween, hidle⟩ := dropWhile_idle_split before
    have hreverse : before.reverse =
        (before.dropWhile Component.idle).reverse ++ between.reverse := by
      rw [← List.reverse_append, ← hbetween]
    have hprefix : (before.dropWhile Component.idle).reverse <+: p.body := by
      refine ⟨between.reverse ++ [piece] ++ idles.reverse, ?_⟩
      rw [hbody, List.reverse_cons, hreverse]
      simp
    refine ⟨step, ?_⟩
    rw [ofBackward, components_of_prefix p hprefix, hcomponents, hbody, List.filterMap_append,
      hnone, List.append_nil, List.reverse_cons, List.filterMap_append, hreverse,
      List.filterMap_append, hidle]
    simp [hstep]

/-- A path without a parent has nothing behind its lead. -/
theorem components_of_parent?_eq_none {p : Path} (h : p.parent? = none) :
    p.components = p.leadComponents := by
  obtain ⟨idles, hidles, hnone⟩ := dropWhile_idle_split p.body.reverse
  have hback : p.backward = [] := by
    rw [parent?] at h
    cases hback : p.backward with
    | nil => rfl
    | cons piece before =>
      rw [hback] at h
      cases h
  have hbody : p.body = idles.reverse := by
    rw [← List.reverse_reverse p.body, hidles]
    change (idles ++ p.backward).reverse = _
    rw [hback, List.append_nil]
  rw [components_eq_body, hbody, hnone, List.append_nil]

end Path

end StyleBundle
