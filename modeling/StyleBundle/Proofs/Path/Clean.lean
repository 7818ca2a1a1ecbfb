import Mathlib.Data.List.Basic
import StyleBundle.Proofs.Path.Normal

/-!
# The text of a normal path

The clean text of a normal list of components is its pieces with single slashes between them
(`Path.Spelled`, `Path.spelled_normalize`).

Normalizing a path keeps it absolute or relative (`Path.isAbsolute_normalize`), brings no new
character into its text but slashes and dots (`Path.mem_text_normalize`), and makes it no longer
(`Path.byteLength_normalize_le`).
-/

namespace StyleBundle

/-! ## Bytes of pieces -/

namespace Text

/-- Every piece costs one byte more than it has, for the separator that ends it. -/
def cost : List Text → Nat
  | [] => 0
  | piece :: pieces => piece.byteLength + 1 + cost pieces

@[simp] theorem cost_nil : cost [] = 0 := rfl

@[simp] theorem cost_cons (piece : Text) (pieces : List Text) :
    cost (piece :: pieces) = piece.byteLength + 1 + cost pieces := rfl

theorem cost_append (front back : List Text) : cost (front ++ back) = cost front + cost back := by
  induction front with
  | nil => simp
  | cons piece front ih =>
    rw [List.cons_append, cost_cons, cost_cons, ih]
    omega

theorem cost_reverse (pieces : List Text) : cost pieces.reverse = cost pieces := by
  induction pieces with
  | nil => rfl
  | cons piece pieces ih =>
    rw [List.reverse_cons, cost_append, ih, cost_cons, cost_cons, cost_nil]
    omega

theorem cost_split (t : Text) : cost (t.split '/') = t.byteLength + 1 := by
  have hslash : ('/' : Char).utf8Size = 1 := by decide
  induction t with
  | nil => simp [split]
  | cons c t ih =>
    by_cases hc : c = '/'
    · subst hc
      rw [split_cons_separator, cost_cons, ih, byteLength_nil, byteLength_cons, hslash]
      omega
    · obtain ⟨piece, pieces, ht, hct⟩ := split_cons_of_ne hc t
      rw [ht, cost_cons] at ih
      rw [hct, cost_cons, byteLength_cons, byteLength_cons]
      omega

/-- The characters of the pieces are those of the text. -/
theorem mem_of_mem_split {t piece : Text} {c : Char} (hpiece : piece ∈ t.split '/')
    (hc : c ∈ piece) : c ∈ t := by
  induction t generalizing piece with
  | nil =>
    rw [split, List.mem_singleton] at hpiece
    rw [hpiece] at hc
    exact hc
  | cons a t ih =>
    by_cases ha : a = '/'
    · rw [ha, split_cons_separator, List.mem_cons] at hpiece
      rcases hpiece with rfl | hpiece
      · cases hc
      · exact List.mem_cons_of_mem a (ih hpiece hc)
    · obtain ⟨first, pieces, ht, hat⟩ := split_cons_of_ne ha t
      rw [ht] at ih
      rw [hat, List.mem_cons] at hpiece
      rcases hpiece with rfl | hpiece
      · rcases List.mem_cons.1 hc with rfl | hc
        · exact List.mem_cons_self
        · exact List.mem_cons_of_mem a (ih List.mem_cons_self hc)
      · exact List.mem_cons_of_mem a (ih (List.mem_cons_of_mem _ hpiece) hc)

theorem exists_mem_split {separator c : Char} {t : Text} (h : c ∈ t) (hc : c ≠ separator) :
    ∃ piece ∈ t.split separator, c ∈ piece := by
  induction t with
  | nil => cases h
  | cons a t ih =>
    by_cases ha : a = separator
    · obtain ⟨piece, hpiece, hmem⟩ := ih ((List.mem_cons.1 h).resolve_left (ha ▸ hc))
      rw [ha, split_cons_separator]
      exact ⟨piece, List.mem_cons_of_mem _ hpiece, hmem⟩
    · obtain ⟨first, pieces, ht, hat⟩ := split_cons_of_ne ha t
      rw [hat]
      rcases List.mem_cons.1 h with rfl | h
      · exact ⟨_, List.mem_cons_self, List.mem_cons_self⟩
      · obtain ⟨piece, hpiece, hmem⟩ := ih h
        rw [ht] at hpiece
        rcases List.mem_cons.1 hpiece with rfl | hpiece
        · exact ⟨_, List.mem_cons_self, List.mem_cons_of_mem _ hmem⟩
        · exact ⟨piece, List.mem_cons_of_mem _ hpiece, hmem⟩

/-- Pieces with a slash in front of each. -/
def slashedPieces (pieces : List Text) : Text :=
  pieces.flatMap fun piece => '/' :: piece

theorem slashedPieces_cons (piece : Text) (pieces : List Text) :
    slashedPieces (piece :: pieces) = '/' :: piece ++ slashedPieces pieces := rfl

theorem split_append_slashedPieces (t : Text) {pieces : List Text}
    (h : ∀ piece ∈ pieces, '/' ∉ piece) :
    split '/' (t ++ slashedPieces pieces) = split '/' t ++ pieces := by
  induction pieces generalizing t with
  | nil => simp [slashedPieces]
  | cons piece pieces ih =>
    have hpiece := split_of_notMem (h piece List.mem_cons_self)
    have hshift : t ++ slashedPieces (piece :: pieces) =
        (t ++ '/' :: piece) ++ slashedPieces pieces := by
      rw [slashedPieces_cons, List.append_assoc]
    rw [hshift, ih _ fun p hp => h p (List.mem_cons_of_mem piece hp), split_append_separator,
      hpiece, List.append_assoc, List.singleton_append]

theorem byteLength_slashedPieces (pieces : List Text) :
    (slashedPieces pieces).byteLength = cost pieces := by
  have hslash : ('/' : Char).utf8Size = 1 := by decide
  induction pieces with
  | nil => rfl
  | cons piece pieces ih =>
    rw [slashedPieces_cons, byteLength_append, byteLength_cons, ih, cost_cons, hslash]
    omega

end Text

namespace Path

/-! ## Pushing pieces one after the other -/

private theorem push_of_getLast?_ne {text piece : Text} (hne : text ≠ [])
    (hlast : text.getLast? ≠ some '/') (hs : '/' ∉ piece) :
    (Path.mk text).push piece = ⟨text ++ '/' :: piece⟩ := by
  rw [push, join, if_neg (by simp [isAbsolute_mk_of_notMem hs]), if_neg (by simp [hne, hlast])]

private theorem getLast?_append_ne_slash (front : Text) {piece : Text} (hne : piece ≠ [])
    (hs : '/' ∉ piece) : (front ++ piece).getLast? ≠ some '/' := by
  intro hlast
  rw [List.getLast?_append_of_ne_nil _ hne] at hlast
  exact hs (List.mem_of_getLast? hlast)

theorem foldl_push {pieces : List Text} (h : ∀ piece ∈ pieces, '/' ∉ piece ∧ piece ≠ []) :
    ∀ text : Text, text ≠ [] → text.getLast? ≠ some '/' →
      pieces.foldl push ⟨text⟩ = ⟨text ++ Text.slashedPieces pieces⟩ := by
  induction pieces with
  | nil =>
    intro text _ _
    simp [Text.slashedPieces]
  | cons piece pieces ih =>
    intro text hne hlast
    obtain ⟨hs, hpiece⟩ := h piece List.mem_cons_self
    have hend : (text ++ '/' :: piece).getLast? ≠ some '/' := by
      rw [← List.singleton_append, ← List.append_assoc]
      exact getLast?_append_ne_slash _ hpiece hs
    rw [List.foldl_cons, push_of_getLast?_ne hne hlast hs,
      ih (fun p hp => h p (List.mem_cons_of_mem piece hp)) _ (by simp) hend,
      Text.slashedPieces_cons]
    simp

theorem ofComponents_eq_foldl (steps : List Component) :
    ofComponents steps = (steps.map Component.text).foldl push empty := by
  rw [ofComponents, List.foldl_map]

private theorem empty_push {piece : Text} : empty.push piece = ⟨piece⟩ := by
  rw [push, join]
  split_ifs with habs hend
  · rfl
  · rfl
  · simp [empty] at hend

private theorem root_push {piece : Text} (h : '/' ∉ piece) :
    (Path.mk ['/']).push piece = ⟨'/' :: piece⟩ := by
  rw [push, join, if_neg (by simp [isAbsolute_mk_of_notMem h])]
  rfl

/-- The text of names from the root. -/
theorem ofComponents_absolute {name : Text} {names : List Text}
    (h : ∀ n ∈ name :: names, Component.IsName n) :
    ofComponents (.root :: (name :: names).map .normal) =
      ⟨Text.slashedPieces (name :: names)⟩ := by
  have hname := h name List.mem_cons_self
  have hnames : ∀ n ∈ names, '/' ∉ n ∧ n ≠ [] := by
    intro n hn
    have hn' := h n (List.mem_cons_of_mem name hn)
    exact ⟨hn'.one_piece, hn'.ne_nil⟩
  have hroot : empty.push ['/'] = ⟨['/']⟩ := by decide
  have htext : (.root :: (name :: names).map Component.normal).map Component.text =
      ['/'] :: name :: names := by
    simp [Component.text, Function.comp_def]
  have hlast : ('/' :: name).getLast? ≠ some '/' :=
    getLast?_append_ne_slash ['/'] hname.ne_nil hname.one_piece
  rw [ofComponents_eq_foldl, htext, List.foldl_cons, hroot, List.foldl_cons,
    root_push hname.one_piece, foldl_push hnames _ (by simp) hlast]
  rfl

/-- The text of steps up and names. -/
theorem ofComponents_relative {step : Component} {steps : List Component}
    (h : ∀ s ∈ step :: steps, '/' ∉ s.text ∧ s.text ≠ []) :
    ofComponents (step :: steps) =
      ⟨step.text ++ Text.slashedPieces (steps.map Component.text)⟩ := by
  obtain ⟨hs, hne⟩ := h step List.mem_cons_self
  have hsteps : ∀ piece ∈ steps.map Component.text, '/' ∉ piece ∧ piece ≠ [] := by
    intro piece hpiece
    obtain ⟨s, hmem, rfl⟩ := List.mem_map.1 hpiece
    exact h s (List.mem_cons_of_mem step hmem)
  rw [ofComponents_eq_foldl, List.map_cons, List.foldl_cons, empty_push,
    foldl_push hsteps _ hne (getLast?_append_ne_slash [] hne hs)]

/-! ## Folding -/

/-- Every folded step is one of the steps. -/
private theorem mem_of_mem_foldl_foldStep (steps : List Component) :
    ∀ (stack : List Component) (s : Component), s ∈ steps.foldl foldStep stack →
      s ∈ stack ∨ s ∈ steps := by
  induction steps with
  | nil => exact fun stack s h => .inl h
  | cons step steps ih =>
    intro stack s h
    rcases ih _ s h with hstack | hsteps
    · have hfold : s ∈ foldStep stack step → s ∈ stack ∨ s = step := by
        intro hs
        cases step with
        | current => exact .inl hs
        | root => exact (List.mem_cons.1 hs).symm
        | normal name => exact (List.mem_cons.1 hs).symm
        | parent =>
          rcases foldStep_parent_cases stack with ⟨name, hname⟩ | ⟨_, _, hroot⟩ | hup
          · rw [hname]
            exact .inl (List.mem_cons_of_mem _ hs)
          · rw [hroot] at hs
            exact .inl hs
          · rw [hup] at hs
            exact (List.mem_cons.1 hs).symm
      rcases hfold hstack with hs | rfl
      · exact .inl hs
      · exact .inr List.mem_cons_self
    · exact .inr (List.mem_cons_of_mem step hsteps)

theorem mem_of_mem_foldComponents {steps : List Component} {s : Component}
    (h : s ∈ foldComponents steps) : s ∈ steps := by
  rw [foldComponents, List.mem_reverse] at h
  exact (mem_of_mem_foldl_foldStep steps [] s h).resolve_left (by simp)

/-- Folding makes no list costlier. -/
private theorem cost_foldl_foldStep (steps : List Component) :
    ∀ stack : List Component,
      Text.cost ((steps.foldl foldStep stack).map Component.text) ≤
        Text.cost (stack.map Component.text) + Text.cost (steps.map Component.text) := by
  induction steps with
  | nil => intro stack; simp
  | cons step steps ih =>
    intro stack
    have hstep : Text.cost ((foldStep stack step).map Component.text) ≤
        Text.cost (stack.map Component.text) + (step.text.byteLength + 1) := by
      cases step with
      | current => exact Nat.le_add_right _ _
      | root => simp [foldStep, Nat.add_comm]
      | normal name => simp [foldStep, Nat.add_comm]
      | parent =>
        rcases foldStep_parent_cases stack with ⟨name, hname⟩ | ⟨_, _, hroot⟩ | hup
        · have hcost := congrArg (fun s => Text.cost (s.map Component.text)) hname
          simp only [List.map_cons, Text.cost_cons] at hcost
          omega
        · rw [hroot]
          exact Nat.le_add_right _ _
        · simp [hup, Nat.add_comm]
    have hrest := ih (foldStep stack step)
    rw [List.foldl_cons, List.map_cons, Text.cost_cons]
    omega

theorem cost_foldComponents_le (steps : List Component) :
    Text.cost ((foldComponents steps).map Component.text) ≤
      Text.cost (steps.map Component.text) := by
  have h := cost_foldl_foldStep steps []
  rw [foldComponents, List.map_reverse, Text.cost_reverse]
  simpa using h

/-! ## Absolute and relative -/

/-- A path is absolute when its first component is the root. -/
theorem isAbsolute_iff_mem {p : Path} : p.isAbsolute = true ↔ .root ∈ p.components := by
  have hlater : Component.root ∉ (p.text.split '/').filterMap Component.ofPiece? := by
    intro h
    rcases eq_parent_or_isName h with hparent | ⟨_, _, hname⟩
    · cases hparent
    · cases hname
  rw [components_eq, List.mem_append]
  rcases lead_cases p with ⟨habs, _, hlead, _⟩ | ⟨habs, _, hlead, _⟩ | ⟨habs, _, hlead, _⟩
  · simp [habs, hlead]
  · simp [habs, hlead, hlater]
  · simp [habs, hlead, hlater]

/-- The root stays at the bottom of the stack. -/
private theorem root_mem_foldl_foldStep (steps : List Component) :
    ∀ stack : List Component, .root ∈ stack → .root ∈ steps.foldl foldStep stack := by
  induction steps with
  | nil => exact fun stack h => h
  | cons step steps ih =>
    intro stack h
    apply ih
    cases step with
    | current => exact h
    | root => exact List.mem_cons_self
    | normal name => exact List.mem_cons_of_mem _ h
    | parent =>
      rcases foldStep_parent_cases stack with ⟨name, hname⟩ | ⟨_, _, hroot⟩ | hup
      · rw [hname, List.mem_cons] at h
        exact h.resolve_left (by simp)
      · rw [hroot]
        exact h
      · rw [hup]
        exact List.mem_cons_of_mem _ h

theorem isAbsolute_normalize (p : Path) : p.normalize.isAbsolute = p.isAbsolute := by
  rw [Bool.eq_iff_iff, isAbsolute_iff_mem, components_normalize]
  constructor
  · intro h
    exact isAbsolute_iff_mem.2 (mem_of_mem_foldComponents h)
  · intro h
    rw [foldComponents, List.mem_reverse]
    rcases lead_cases p with ⟨_, _, hlead, _⟩ | ⟨habs, _⟩ | ⟨habs, _⟩
    · rw [components_eq, hlead, List.singleton_append, List.foldl_cons]
      exact root_mem_foldl_foldStep _ _ List.mem_cons_self
    · rw [h] at habs
      cases habs
    · rw [h] at habs
      cases habs

/-! ## Normalizing a text -/

/-- How normal lists of components are spelled. -/
inductive Spelled : List Component → Text → Prop
  /-- The root is a slash. -/
  | root : Spelled [.root] ['/']
  /-- Names from the root have a slash in front of each. -/
  | absolute (name : Text) (names : List Text) (h : ∀ n ∈ name :: names, Component.IsName n) :
    Spelled (.root :: (name :: names).map .normal) (Text.slashedPieces (name :: names))
  /-- No component is no text. -/
  | empty : Spelled [] []
  /-- Steps up and names have a slash in front of each but the first. -/
  | relative (step : Component) (steps : List Component)
    (h : ∀ s ∈ step :: steps, s = .parent ∨ ∃ n, Component.IsName n ∧ s = .normal n) :
    Spelled (step :: steps) (step.text ++ Text.slashedPieces (steps.map Component.text))

theorem NormalSteps.spelled {steps : List Component} (h : NormalSteps steps) :
    Spelled steps (ofComponents steps).text := by
  cases h with
  | absolute names hnames =>
    cases names with
    | nil => exact .root
    | cons name names =>
      rw [ofComponents_absolute hnames]
      exact .absolute name names hnames
  | relative ups names hnames =>
    have hlater : ∀ s ∈ List.replicate ups Component.parent ++ names.map .normal,
        s = .parent ∨ ∃ n, Component.IsName n ∧ s = .normal n := by
      intro s hs
      rcases List.mem_append.1 hs with hs | hs
      · exact .inl (List.eq_of_mem_replicate hs)
      · obtain ⟨n, hn, rfl⟩ := List.mem_map.1 hs
        exact .inr ⟨n, hnames n hn, rfl⟩
    generalize List.replicate ups Component.parent ++ names.map .normal = steps at hlater
    cases steps with
    | nil => exact .empty
    | cons step steps =>
      have hpieces : ∀ s ∈ step :: steps, '/' ∉ s.text ∧ s.text ≠ [] := by
        intro s hs
        obtain ⟨hslash, hne, _⟩ := Component.piece_of_step (hlater s hs)
        exact ⟨hslash, hne⟩
      rw [ofComponents_relative hpieces]
      exact .relative step steps hlater

theorem spelled_normalize (p : Path) : Spelled p.normalize.components p.normalize.text := by
  rw [components_normalize]
  exact (normalSteps_foldComponents p).spelled

private theorem cost_filterMap_ofPiece? (pieces : List Text) :
    Text.cost ((pieces.filterMap Component.ofPiece?).map Component.text) ≤ Text.cost pieces := by
  induction pieces with
  | nil => exact Nat.le_refl _
  | cons piece pieces ih =>
    cases hstep : Component.ofPiece? piece with
    | none =>
      rw [List.filterMap_cons_none hstep, Text.cost_cons]
      omega
    | some step =>
      rw [List.filterMap_cons_some hstep, List.map_cons, Text.cost_cons, Text.cost_cons,
        (Component.ofPiece?_eq_some hstep).1]
      omega

/-- What the components of a path cost.  The root costs one byte more than the slash it is. -/
theorem cost_components_le (p : Path) :
    Text.cost (p.components.map Component.text) ≤
      p.text.byteLength + if p.isAbsolute then 2 else 1 := by
  have hsplit := Text.cost_split p.text
  have hbody := cost_filterMap_ofPiece? p.body
  have hdot : Text.byteLength ['.'] = 1 := by decide
  have hslash : Text.byteLength ['/'] = 1 := by decide
  rw [components_eq_body, List.map_append]
  rcases lead_cases p with ⟨habs, _, hlead, hs⟩ | ⟨habs, _, hlead, pieces, hb, hs⟩ |
    ⟨habs, _, hlead, hs, _⟩
  · rw [hs, Text.cost_cons, Text.byteLength_nil] at hsplit
    simp only [habs, hlead, List.map_cons, List.map_nil, List.singleton_append, Text.cost_cons,
      Component.text, hslash, if_true]
    omega
  · rw [hs, Text.cost_cons, hdot] at hsplit
    rw [hb, Text.cost_cons, Text.byteLength_nil] at hbody
    have hpieces := cost_filterMap_ofPiece? pieces
    simp only [habs, hlead, hb, List.map_cons, List.map_nil, List.singleton_append,
      Text.cost_cons,
      Component.text, hdot, List.filterMap_cons_none (show Component.ofPiece? [] = none from rfl)]
    simp only [Bool.false_eq_true, if_false]
    omega
  · rw [hs] at hsplit
    simp only [habs, hlead, List.map_nil, List.nil_append, Bool.false_eq_true, if_false]
    omega

/-- Normalizing makes no text longer. -/
theorem byteLength_normalize_le (p : Path) :
    p.normalize.text.byteLength ≤ p.text.byteLength := by
  have hfold := cost_foldComponents_le p.components
  have hcost := cost_components_le p
  have habsolute := isAbsolute_iff_mem (p := p.normalize)
  have hspelled := spelled_normalize p
  have hslash : Text.byteLength ['/'] = 1 := by decide
  rw [isAbsolute_normalize] at habsolute
  rw [← components_normalize] at hfold
  generalize p.normalize.components = steps at hfold habsolute hspelled
  generalize p.normalize.text = text at hspelled
  cases hspelled with
  | root =>
    -- The text is a slash, and an absolute path has at least that.
    obtain ⟨piece, pieces, hsplit⟩ := isAbsolute_iff_split.1 (habsolute.2 List.mem_cons_self)
    have hlength := Text.cost_split p.text
    rw [hsplit, Text.cost_cons, Text.cost_cons] at hlength
    omega
  | absolute name names h =>
    rw [habsolute.2 List.mem_cons_self, if_pos rfl] at hcost
    rw [List.map_cons, Text.cost_cons, Component.text, hslash, List.map_map] at hfold
    rw [Text.byteLength_slashedPieces]
    have hnames : (name :: names).map (Component.text ∘ Component.normal) = name :: names := by
      simp [Function.comp_def, Component.text]
    rw [hnames] at hfold
    omega
  | empty => exact Nat.zero_le _
  | relative step steps h =>
    have habs : p.isAbsolute = false := by
      rw [Bool.eq_false_iff, ne_eq, habsolute]
      intro hroot
      rcases h _ hroot with h | ⟨_, _, h⟩
      · cases h
      · cases h
    rw [habs] at hcost
    rw [List.map_cons, Text.cost_cons] at hfold
    rw [Text.byteLength_append, Text.byteLength_slashedPieces]
    simp only [Bool.false_eq_true, if_false] at hcost
    omega

/-- The characters of a component are those of the path, or dots and slashes. -/
private theorem mem_text_of_mem_components {p : Path} {step : Component} {c : Char}
    (hstep : step ∈ p.components) (hc : c ∈ step.text) : c = '/' ∨ c = '.' ∨ c ∈ p.text := by
  cases step with
  | root =>
    left
    simpa [Component.text] using hc
  | current =>
    right; left
    simpa [Component.text] using hc
  | parent =>
    right; left
    simpa [Component.text] using hc
  | normal name =>
    right; right
    exact Text.mem_of_mem_split (mem_split_of_mem_components hstep).1 hc

/-- A path with the same components brings no new characters but slashes and dots. -/
theorem mem_text_of_components_eq {p q : Path} (h : p.components = q.components) {c : Char}
    (hc : c ∈ p.text) (hslash : c ≠ '/') (hdot : c ≠ '.') : c ∈ q.text := by
  obtain ⟨piece, hpiece, hmem⟩ := Text.exists_mem_split hc hslash
  have hdots : ∀ n, piece ≠ List.replicate n '.' := by
    rintro n rfl
    exact hdot (List.eq_of_mem_replicate hmem)
  have hidle : Component.idle piece = false := by
    simpa [Component.idle] using And.intro (hdots 0) (hdots 1)
  have hname := ((Component.ofPiece?_cases hidle).resolve_left fun hup => hdots 2 hup.1).2
  have hstep : .normal piece ∈ q.components := by
    rw [← h, components_eq]
    exact List.mem_append_right _ (List.mem_filterMap.2 ⟨piece, hpiece, hname⟩)
  exact Text.mem_of_mem_split (mem_split_of_mem_components hstep).1 hmem

/-- Normalizing brings no new characters into a text but slashes and dots. -/
theorem mem_text_normalize {p : Path} {c : Char} (h : c ∈ p.normalize.text) :
    c = '/' ∨ c = '.' ∨ c ∈ p.text := by
  have hsteps : ∀ step ∈ p.normalize.components, c ∈ step.text →
      c = '/' ∨ c = '.' ∨ c ∈ p.text := by
    intro step hstep hc
    rw [components_normalize] at hstep
    exact mem_text_of_mem_components (mem_of_mem_foldComponents hstep) hc
  have hslashed : ∀ pieces : List Text, c ∈ Text.slashedPieces pieces →
      c = '/' ∨ ∃ piece ∈ pieces, c ∈ piece := by
    intro pieces hc
    obtain ⟨piece, hpiece, hc⟩ := List.mem_flatMap.1 hc
    rcases List.mem_cons.1 hc with hc | hc
    · exact .inl hc
    · exact .inr ⟨piece, hpiece, hc⟩
  have hspelled := spelled_normalize p
  generalize p.normalize.components = steps at hsteps hspelled
  generalize p.normalize.text = text at h hspelled
  cases hspelled with
  | root => exact .inl (List.mem_singleton.1 h)
  | absolute name names _ =>
    rcases hslashed _ h with hc | ⟨piece, hpiece, hc⟩
    · exact .inl hc
    · exact hsteps (.normal piece)
        (List.mem_cons_of_mem _ (List.mem_map.2 ⟨piece, hpiece, rfl⟩)) hc
  | empty => cases h
  | relative step steps _ =>
    rcases List.mem_append.1 h with hc | hc
    · exact hsteps step List.mem_cons_self hc
    · rcases hslashed _ hc with hc | ⟨piece, hpiece, hc⟩
      · exact .inl hc
      · obtain ⟨s, hs, rfl⟩ := List.mem_map.1 hpiece
        exact hsteps s (List.mem_cons_of_mem step hs) hc

end Path

end StyleBundle
