import StyleBundle.Text.Basic

/-!
# Cutting and joining

A text cut at a separator and the pieces put together again.  The two are inverse to each other
as long as no piece holds the separator, and cutting respects concatenation at a separator.

Turning backslashes into slashes leaves no backslash.  Lengths in bytes are additive.
-/

namespace StyleBundle

namespace Text

/-! ## Pieces -/

theorem split_ne_nil (separator : Char) (t : Text) : split separator t ≠ [] := by
  cases t with
  | nil => simp [split]
  | cons c rest =>
    rw [split]
    split
    · simp
    · split <;> simp

/-- A separator starts a new piece. -/
theorem split_cons_separator (separator : Char) (t : Text) :
    split separator (separator :: t) = [] :: split separator t := by
  rw [split]
  split
  · rename_i h
    exact absurd h (split_ne_nil separator t)
  · rename_i h
    rw [if_pos rfl, h]

/-- Any other character goes to the first piece. -/
theorem split_cons_of_ne {separator c : Char} (hc : c ≠ separator) (t : Text) :
    ∃ piece pieces, split separator t = piece :: pieces ∧
      split separator (c :: t) = (c :: piece) :: pieces := by
  cases h : split separator t with
  | nil => exact absurd h (split_ne_nil separator t)
  | cons piece pieces =>
    refine ⟨piece, pieces, rfl, ?_⟩
    rw [split, h]
    simp [hc]

/-- Cutting a concatenation at a separator cuts both parts. -/
theorem split_append_separator (separator : Char) (s t : Text) :
    split separator (s ++ separator :: t) = split separator s ++ split separator t := by
  induction s with
  | nil => simpa [split] using split_cons_separator separator t
  | cons c s ih =>
    by_cases hc : c = separator
    · subst hc
      rw [List.cons_append, split_cons_separator, ih, split_cons_separator, List.cons_append]
    · obtain ⟨piece, pieces, hs, hcs⟩ := split_cons_of_ne hc s
      obtain ⟨piece', pieces', hst, hcst⟩ := split_cons_of_ne hc (s ++ separator :: t)
      rw [ih, hs, List.cons_append] at hst
      obtain ⟨rfl, rfl⟩ := List.cons.inj hst
      rw [List.cons_append, hcst, hcs, List.cons_append]

/-- A text without the separator is one piece. -/
theorem split_of_notMem {separator : Char} {t : Text} (h : separator ∉ t) :
    split separator t = [t] := by
  induction t with
  | nil => rfl
  | cons c t ih =>
    have hc : c ≠ separator := fun hc => h (hc ▸ List.mem_cons_self)
    have ht : split separator t = [t] := ih fun hm => h (List.mem_cons_of_mem c hm)
    obtain ⟨piece, pieces, hs, hcs⟩ := split_cons_of_ne hc t
    rw [ht] at hs
    obtain ⟨rfl, rfl⟩ := List.cons.inj hs
    exact hcs

/-- A front without the separator goes to the first piece. -/
theorem split_append_of_notMem {separator : Char} {front t piece : Text} {pieces : List Text}
    (hfront : separator ∉ front) (h : split separator t = piece :: pieces) :
    split separator (front ++ t) = (front ++ piece) :: pieces := by
  induction front with
  | nil => exact h
  | cons c front ih =>
    rw [List.mem_cons, not_or] at hfront
    obtain ⟨_, _, hrest, hsplit⟩ := split_cons_of_ne (Ne.symm hfront.1) (front ++ t)
    rw [ih hfront.2, List.cons.injEq] at hrest
    rw [List.cons_append, hsplit, ← hrest.1, ← hrest.2]
    rfl

/-- No piece holds the separator. -/
theorem notMem_of_mem_split {separator : Char} {t piece : Text}
    (h : piece ∈ split separator t) : separator ∉ piece := by
  induction t generalizing piece with
  | nil =>
    rw [split, List.mem_singleton] at h
    simp [h]
  | cons c t ih =>
    by_cases hc : c = separator
    · rw [hc, split_cons_separator, List.mem_cons] at h
      rcases h with rfl | h
      · simp
      · exact ih h
    · obtain ⟨first, pieces, hs, hcs⟩ := split_cons_of_ne hc t
      rw [hs] at ih
      rw [hcs, List.mem_cons] at h
      rcases h with rfl | h
      · rw [List.mem_cons]
        rintro (rfl | hm)
        · exact hc rfl
        · exact ih List.mem_cons_self hm
      · exact ih (List.mem_cons_of_mem _ h)

/-! ## Joining -/

theorem joinWith_cons_cons (separator piece next : Text) (pieces : List Text) :
    joinWith separator (piece :: next :: pieces) =
      piece ++ separator ++ joinWith separator (next :: pieces) := rfl

/-- Cutting takes back the joining of pieces that do not hold the separator. -/
theorem split_joinWith {separator : Char} {pieces : List Text} (hne : pieces ≠ [])
    (h : ∀ piece ∈ pieces, separator ∉ piece) :
    split separator (joinWith [separator] pieces) = pieces := by
  induction pieces with
  | nil => exact absurd rfl hne
  | cons piece pieces ih =>
    have hpiece : split separator piece = [piece] := split_of_notMem (h piece List.mem_cons_self)
    cases pieces with
    | nil => exact hpiece
    | cons next pieces =>
      rw [joinWith_cons_cons, List.append_assoc, List.singleton_append, split_append_separator,
        hpiece, ih (by simp) fun p hp => h p (List.mem_cons_of_mem piece hp)]
      rfl

/-! ## Backslashes -/

theorem slashed_of_notMem {t : Text} (h : '\\' ∉ t) : t.slashed = t := by
  rw [slashed, List.map_congr_left, List.map_id]
  intro c hc
  rw [if_neg]
  · rfl
  · rintro rfl
    exact h hc

theorem slashed_eq_self_iff {t : Text} : t.slashed = t ↔ '\\' ∉ t := by
  refine ⟨fun h hmem => ?_, slashed_of_notMem⟩
  rw [← h, slashed, List.mem_map] at hmem
  obtain ⟨c, -, hc⟩ := hmem
  split at hc
  · cases hc
  · contradiction

/-! ## Bytes -/

@[simp] theorem byteLength_nil : byteLength [] = 0 := rfl

@[simp] theorem byteLength_cons (c : Char) (t : Text) :
    byteLength (c :: t) = c.utf8Size + byteLength t := rfl

@[simp] theorem byteLength_append (s t : Text) :
    byteLength (s ++ t) = byteLength s + byteLength t := by
  induction s with
  | nil => simp
  | cons c s ih =>
    rw [List.cons_append, byteLength_cons, byteLength_cons, ih]
    omega

theorem length_le_byteLength (t : Text) : t.length ≤ t.byteLength := by
  induction t with
  | nil => exact Nat.le_refl 0
  | cons c t ih =>
    have hsize := Char.utf8Size_pos c
    rw [List.length_cons, byteLength_cons]
    omega

theorem byteLength_eq_zero {t : Text} : byteLength t = 0 ↔ t = [] := by
  cases t with
  | nil => simp
  | cons c t =>
    have hsize := Char.utf8Size_pos c
    simp only [byteLength_cons, reduceCtorEq, iff_false]
    omega

theorem byteLength_pos {t : Text} (h : t ≠ []) : 0 < byteLength t :=
  Nat.pos_of_ne_zero fun hzero => h (byteLength_eq_zero.1 hzero)

/-- Two fronts of one text with equally many bytes are the same. -/
theorem append_inj_of_byteLength {front front' back back' : Text}
    (h : front ++ back = front' ++ back') (hbytes : byteLength front = byteLength front') :
    front = front' ∧ back = back' := by
  rcases List.append_eq_append_iff.1 h with ⟨more, rfl, rfl⟩ | ⟨more, rfl, rfl⟩
  all_goals
    have hmore : more = [] := byteLength_eq_zero.1 (by rw [byteLength_append] at hbytes; omega)
    simp [hmore]

end Text

end StyleBundle
