import StyleBundle.Proofs.Path.Components

/-!
# First occurrences of paths

`Path.dedup` goes through a list from the left and keeps each path that is not the same as one
kept before (`Path.keep`).

* It keeps a path for every path of the list (`Path.isIn_dedup`), and no two that are the same
  (`Path.pairwise_dedup`).
* Two lists agree for `Path.dedup` when they have the same effect on whatever was kept before
  (`Path.KeepsAlike`).  A list agrees with its first occurrences (`Path.keepsAlike_dedup`), so it
  does not matter whether a part of a list was cut down before.
-/

namespace StyleBundle

private theorem eraseDupsBy_loop {α : Type} (same : α → α → Bool) (items : List α) :
    ∀ kept : List α,
    List.eraseDupsBy.loop same items kept =
      (items.foldl (fun kept item => if kept.any (same item) then kept else item :: kept)
        kept).reverse := by
  induction items with
  | nil => intro kept; rfl
  | cons item items ih =>
    intro kept
    rw [List.eraseDupsBy.loop, List.foldl_cons]
    cases hitem : kept.any (same item) with
    | true => exact ih kept
    | false => exact ih (item :: kept)

theorem firstOccurrences_eq_eraseDupsBy {α : Type} (same : α → α → Bool) (items : List α) :
    firstOccurrences same items = items.eraseDupsBy same :=
  (eraseDupsBy_loop same items []).symm

namespace Path

/-- Keeps one more path, unless a path that is the same is there.  The latest comes first. -/
def keep (kept : List Path) (p : Path) : List Path :=
  if p.isIn kept then kept else p :: kept

theorem dedup_eq_foldl (paths : List Path) : dedup paths = (paths.foldl keep []).reverse := rfl

theorem keep_of_isIn {kept : List Path} {p : Path} (h : p.isIn kept = true) :
    keep kept p = kept := by
  rw [keep, if_pos h]

theorem keep_of_not_isIn {kept : List Path} {p : Path} (h : p.isIn kept = false) :
    keep kept p = p :: kept := by
  rw [keep, if_neg (by simp [h])]

theorem dedup_eq_eraseDupsBy (paths : List Path) : dedup paths = paths.eraseDupsBy same :=
  firstOccurrences_eq_eraseDupsBy same paths

/-! ## What is kept -/

theorem isIn_of_mem {p : Path} {paths : List Path} (h : p ∈ paths) : p.isIn paths = true :=
  isIn_iff.2 ⟨p, h, rfl⟩

theorem isIn_cons {p q : Path} {paths : List Path} :
    p.isIn (q :: paths) = true ↔ p.components = q.components ∨ p.isIn paths = true := by
  rw [isIn, isIn, List.any_cons, Bool.or_eq_true, same_iff]

theorem isIn_reverse {p : Path} {paths : List Path} : p.isIn paths.reverse = p.isIn paths := by
  rw [isIn, isIn, List.any_reverse]

/-- A path is found again after more paths were kept, and each of these is found as well. -/
theorem isIn_foldl_keep {p : Path} {paths kept : List Path} :
    p.isIn (paths.foldl keep kept) = true ↔ p.isIn kept = true ∨ p.isIn paths = true := by
  induction paths generalizing kept with
  | nil => simp [isIn]
  | cons q paths ih =>
    rw [List.foldl_cons, ih, isIn_cons]
    cases hq : q.isIn kept with
    | false =>
      rw [keep_of_not_isIn hq, isIn_cons, or_assoc]
      exact or_left_comm
    | true =>
      rw [keep_of_isIn hq]
      -- What is the same as `q` was there before.
      have hsame : p.components = q.components → p.isIn kept = true := by
        intro hpq
        obtain ⟨r, hr, hqr⟩ := isIn_iff.1 hq
        exact isIn_iff.2 ⟨r, hr, hpq.trans hqr⟩
      constructor
      · rintro (h | h)
        · exact .inl h
        · exact .inr (.inr h)
      · rintro (h | h | h)
        · exact .inl h
        · exact .inl (hsame h)
        · exact .inr h

theorem isIn_dedup {p : Path} {paths : List Path} :
    p.isIn (dedup paths) = true ↔ p.isIn paths = true := by
  rw [dedup_eq_foldl, isIn_reverse, isIn_foldl_keep]
  simp [isIn]

private theorem mem_of_mem_foldl_keep {p : Path} {paths kept : List Path}
    (h : p ∈ paths.foldl keep kept) : p ∈ kept ∨ p ∈ paths := by
  induction paths generalizing kept with
  | nil => exact .inl h
  | cons q paths ih =>
    rcases ih h with hkept | hpaths
    · cases hq : q.isIn kept with
      | true =>
        rw [keep_of_isIn hq] at hkept
        exact .inl hkept
      | false =>
        rw [keep_of_not_isIn hq] at hkept
        rcases List.mem_cons.1 hkept with rfl | hkept
        · exact .inr List.mem_cons_self
        · exact .inl hkept
    · exact .inr (List.mem_cons_of_mem q hpaths)

theorem mem_of_mem_dedup {p : Path} {paths : List Path} (h : p ∈ dedup paths) : p ∈ paths := by
  rw [dedup_eq_foldl, List.mem_reverse] at h
  exact (mem_of_mem_foldl_keep h).resolve_left (by simp)

/-! ## No two are the same -/

private theorem same_eq_false_of_not_isIn {p q : Path} {kept : List Path}
    (h : p.isIn kept = false) (hq : q ∈ kept) : q.same p = false := by
  rw [Bool.eq_false_iff, ne_eq, same_iff]
  intro hqp
  have hin : p.isIn kept = true := isIn_iff.2 ⟨q, hq, hqp.symm⟩
  rw [h] at hin
  cases hin

private theorem pairwise_foldl_keep {paths kept : List Path}
    (h : kept.reverse.Pairwise fun p q => p.same q = false) :
    (paths.foldl keep kept).reverse.Pairwise fun p q => p.same q = false := by
  induction paths generalizing kept with
  | nil => exact h
  | cons q paths ih =>
    apply ih
    cases hq : q.isIn kept with
    | true =>
      rw [keep_of_isIn hq]
      exact h
    | false =>
      rw [keep_of_not_isIn hq, List.reverse_cons, List.pairwise_append]
      refine ⟨h, List.pairwise_singleton _ _, ?_⟩
      intro p hp r hr
      rw [List.mem_singleton.1 hr]
      exact same_eq_false_of_not_isIn hq (List.mem_reverse.1 hp)

theorem pairwise_dedup (paths : List Path) :
    (dedup paths).Pairwise fun p q => p.same q = false :=
  pairwise_foldl_keep List.Pairwise.nil

private theorem foldl_keep_of_pairwise {paths kept : List Path}
    (h : paths.Pairwise fun p q => p.same q = false) (hkept : ∀ p ∈ paths, p.isIn kept = false) :
    paths.foldl keep kept = paths.reverse ++ kept := by
  induction paths generalizing kept with
  | nil => rfl
  | cons q paths ih =>
    obtain ⟨hq, hpaths⟩ := List.pairwise_cons.1 h
    rw [List.foldl_cons, keep_of_not_isIn (hkept q List.mem_cons_self), ih hpaths]
    · rw [List.reverse_cons, List.append_assoc, List.singleton_append]
    · intro p hp
      rw [Bool.eq_false_iff, ne_eq, isIn_cons, not_or]
      constructor
      · intro hpq
        have hsame : q.same p = true := same_iff.2 hpq.symm
        rw [hq p hp] at hsame
        cases hsame
      · rw [hkept p (List.mem_cons_of_mem q hp)]
        simp

/-- A list without repetitions stays as it is. -/
theorem dedup_eq_self {paths : List Path} (h : paths.Pairwise fun p q => p.same q = false) :
    dedup paths = paths := by
  rw [dedup_eq_foldl, foldl_keep_of_pairwise h fun p _ => rfl, List.append_nil,
    List.reverse_reverse]

/-! ## Lists that agree -/

/-- Whatever was kept before, both lists add the same to it. -/
def KeepsAlike (xs ys : List Path) : Prop :=
  ∀ kept, xs.foldl keep kept = ys.foldl keep kept

theorem KeepsAlike.refl (xs : List Path) : KeepsAlike xs xs := fun _ => rfl

theorem KeepsAlike.dedup_eq {xs ys : List Path} (h : KeepsAlike xs ys) : dedup xs = dedup ys := by
  rw [dedup_eq_foldl, dedup_eq_foldl, h]

theorem KeepsAlike.append {xs xs' ys ys' : List Path} (hx : KeepsAlike xs xs')
    (hy : KeepsAlike ys ys') : KeepsAlike (xs ++ ys) (xs' ++ ys') := by
  intro kept
  rw [List.foldl_append, List.foldl_append, hx kept, hy]

theorem KeepsAlike.cons {xs ys : List Path} (p : Path) (h : KeepsAlike xs ys) :
    KeepsAlike (p :: xs) (p :: ys) := fun kept => h (keep kept p)

/-- Keeping what a list adds to `first` is keeping `first` and then the list. -/
private theorem foldl_keep_reverse (ys : List Path) : ∀ first kept : List Path,
    (ys.foldl keep first).reverse.foldl keep kept =
      ys.foldl keep (first.reverse.foldl keep kept) := by
  induction ys with
  | nil => intro first kept; rfl
  | cons y ys ih =>
    intro first kept
    rw [List.foldl_cons, List.foldl_cons, ih]
    congr 1
    cases hy : y.isIn first with
    | true =>
      have hkept : y.isIn (first.reverse.foldl keep kept) = true := by
        rw [isIn_foldl_keep, isIn_reverse]
        exact .inr hy
      rw [keep_of_isIn hy, keep_of_isIn hkept]
    | false =>
      rw [keep_of_not_isIn hy, List.reverse_cons, List.foldl_append]
      rfl

theorem keepsAlike_dedup (paths : List Path) : KeepsAlike (dedup paths) paths :=
  fun kept => foldl_keep_reverse paths [] kept

end Path

end StyleBundle
