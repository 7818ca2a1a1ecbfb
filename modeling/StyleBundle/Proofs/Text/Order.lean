import Mathlib.Data.List.Sort
import StyleBundle.Text.Basic

/-!
# The order of texts

`Text.le` compares texts by code points.  It is a total order in which a front of a text comes
before the text.

A list sorted by merging is the list sorted by insertion, whatever the order
(`mergeSort_eq_insertionSort_of_total`): both keep items that compare alike in the order of the
list.
-/

namespace StyleBundle

namespace Text

theorem le_total (s t : Text) : le s t = true ∨ le t s = true := by
  induction s generalizing t with
  | nil => exact .inl rfl
  | cons a s ih =>
    cases t with
    | nil => exact .inr rfl
    | cons b t =>
      rw [le, le]
      by_cases heq : a = b
      · subst heq
        rcases ih t with h | h
        · left
          simp [h]
        · right
          simp [h]
      · have hval : a.val ≠ b.val := fun h => heq (Char.ext h)
        rcases UInt32.lt_or_lt_of_ne hval with h | h
        · left
          simp [h]
        · right
          simp [h]

/-- What it takes for one text to come before another. -/
private theorem le_cons_cons {a b : Char} {s t : Text} :
    le (a :: s) (b :: t) = true ↔ a.val < b.val ∨ (a = b ∧ le s t = true) := by
  simp [le]

theorem le_trans {s t u : Text} (hst : le s t = true) (htu : le t u = true) : le s u = true := by
  induction s generalizing t u with
  | nil => rfl
  | cons a s ih =>
    cases t with
    | nil => cases hst
    | cons b t =>
      cases u with
      | nil => cases htu
      | cons c u =>
        rw [le_cons_cons] at hst htu ⊢
        rcases hst with hab | ⟨rfl, hst⟩
        · rcases htu with hbc | ⟨rfl, _⟩
          · exact .inl (UInt32.lt_trans hab hbc)
          · exact .inl hab
        · rcases htu with hac | ⟨rfl, htu⟩
          · exact .inl hac
          · exact .inr ⟨rfl, ih hst htu⟩

theorem le_antisymm {s t : Text} (hst : le s t = true) (hts : le t s = true) : s = t := by
  induction s generalizing t with
  | nil =>
    cases t with
    | nil => rfl
    | cons b t => cases hts
  | cons a s ih =>
    cases t with
    | nil => cases hst
    | cons b t =>
      rw [le_cons_cons] at hst hts
      rcases hst with hab | ⟨rfl, hst⟩
      · rcases hts with hba | ⟨rfl, _⟩
        · exact absurd hba (UInt32.lt_asymm hab)
        · exact absurd hab (UInt32.lt_irrefl _)
      · rcases hts with haa | ⟨_, hts⟩
        · exact absurd haa (UInt32.lt_irrefl _)
        · rw [ih hst hts]

end Text

/-! ## Two ways to sort -/

variable {α : Type}

/-- An item goes behind those that come before it, and in front of the rest. -/
private theorem orderedInsert_append {le : α → α → Bool} {a : α} {before after : List α}
    (hbefore : ∀ b ∈ before, le a b = false) (hafter : ∀ b ∈ after, le a b = true) :
    (before ++ after).orderedInsert (fun x y => le x y = true) a = before ++ a :: after := by
  induction before with
  | nil =>
    cases after with
    | nil => rfl
    | cons b after => exact List.orderedInsert_cons_of_le _ _ (hafter b List.mem_cons_self)
  | cons b before ih =>
    rw [List.cons_append, List.orderedInsert_of_not_le _ _
      (by simp [hbefore b List.mem_cons_self])]
    rw [ih fun x hx => hbefore x (List.mem_cons_of_mem b hx), List.cons_append]

/-- Sorting by merging is sorting by insertion. -/
theorem mergeSort_eq_insertionSort_of_total {le : α → α → Bool}
    (trans : ∀ a b c : α, le a b = true → le b c = true → le a c = true)
    (total : ∀ a b : α, le a b = true ∨ le b a = true) (items : List α) :
    items.mergeSort le = items.insertionSort fun a b => le a b = true := by
  have htotal : ∀ a b : α, (le a b || le b a) = true := by
    intro a b
    rw [Bool.or_eq_true]
    exact total a b
  induction items with
  | nil => simp
  | cons a items ih =>
    obtain ⟨before, after, hsorted, hrest, hbefore⟩ := List.mergeSort_cons trans htotal a items
    have hpairwise := List.pairwise_mergeSort trans htotal (a :: items)
    rw [hsorted] at hpairwise ⊢
    have hafter := (List.pairwise_cons.1 (List.pairwise_append.1 hpairwise).2.1).1
    rw [List.insertionSort_cons, ← ih, hrest, orderedInsert_append _ hafter]
    intro b hb
    simpa using hbefore b hb

end StyleBundle
