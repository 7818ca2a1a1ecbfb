import StyleBundle.Path.Basic
import StyleBundle.Proofs.Text.Order

/-!
# The order of paths

Paths are ordered component by component, and components by kind first.  This is a total order on
components (`Path.leComponents_total`, `Path.leComponents_trans`, `Path.leComponents_antisymm`),
so two paths come before each other only if they are the same.
-/

namespace StyleBundle

namespace Component

theorem le_total (a b : Component) : a.le b = true ∨ b.le a = true := by
  cases a <;> cases b <;> simp [le, rank]
  exact Text.le_total _ _

theorem le_antisymm {a b : Component} (hab : a.le b = true) (hba : b.le a = true) : a = b := by
  cases a <;> cases b <;> simp [le, rank] at hab hba ⊢
  exact Text.le_antisymm hab hba

theorem le_trans {a b c : Component} (hab : a.le b = true) (hbc : b.le c = true) :
    a.le c = true := by
  cases a <;> cases b <;> cases c <;> simp [le, rank] at hab hbc ⊢
  exact Text.le_trans hab hbc

end Component

namespace Path

theorem leComponents_total (s t : List Component) :
    leComponents s t = true ∨ leComponents t s = true := by
  induction s generalizing t with
  | nil => exact .inl rfl
  | cons a s ih =>
    cases t with
    | nil => exact .inr rfl
    | cons b t =>
      by_cases heq : a = b
      · simpa [leComponents, heq] using ih t
      · simpa [leComponents, heq, Ne.symm heq] using Component.le_total a b

theorem leComponents_antisymm {s t : List Component} (hst : leComponents s t = true)
    (hts : leComponents t s = true) : s = t := by
  induction s generalizing t with
  | nil =>
    cases t with
    | nil => rfl
    | cons b t => cases hts
  | cons a s ih =>
    cases t with
    | nil => cases hst
    | cons b t =>
      by_cases heq : a = b
      · subst heq
        simp only [leComponents, if_true] at hst hts
        rw [ih hst hts]
      · simp only [leComponents, heq, Ne.symm heq, if_false] at hst hts
        exact absurd (Component.le_antisymm hst hts) heq

theorem leComponents_trans {s t u : List Component} (hst : leComponents s t = true)
    (htu : leComponents t u = true) : leComponents s u = true := by
  induction s generalizing t u with
  | nil => rfl
  | cons a s ih =>
    cases t with
    | nil => cases hst
    | cons b t =>
      cases u with
      | nil => cases htu
      | cons c u =>
        by_cases hab : a = b
        · subst hab
          by_cases hac : a = c
          · subst hac
            simp only [leComponents, if_true] at hst htu ⊢
            exact ih hst htu
          · simpa [leComponents, hac] using htu
        · by_cases hbc : b = c
          · subst hbc
            simpa [leComponents, hab] using hst
          · simp only [leComponents, hab, hbc, if_false] at hst htu ⊢
            -- The first component cannot come back behind a different one.
            have hac : a ≠ c := fun hac => hab (Component.le_antisymm hst (hac ▸ htu))
            rw [if_neg hac]
            exact Component.le_trans hst htu

/-- Paths sorted by `Path.le`. -/
theorem pairwise_mergeSort_le (paths : List Path) :
    (paths.mergeSort le).Pairwise fun p q => p.le q = true := by
  apply List.pairwise_mergeSort
  · exact fun p q r hpq hqr => leComponents_trans hpq hqr
  · intro p q
    rw [Bool.or_eq_true]
    exact leComponents_total p.components q.components

end Path

end StyleBundle
