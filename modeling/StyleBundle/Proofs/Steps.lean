import Mathlib.Data.List.Basic

/-!
# Steps with a state

A step may succeed or fail, and ends in a state in both cases (`stateAfter`).  A property of the
state that every step keeps is kept by steps that are put together (`Keeps`).  What a list of
steps gives can be taken apart again (`exists_split_of_mem_mapM`).
-/

namespace StyleBundle

variable {ε σ α β : Type} {P : σ → Prop}

/-- Steps on closed states can be run to see where they end. -/
instance decidableEqResult [DecidableEq ε] [DecidableEq σ] [DecidableEq α] :
    DecidableEq (EStateM.Result ε σ α)
  | .ok a s, .ok b s' => decidable_of_iff _ (EStateM.Result.ok.injEq a s b s').symm.to_iff
  | .error cause s, .error other s' =>
    decidable_of_iff _ (EStateM.Result.error.injEq cause s other s').symm.to_iff
  | .ok _ _, .error _ _ => isFalse nofun
  | .error _ _, .ok _ _ => isFalse nofun

/-- The state that a step ends in, whether it succeeds or fails. -/
def stateAfter (step : EStateM ε σ α) (s : σ) : σ :=
  match step s with
  | .ok _ s' => s'
  | .error _ s' => s'

theorem stateAfter_of_ok {step : EStateM ε σ α} {s s' : σ} {a : α} (h : step s = .ok a s') :
    stateAfter step s = s' := by
  rw [stateAfter, h]

theorem stateAfter_of_error {step : EStateM ε σ α} {s s' : σ} {cause : ε}
    (h : step s = .error cause s') : stateAfter step s = s' := by
  rw [stateAfter, h]

/-- What a step gives, without the state that it ends in. -/
def resultOf (step : EStateM ε σ α) (s : σ) : Except ε α :=
  match step s with
  | .ok a _ => .ok a
  | .error cause _ => .error cause

theorem resultOf_of_ok {step : EStateM ε σ α} {s s' : σ} {a : α} (h : step s = .ok a s') :
    resultOf step s = .ok a := by
  rw [resultOf, h]

theorem resultOf_of_error {step : EStateM ε σ α} {s s' : σ} {cause : ε}
    (h : step s = .error cause s') : resultOf step s = .error cause := by
  rw [resultOf, h]

theorem exists_of_resultOf_ok {step : EStateM ε σ α} {s : σ} {a : α}
    (h : resultOf step s = .ok a) :
    ∃ s', step s = .ok a s' := by
  rw [resultOf] at h
  split at h
  · rename_i s' hrun
    cases h
    exact ⟨s', hrun⟩
  · cases h

theorem exists_of_resultOf_error {step : EStateM ε σ α} {s : σ} {cause : ε}
    (h : resultOf step s = .error cause) : ∃ s', step s = .error cause s' := by
  rw [resultOf] at h
  split at h
  · cases h
  · rename_i s' hrun
    cases h
    exact ⟨s', hrun⟩

/-- The outcome is a result with the property. -/
def Succeeds (Q : α → Prop) : EStateM.Result ε σ α → Prop
  | .ok a _ => Q a
  | .error _ _ => False

instance (Q : α → Prop) [DecidablePred Q] : (r : EStateM.Result ε σ α) → Decidable (Succeeds Q r)
  | .ok a _ => inferInstanceAs (Decidable (Q a))
  | .error _ _ => inferInstanceAs (Decidable False)

theorem exists_of_succeeds {Q : α → Prop} {r : EStateM.Result ε σ α} (h : Succeeds Q r) :
    ∃ a s, r = .ok a s ∧ Q a := by
  cases r with
  | ok a s => exact ⟨a, s, rfl, h⟩
  | error cause s => cases h

/-- What holds before the step holds after it. -/
def Keeps (P : σ → Prop) (step : EStateM ε σ α) : Prop :=
  ∀ s, P s → P (stateAfter step s)

theorem Keeps.of_ok {step : EStateM ε σ α} {s s' : σ} {a : α} (h : Keeps P step) (hs : P s)
    (hrun : step s = .ok a s') : P s' :=
  stateAfter_of_ok hrun ▸ h s hs

theorem Keeps.of_error {step : EStateM ε σ α} {s s' : σ} {cause : ε} (h : Keeps P step) (hs : P s)
    (hrun : step s = .error cause s') : P s' :=
  stateAfter_of_error hrun ▸ h s hs

theorem keeps_pure (a : α) : Keeps P (pure a : EStateM ε σ α) :=
  fun _ h => h

/-! ## Steps one after the other -/

section Bind

variable {step : EStateM ε σ α} {next : α → EStateM ε σ β} {s s' : σ}

theorem bind_of_ok {a : α} (h : step s = .ok a s') : (step >>= next) s = next a s' := by
  change EStateM.bind step next s = _
  rw [EStateM.bind, h]

theorem bind_of_error {cause : ε} (h : step s = .error cause s') :
    (step >>= next) s = .error cause s' := by
  change EStateM.bind step next s = _
  rw [EStateM.bind, h]

theorem exists_of_bind_ok {b : β} (h : (step >>= next) s = .ok b s') :
    ∃ a between, step s = .ok a between ∧ next a between = .ok b s' := by
  cases hrun : step s with
  | ok a between =>
    rw [bind_of_ok hrun] at h
    exact ⟨a, between, rfl, h⟩
  | error cause between =>
    rw [bind_of_error hrun] at h
    cases h

theorem cases_of_bind_error {cause : ε} (h : (step >>= next) s = .error cause s') :
    step s = .error cause s' ∨
      ∃ a between, step s = .ok a between ∧ next a between = .error cause s' := by
  cases hrun : step s with
  | ok a between =>
    rw [bind_of_ok hrun] at h
    exact .inr ⟨a, between, rfl, h⟩
  | error other between =>
    rw [bind_of_error hrun] at h
    cases h
    exact .inl rfl

/-- Two steps give the same from two states, if the first gives the same and the second does from
there. -/
theorem resultOf_bind_congr {t : σ} (hstep : resultOf step s = resultOf step t)
    (hnext : ∀ a s' t', step s = .ok a s' → step t = .ok a t' →
      resultOf (next a) s' = resultOf (next a) t') :
    resultOf (step >>= next) s = resultOf (step >>= next) t := by
  cases hrun : step s with
  | ok a s' =>
    rw [resultOf_of_ok hrun] at hstep
    obtain ⟨t', hrun'⟩ := exists_of_resultOf_ok hstep.symm
    rw [resultOf, bind_of_ok hrun, resultOf, bind_of_ok hrun']
    exact hnext a s' t' hrun hrun'
  | error cause s' =>
    rw [resultOf_of_error hrun] at hstep
    obtain ⟨t', hrun'⟩ := exists_of_resultOf_error hstep.symm
    rw [resultOf_of_error (bind_of_error hrun), resultOf_of_error (bind_of_error hrun')]

/-- What holds after the first step holds after both, if the second one keeps it when it comes to
run. -/
theorem holds_after_bind_of_ok (hstep : P (stateAfter step s))
    (hnext : ∀ a s', step s = .ok a s' → P s' → P (stateAfter (next a) s')) :
    P (stateAfter (step >>= next) s) := by
  cases hrun : step s with
  | ok a s' =>
    rw [stateAfter_of_ok hrun] at hstep
    rw [stateAfter, bind_of_ok hrun]
    exact hnext a s' hrun hstep
  | error cause s' =>
    rw [stateAfter_of_error hrun] at hstep
    rw [stateAfter, bind_of_error hrun]
    exact hstep

/-- What holds after a first step holds at the end, if every later step keeps it. -/
theorem holds_after_bind (hstep : P (stateAfter step s)) (hnext : ∀ a, Keeps P (next a)) :
    P (stateAfter (step >>= next) s) :=
  holds_after_bind_of_ok hstep fun a s' _ hs' => hnext a s' hs'

theorem Keeps.bind (hstep : Keeps P step) (hnext : ∀ a, Keeps P (next a)) :
    Keeps P (step >>= next) :=
  fun s hs => holds_after_bind (hstep s hs) hnext

end Bind

/-! ## A step for each item of a list -/

section Items

variable {step : α → EStateM ε σ β} {items : List α} {s s' : σ}

theorem Keeps.mapM (hstep : ∀ a ∈ items, Keeps P (step a)) : Keeps P (items.mapM step) := by
  induction items with
  | nil => exact keeps_pure []
  | cons a items ih =>
    rw [List.mapM_cons]
    refine (hstep a List.mem_cons_self).bind fun b => Keeps.bind ?_ fun bs => keeps_pure (b :: bs)
    exact ih fun a ha => hstep a (List.mem_cons_of_mem _ ha)

theorem exists_of_mapM_cons_ok {a : α} {bs : List β} (h : (a :: items).mapM step s = .ok bs s') :
    ∃ b between rest, step a s = .ok b between ∧ items.mapM step between = .ok rest s' ∧
      bs = b :: rest := by
  rw [List.mapM_cons] at h
  obtain ⟨b, between, ha, h⟩ := exists_of_bind_ok h
  obtain ⟨rest, last, hrest, h⟩ := exists_of_bind_ok h
  cases h
  exact ⟨b, between, rest, ha, hrest, rfl⟩

theorem mapM_cons_of_ok {a : α} {b : β} {bs : List β} {between : σ} (h : step a s = .ok b between)
    (hrest : items.mapM step between = .ok bs s') :
    (a :: items).mapM step s = .ok (b :: bs) s' := by
  rw [List.mapM_cons, bind_of_ok h, bind_of_ok hrest]
  rfl

theorem stateAfter_mapM_cons {a : α} {b : β} {between : σ} (h : step a s = .ok b between) :
    stateAfter ((a :: items).mapM step) s = stateAfter (items.mapM step) between := by
  rw [List.mapM_cons, stateAfter, bind_of_ok h, stateAfter]
  cases hrest : items.mapM step between with
  | ok rest last => rw [bind_of_ok hrest]; rfl
  | error cause last => rw [bind_of_error hrest]

/-- Every result comes from an item, in the state that the items in front of it leave. -/
theorem exists_split_of_mem_mapM {bs : List β} {b : β} (h : items.mapM step s = .ok bs s')
    (hb : b ∈ bs) :
    ∃ front a back after rest, items = front ++ a :: back ∧
      step a (stateAfter (front.mapM step) s) = .ok b after ∧
      back.mapM step after = .ok rest s' := by
  induction items generalizing s bs with
  | nil =>
    cases h
    cases hb
  | cons a items ih =>
    obtain ⟨first, between, rest, ha, hrest, rfl⟩ := exists_of_mapM_cons_ok h
    rcases List.mem_cons.1 hb with rfl | hb
    · exact ⟨[], a, items, between, rest, rfl, ha, hrest⟩
    · obtain ⟨front, c, back, after, more, rfl, hc, hmore⟩ := ih hrest hb
      refine ⟨a :: front, c, back, after, more, rfl, ?_, hmore⟩
      rw [stateAfter_mapM_cons ha]
      exact hc

/-- Every item gives a result, in the state that the items in front of it leave. -/
theorem exists_mem_of_mapM_split {front back : List α} {a : α} {bs : List β}
    (h : (front ++ a :: back).mapM step s = .ok bs s') :
    ∃ b ∈ bs, ∃ after, step a (stateAfter (front.mapM step) s) = .ok b after := by
  induction front generalizing s bs with
  | nil =>
    obtain ⟨b, between, rest, ha, _, rfl⟩ := exists_of_mapM_cons_ok h
    exact ⟨b, List.mem_cons_self, between, ha⟩
  | cons first front ih =>
    obtain ⟨c, between, rest, hfirst, hrest, rfl⟩ := exists_of_mapM_cons_ok h
    obtain ⟨b, hb, after, ha⟩ := ih hrest
    rw [stateAfter_mapM_cons hfirst]
    exact ⟨b, List.mem_cons_of_mem c hb, after, ha⟩

theorem forall₂_of_mapM_ok {bs : List β} (h : items.mapM step s = .ok bs s') :
    List.Forall₂ (fun a b => ∃ before after, step a before = .ok b after) items bs := by
  induction items generalizing s bs with
  | nil =>
    cases h
    exact .nil
  | cons a items ih =>
    obtain ⟨b, between, rest, ha, hrest, rfl⟩ := exists_of_mapM_cons_ok h
    exact .cons ⟨s, between, ha⟩ (ih hrest)

end Items

end StyleBundle
