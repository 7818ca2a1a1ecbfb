import Mathlib.Data.List.Forall2

/-!
# Lists worked through item by item

A list of steps that may fail succeeds exactly when each of its steps does, and the results are
related to the items one by one (`mapM_eq_ok_iff`, `mapM_eq_some_iff`).  It fails because one of
the steps does (`exists_of_mapM_eq_error`), and with the error of the first one that does
(`errorOf?_mapM`, `mapM_eq_elim_find?`).

The second half has what later proofs need of lists that are related item by item, of searches
through a list, of a list with one more item at its end, and of cutting a list.
-/

namespace StyleBundle

/-! ## Steps that may fail -/

section Steps

variable {ε α β : Type}

theorem bind_eq_ok_iff {x : Except ε α} {f : α → Except ε β} {b : β} :
    (x >>= f) = .ok b ↔ ∃ a, x = .ok a ∧ f a = .ok b := by
  cases x with
  | ok a =>
    constructor
    · exact fun h => ⟨a, rfl, h⟩
    · rintro ⟨a', ha, h⟩
      cases ha
      exact h
  | error e =>
    constructor
    · exact fun h => by cases h
    · rintro ⟨a', ha, _⟩
      cases ha

theorem bind_eq_error {x : Except ε α} {f : α → Except ε β} {e : ε} (h : (x >>= f) = .error e) :
    x = .error e ∨ ∃ a, x = .ok a ∧ f a = .error e := by
  cases x with
  | ok a => exact .inr ⟨a, rfl, h⟩
  | error e' =>
    left
    cases h
    rfl

theorem toOption_eq_some_iff {x : Except ε α} {a : α} : x.toOption = some a ↔ x = .ok a := by
  cases x with
  | ok b => simp [Except.toOption]
  | error e => simp [Except.toOption]

/-- A result that passes a test can be computed. -/
theorem exists_ok_of_any {x : Except ε α} {p : α → Bool} (h : x.toOption.any p = true) :
    ∃ a, x = .ok a ∧ p a = true := by
  cases x with
  | ok a => exact ⟨a, rfl, h⟩
  | error e => cases h

theorem mapM_congr_of_mem {m : Type → Type} [Monad m] [LawfulMonad m] {step₁ step₂ : α → m β}
    {items : List α} (h : ∀ a ∈ items, step₁ a = step₂ a) :
    items.mapM step₁ = items.mapM step₂ := by
  induction items with
  | nil => rfl
  | cons a items ih =>
    rw [List.mapM_cons, List.mapM_cons, h a List.mem_cons_self,
      ih fun a' ha' => h a' (List.mem_cons_of_mem a ha')]

theorem mapM_eq_ok_iff {f : α → Except ε β} {items : List α} {results : List β} :
    items.mapM f = .ok results ↔ List.Forall₂ (fun a b => f a = .ok b) items results := by
  induction items generalizing results with
  | nil =>
    rw [List.mapM_nil, List.forall₂_nil_left_iff]
    constructor
    · intro h
      cases h
      rfl
    · rintro rfl
      rfl
  | cons a items ih =>
    rw [List.mapM_cons, bind_eq_ok_iff, List.forall₂_cons_left_iff]
    constructor
    · rintro ⟨b, hb, h⟩
      obtain ⟨bs, hbs, h⟩ := bind_eq_ok_iff.1 h
      cases h
      exact ⟨b, bs, hb, ih.1 hbs, rfl⟩
    · rintro ⟨b, bs, hb, hbs, rfl⟩
      exact ⟨b, hb, bind_eq_ok_iff.2 ⟨bs, ih.2 hbs, rfl⟩⟩

/-- If each result is known, so are all results. -/
theorem eq_map_of_mapM_eq_ok {f : α → Except ε β} {g : α → β} {items : List α} {results : List β}
    (h : items.mapM f = .ok results) (hf : ∀ a b, f a = .ok b → b = g a) :
    results = items.map g := by
  have hitems := mapM_eq_ok_iff.1 h
  clear h
  induction hitems with
  | nil => rfl
  | cons hb _ ih => rw [List.map_cons, hf _ _ hb, ih]

theorem exists_of_mapM_eq_error {f : α → Except ε β} {items : List α} {e : ε}
    (h : items.mapM f = .error e) : ∃ a ∈ items, f a = .error e := by
  induction items with
  | nil => cases h
  | cons a items ih =>
    rw [List.mapM_cons] at h
    rcases bind_eq_error h with ha | ⟨b, _, h⟩
    · exact ⟨a, List.mem_cons_self, ha⟩
    · rcases bind_eq_error h with hitems | ⟨_, _, h⟩
      · obtain ⟨a', ha', he⟩ := ih hitems
        exact ⟨a', List.mem_cons_of_mem a ha', he⟩
      · cases h

/-- The error, if there is one. -/
def errorOf? : Except ε α → Option ε
  | .ok _ => none
  | .error e => some e

theorem errorOf?_eq_some_iff {x : Except ε α} {e : ε} : errorOf? x = some e ↔ x = .error e := by
  cases x <;> simp [errorOf?]

theorem errorOf?_eq_none_iff {x : Except ε α} : errorOf? x = none ↔ ∃ a, x = .ok a := by
  cases x <;> simp [errorOf?]

theorem errorOf?_bind_ok (x : Except ε α) (f : α → β) :
    errorOf? (x >>= fun a => .ok (f a)) = errorOf? x := by
  cases x <;> rfl

/-- The error of the first item that has one is the error of all. -/
theorem errorOf?_mapM (f : α → Except ε β) (items : List α) :
    errorOf? (items.mapM f) = items.findSome? fun a => errorOf? (f a) := by
  induction items with
  | nil => rfl
  | cons a items ih =>
    rw [List.mapM_cons, List.findSome?_cons, ← ih]
    cases f a with
    | error e => rfl
    | ok b => cases items.mapM f <;> rfl

/-- The first bad item gives the error. -/
theorem mapM_eq_elim_find? {f : α → Except ε β} {bad : α → Bool} {fault : α → ε} {good : α → β}
    (h : ∀ a, f a = if bad a then .error (fault a) else .ok (good a)) (items : List α) :
    items.mapM f = (items.find? bad).elim (.ok (items.map good)) fun a => .error (fault a) := by
  induction items with
  | nil => rfl
  | cons a items ih =>
    rw [List.mapM_cons, h, ih]
    cases hbad : bad a with
    | true =>
      rw [List.find?_cons_of_pos hbad]
      rfl
    | false =>
      rw [List.find?_cons_of_neg (by simp [hbad])]
      cases items.find? bad <;> rfl

theorem mapM_eq_some_iff {f : α → Option β} {items : List α} {results : List β} :
    items.mapM f = some results ↔ List.Forall₂ (fun a b => f a = some b) items results := by
  induction items generalizing results with
  | nil =>
    rw [List.mapM_nil, List.forall₂_nil_left_iff]
    exact ⟨fun h => (Option.some.inj h).symm, fun h => h ▸ rfl⟩
  | cons a items ih =>
    rw [List.mapM_cons, Option.bind_eq_bind, Option.bind_eq_some_iff, List.forall₂_cons_left_iff]
    constructor
    · rintro ⟨b, hb, h⟩
      obtain ⟨bs, hbs, h⟩ := Option.bind_eq_some_iff.1 h
      cases h
      exact ⟨b, bs, hb, ih.1 hbs, rfl⟩
    · rintro ⟨b, bs, hb, hbs, rfl⟩
      exact ⟨b, hb, Option.bind_eq_some_iff.2 ⟨bs, ih.2 hbs, rfl⟩⟩

end Steps

/-! ## Lists related item by item -/

section Related

variable {α β : Type} {R S : α → β → Prop}

theorem forall₂_imp_of_mem {as : List α} {bs : List β} (h : List.Forall₂ R as bs)
    (himp : ∀ a b, a ∈ as → b ∈ bs → R a b → S a b) : List.Forall₂ S as bs := by
  induction h with
  | nil => exact .nil
  | cons hab _ ih =>
    refine .cons (himp _ _ List.mem_cons_self List.mem_cons_self hab) (ih ?_)
    intro a b ha hb
    exact himp a b (List.mem_cons_of_mem _ ha) (List.mem_cons_of_mem _ hb)

theorem forall₂_append_left_iff {front back : List α} {bs : List β} :
    List.Forall₂ R (front ++ back) bs ↔
      ∃ bs₁ bs₂, List.Forall₂ R front bs₁ ∧ List.Forall₂ R back bs₂ ∧ bs = bs₁ ++ bs₂ := by
  induction front generalizing bs with
  | nil => simp
  | cons a front ih =>
    rw [List.cons_append, List.forall₂_cons_left_iff]
    constructor
    · rintro ⟨b, bs', hb, hbs, rfl⟩
      obtain ⟨bs₁, bs₂, h₁, h₂, rfl⟩ := ih.1 hbs
      exact ⟨b :: bs₁, bs₂, .cons hb h₁, h₂, rfl⟩
    · rintro ⟨_, bs₂, hcons, h₂, rfl⟩
      obtain ⟨b, bs₁, hb, h₁, rfl⟩ := List.forall₂_cons_left_iff.1 hcons
      exact ⟨b, bs₁ ++ bs₂, hb, ih.2 ⟨bs₁, bs₂, h₁, h₂, rfl⟩, rfl⟩

theorem exists_right_of_forall₂ {as : List α} {bs : List β} (h : List.Forall₂ R as bs) {a : α}
    (ha : a ∈ as) : ∃ b ∈ bs, R a b := by
  induction h with
  | nil => cases ha
  | cons hab _ ih =>
    rcases List.mem_cons.1 ha with rfl | ha
    · exact ⟨_, List.mem_cons_self, hab⟩
    · obtain ⟨b, hb, hr⟩ := ih ha
      exact ⟨b, List.mem_cons_of_mem _ hb, hr⟩

theorem exists_forall₂ {as : List α} (h : ∀ a ∈ as, ∃ b, R a b) : ∃ bs, List.Forall₂ R as bs := by
  induction as with
  | nil => exact ⟨[], .nil⟩
  | cons a as ih =>
    obtain ⟨b, hb⟩ := h a List.mem_cons_self
    obtain ⟨bs, hbs⟩ := ih fun a' ha' => h a' (List.mem_cons_of_mem a ha')
    exact ⟨b :: bs, .cons hb hbs⟩

theorem exists_getLast?_of_forall₂ {as : List α} {bs : List β} (h : List.Forall₂ R as bs) {b : β}
    (hb : bs.getLast? = some b) : ∃ a, as.getLast? = some a ∧ R a b := by
  induction h with
  | nil => cases hb
  | @cons a b' as bs hab hrest ih =>
    cases hrest with
    | nil =>
      rw [List.getLast?_singleton, Option.some.injEq] at hb
      exact ⟨a, rfl, hb ▸ hab⟩
    | cons hnext hmore =>
      rw [List.getLast?_cons_cons] at hb ⊢
      exact ih hb

/-- Two lists that are related to one list are the same, if related items are. -/
theorem eq_of_forall₂ {as : List α} {bs cs : List β}
    (h : List.Forall₂ R as bs) (h' : List.Forall₂ S as cs)
    (hitems : ∀ a b c, b ∈ bs → c ∈ cs → R a b → S a c → b = c) : bs = cs := by
  induction h generalizing cs with
  | nil => exact (List.forall₂_nil_left_iff.1 h').symm
  | cons hab _ ih =>
    obtain ⟨c, cs, hac, hrest, rfl⟩ := List.forall₂_cons_left_iff.1 h'
    rw [hitems _ _ c List.mem_cons_self List.mem_cons_self hab hac, ih hrest]
    intro a b c hb hc
    exact hitems a b c (List.mem_cons_of_mem _ hb) (List.mem_cons_of_mem _ hc)

theorem exists_left_of_forall₂ {as : List α} {bs : List β} (h : List.Forall₂ R as bs) {b : β}
    (hb : b ∈ bs) : ∃ a ∈ as, R a b :=
  exists_right_of_forall₂ h.flip hb

end Related

/-- Two searches through one list find the same item, if they judge both finds alike. -/
theorem eq_of_find?_eq_some {α : Type} {p q : α → Bool} {items : List α} {a b : α}
    (ha : items.find? p = some a) (hb : items.find? q = some b) (hpa : p a = q a)
    (hpb : p b = q b) :
    a = b := by
  have hp := List.find?_some ha
  have hq := List.find?_some hb
  induction items with
  | nil => cases ha
  | cons first items ih =>
    rw [List.find?_cons] at ha hb
    split at ha
    · cases ha
      rw [hpa] at hp
      rw [hp] at hb
      exact Option.some.inj hb
    · rename_i hfirst
      split at hb
      · cases hb
        rw [hpb, hq] at hfirst
        cases hfirst
      · exact ih ha hb

/-- A search that takes fewer items finds the same, if it takes what the other search finds. -/
theorem find?_eq_of_imp {α : Type} {p q : α → Bool} {items : List α}
    (h : ∀ a, q a = true → p a = true) (hfound : ∀ a, items.find? p = some a → q a = true) :
    items.find? q = items.find? p := by
  induction items with
  | nil => rfl
  | cons first items ih =>
    by_cases hfirst : p first = true
    · rw [List.find?_cons_of_pos hfirst] at hfound ⊢
      rw [List.find?_cons_of_pos (hfound first rfl)]
    · rw [List.find?_cons_of_neg hfirst] at hfound ⊢
      rw [List.find?_cons_of_neg fun hq => hfirst (h first hq)]
      exact ih hfound

/-- Two searches through one list find the same, if items that give nothing but good finds are
taken alike and both searches end with a good find. -/
theorem findSome?_eq_of_good {α β : Type} {f g : α → Option β} (good : β → Prop)
    (h : ∀ a, (∀ b, f a = some b → good b) → (∀ b, g a = some b → good b) → f a = g a)
    {items : List α} (hf : ∀ b, items.findSome? f = some b → good b)
    (hg : ∀ b, items.findSome? g = some b → good b) :
    items.findSome? f = items.findSome? g := by
  induction items with
  | nil => rfl
  | cons a items ih =>
    have hfirst : f a = g a := by
      refine h a (fun b hb => hf b ?_) fun b hb => hg b ?_
      · rw [List.findSome?_cons, hb]
      · rw [List.findSome?_cons, hb]
    rw [List.findSome?_cons] at hf hg
    rw [List.findSome?_cons, List.findSome?_cons]
    rw [← hfirst] at hg ⊢
    cases hfound : f a with
    | some b => rfl
    | none =>
      rw [hfound] at hf hg
      exact ih hf hg

/-- An item that stands in a list with one more item at the end is that item, or it stood there
before. -/
theorem append_singleton_eq_append_cons_iff {α : Type} {items before since : List α} {a b : α} :
    items ++ [a] = before ++ b :: since ↔
      (since = [] ∧ items = before ∧ a = b) ∨
        ∃ more, since = more ++ [a] ∧ items = before ++ b :: more := by
  constructor
  · intro h
    rcases List.eq_nil_or_concat since with rfl | ⟨more, last, rfl⟩
    · obtain ⟨rfl, hlast⟩ := List.append_inj' h rfl
      exact .inl ⟨rfl, rfl, List.head_eq_of_cons_eq hlast⟩
    · have hsplit : items ++ [a] = (before ++ b :: more) ++ [last] := by simpa using h
      obtain ⟨rfl, hlast⟩ := List.append_inj' hsplit rfl
      obtain rfl : a = last := List.head_eq_of_cons_eq hlast
      exact .inr ⟨more, List.concat_eq_append, rfl⟩
  · rintro (⟨rfl, rfl, rfl⟩ | ⟨more, rfl, rfl⟩)
    · rfl
    · simp

theorem notMem_append_singleton_iff {α : Type} {items : List α} {a b : α} :
    a ∉ items ++ [b] ↔ a ∉ items ∧ b ≠ a := by
  rw [List.mem_append, not_or, List.mem_singleton, eq_comm]

/-! ## Cutting a list where a test first fails -/

section Cutting

variable {α : Type} {front t : List α} {p : α → Bool} {c : α}

theorem takeWhile_append_cons (hfront : ∀ d ∈ front, p d = true) (hc : p c = false) :
    (front ++ c :: t).takeWhile p = front := by
  rw [List.takeWhile_append_of_pos hfront, List.takeWhile_cons_of_neg (by simp [hc]),
    List.append_nil]

theorem dropWhile_append_cons (hfront : ∀ d ∈ front, p d = true) (hc : p c = false) :
    (front ++ c :: t).dropWhile p = c :: t := by
  rw [List.dropWhile_append_of_pos hfront, List.dropWhile_cons_of_neg (by simp [hc])]

end Cutting

end StyleBundle
