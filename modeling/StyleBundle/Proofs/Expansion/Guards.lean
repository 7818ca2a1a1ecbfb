import Mathlib.Data.Set.Card
import StyleBundle.Proofs.Expansion.Outcome
import StyleBundle.Proofs.Lists

/-!
# The paths in flight are those of the guards

Paths are entered and guards are released in any order (`GuardTable.Event`).  An entry that is
refused gives no guard, and a guard that is released again changes nothing.

`GuardTable.Holds` tells from the events, and from which entries were refused, which guards are
held and for which paths.  A release takes a path out of flight, and with it every path that has
the same components.  This is right only because no other guard holds such a path.  So the two
facts are kept together by every event (`Tracks.after`), and hold after every history
(`tracks_ofHistory`).
-/

namespace StyleBundle

namespace GuardTable

/-! ## Histories -/

/-- What may happen to a table of guards. -/
inductive Event where
  /-- A path is entered. -/
  | enter (p : Path)
  /-- A guard is released. -/
  | release (guard : Nat)
deriving DecidableEq

/-- The table after an event.  An entry that is refused leaves it as it is. -/
def after (t : GuardTable) : Event → GuardTable
  | .enter p => (t.enter? p).getD t
  | .release guard => t.release guard

/-- The table after a history of events. -/
def ofHistory (history : List Event) : GuardTable :=
  history.foldl after empty

/-- Whether the event is an entry that is not refused. -/
def grants (t : GuardTable) : Event → Bool
  | .enter p => (t.enter? p).isSome
  | .release _ => false

/-- The number of guards that some events bring. -/
def granted (t : GuardTable) : List Event → Nat
  | [] => 0
  | e :: events => (t.grants e).toNat + granted (t.after e) events

/-- The guard was given for the path, and not released since. -/
def Holds (history : List Event) (guard : Nat) (p : Path) : Prop :=
  ∃ before since, history = before ++ .enter p :: since ∧
    (ofHistory before).grants (.enter p) = true ∧
    empty.granted before = guard ∧ .release guard ∉ since

variable {t t' : GuardTable} {history : List Event} {e : Event} {guard other : Nat} {p q : Path}

theorem ofHistory_append (history : List Event) (e : Event) :
    ofHistory (history ++ [e]) = (ofHistory history).after e := by
  rw [ofHistory, List.foldl_append]
  rfl

theorem granted_append (t : GuardTable) (history : List Event) (e : Event) :
    t.granted (history ++ [e]) =
      t.granted history + ((history.foldl after t).grants e).toNat := by
  induction history generalizing t with
  | nil => simp [granted]
  | cons first history ih =>
    rw [List.cons_append, granted, granted, ih, List.foldl_cons, Nat.add_assoc]

/-- A guard is held after one more event if the event gives it, or if it was held and is not
released. -/
theorem holds_append :
    Holds (history ++ [e]) guard p ↔
      (e = .enter p ∧ (ofHistory history).grants e = true ∧ empty.granted history = guard) ∨
        (Holds history guard p ∧ e ≠ .release guard) := by
  constructor
  · rintro ⟨before, since, hparts, hgrants, hguard, hsince⟩
    rcases append_singleton_eq_append_cons_iff.1 hparts with ⟨_, rfl, rfl⟩ | ⟨more, rfl, rfl⟩
    · exact .inl ⟨rfl, hgrants, hguard⟩
    · obtain ⟨hmore, hne⟩ := notMem_append_singleton_iff.1 hsince
      exact .inr ⟨⟨before, more, rfl, hgrants, hguard, hmore⟩, hne⟩
  · rintro (⟨rfl, hgrants, hguard⟩ | ⟨⟨before, since, rfl, hgrants, hguard, hsince⟩, hne⟩)
    · exact ⟨history, [], rfl, hgrants, hguard, List.not_mem_nil⟩
    · have hmore := notMem_append_singleton_iff.2 ⟨hsince, hne⟩
      exact ⟨before, since ++ [e], by simp, hgrants, hguard, hmore⟩

/-! ## Tables -/

/-- The path that a guard holds, if it is held. -/
def path? (t : GuardTable) (guard : Nat) : Option Path :=
  t.guards[guard]?.join

theorem path?_eq_some_iff : t.path? guard = some p ↔ t.guards[guard]? = some (some p) := by
  rw [path?, Option.join_eq_some_iff]

theorem holds_iff : t.holds guard = true ↔ ∃ p, t.path? guard = some p := by
  simp only [path?_eq_some_iff, holds]
  split
  · simp_all
  · simp_all

theorem enter?_eq_none_iff : t.enter? p = none ↔ t.inFlight.contains p = true := by
  rw [enter?, Option.map_eq_none_iff, InFlight.enter?]
  split_ifs with h
  · simp [h]
  · simp [h]

/-- An entry that is not refused brings the path into flight and gives the next guard. -/
theorem of_enter? (h : t.enter? p = some t') :
    t.inFlight.contains p = false ∧ t' = ⟨⟨p :: t.inFlight.paths⟩, t.guards ++ [some p]⟩ := by
  have hfree : t.inFlight.contains p = false := by
    rw [← Bool.not_eq_true, ← enter?_eq_none_iff, h]
    simp
  rw [enter?, InFlight.enter?_of_not_contains hfree] at h
  exact ⟨hfree, (Option.some.inj h).symm⟩

theorem release_of_none (h : t.path? guard = none) : t.release guard = t := by
  rw [release]
  split
  · rename_i p hp
    rw [path?_eq_some_iff.2 hp] at h
    cases h
  · rfl

theorem release_of_some (h : t.path? guard = some p) :
    t.release guard = ⟨t.inFlight.release p, t.guards.set guard none⟩ := by
  rw [release, path?_eq_some_iff.1 h]

theorem path?_enter? (h : t.enter? p = some t') :
    t'.path? guard = if guard = t.guards.length then some p else t.path? guard := by
  obtain ⟨_, rfl⟩ := of_enter? h
  rw [path?, path?, List.getElem?_append]
  split_ifs with hlt hlast hlast
  · omega
  · rfl
  · simp [hlast]
  · rw [List.getElem?_eq_none (by simp; omega), List.getElem?_eq_none (by omega)]

theorem path?_release :
    (t.release guard).path? other = if other = guard then none else t.path? other := by
  cases h : t.path? guard with
  | none =>
    rw [release_of_none h]
    split_ifs with heq
    · rw [heq, h]
    · rfl
  | some p =>
    rw [release_of_some h, path?, path?]
    split_ifs with heq
    · rw [heq, List.getElem?_set_self', path?_eq_some_iff.1 h]
      rfl
    · rw [List.getElem?_set_ne (Ne.symm heq)]

theorem length_guards_after :
    (t.after e).guards.length = t.guards.length + (t.grants e).toNat := by
  cases e with
  | enter p =>
    rw [after, grants]
    cases h : t.enter? p with
    | none => simp
    | some t' =>
      obtain ⟨_, rfl⟩ := of_enter? h
      simp
  | release guard =>
    cases h : t.path? guard with
    | none => rw [after, release_of_none h]; rfl
    | some p =>
      rw [after, release_of_some h]
      simp [grants]

/-- The path of a guard after one event. -/
theorem path?_after :
    (t.after e).path? guard = some p ↔
      (e = .enter p ∧ t.grants e = true ∧ t.guards.length = guard) ∨
        (t.path? guard = some p ∧ e ≠ .release guard) := by
  cases e with
  | enter q =>
    rw [after, grants]
    cases h : t.enter? q with
    | none => simp
    | some t' =>
      rw [Option.getD_some, path?_enter? h]
      split_ifs with hlast
      · have hnone : t.path? guard = none := by
          rw [path?, List.getElem?_eq_none (Nat.le_of_eq hlast.symm)]
          rfl
        simp [hnone, hlast.symm]
      · simp [Ne.symm hlast]
  | release other =>
    rw [after, path?_release]
    split_ifs with heq
    · simp [heq, grants]
    · simp [grants, Ne.symm heq]

theorem length_guards_ofHistory (history : List Event) :
    (ofHistory history).guards.length = empty.granted history := by
  induction history using List.reverseRecOn with
  | nil => rfl
  | append_singleton history e ih =>
    rw [ofHistory_append, length_guards_after, ih, granted_append]
    rfl

/-- A guard of the table has a path exactly as long as it is held. -/
theorem path?_ofHistory : (ofHistory history).path? guard = some p ↔ Holds history guard p := by
  induction history using List.reverseRecOn generalizing guard p with
  | nil => simp [ofHistory, empty, path?, Holds]
  | append_singleton history e ih =>
    rw [ofHistory_append, path?_after, holds_append, ih, length_guards_ofHistory]

/-! ## What every event keeps -/

/-- The paths in flight are those of the guards, and no two guards have paths with the same
components. -/
structure Tracks (t : GuardTable) : Prop where
  mem_paths : ∀ p, p ∈ t.inFlight.paths ↔ ∃ guard, t.path? guard = some p
  guard_unique : ∀ guard other p q, t.path? guard = some p → t.path? other = some q →
    p.components = q.components → guard = other
  apart : t.inFlight.paths.Pairwise fun p q => p.components ≠ q.components

theorem tracks_empty : Tracks empty := by
  have hnone : ∀ guard, empty.path? guard = none := fun guard => rfl
  refine ⟨fun p => ?_, fun guard other p q h => ?_, List.Pairwise.nil⟩
  · simp only [hnone, reduceCtorEq, exists_false, iff_false]
    exact List.not_mem_nil
  · rw [hnone] at h
    cases h

theorem Tracks.contains_iff (h : Tracks t) :
    t.inFlight.contains p = true ↔ ∃ guard q, t.path? guard = some q ∧
    p.components = q.components := by
  rw [InFlight.contains_iff]
  constructor
  · rintro ⟨q, hq, hsame⟩
    obtain ⟨guard, hguard⟩ := (h.mem_paths q).1 hq
    exact ⟨guard, q, hguard, hsame⟩
  · rintro ⟨guard, q, hguard, hsame⟩
    exact ⟨q, (h.mem_paths q).2 ⟨guard, hguard⟩, hsame⟩

theorem Tracks.enter? (h : Tracks t) (henter : t.enter? p = some t') : Tracks t' := by
  obtain ⟨hfree, ht'⟩ := of_enter? henter
  have hpaths : t'.inFlight.paths = p :: t.inFlight.paths := by rw [ht']
  -- The guards are the earlier ones and the new one, whose path no earlier guard has.
  have hpath : ∀ guard q, t'.path? guard = some q ↔
      (p = q ∧ t.guards.length = guard) ∨ t.path? guard = some q := by
    intro guard q
    have hafter : (t.after (.enter p)).path? guard = some q ↔ _ := path?_after
    rw [after, grants, henter] at hafter
    simpa using hafter
  have hnew : ∀ guard q, t.path? guard = some q → p.components ≠ q.components := by
    intro guard q hguard hsame
    rw [h.contains_iff.2 ⟨guard, q, hguard, hsame⟩] at hfree
    cases hfree
  refine ⟨fun q => ?_, fun guard other q r hq hr hsame => ?_, ?_⟩
  · simp only [hpaths, hpath, List.mem_cons, h.mem_paths]
    constructor
    · rintro (rfl | ⟨guard, hguard⟩)
      · exact ⟨_, .inl ⟨rfl, rfl⟩⟩
      · exact ⟨guard, .inr hguard⟩
    · rintro ⟨guard, ⟨rfl, _⟩ | hguard⟩
      · exact .inl rfl
      · exact .inr ⟨guard, hguard⟩
  · rcases (hpath guard q).1 hq with ⟨rfl, hlast⟩ | hq
    · rcases (hpath other r).1 hr with ⟨_, hlast'⟩ | hr
      · exact hlast.symm.trans hlast'
      · exact absurd hsame (hnew other r hr)
    · rcases (hpath other r).1 hr with ⟨rfl, _⟩ | hr
      · exact absurd hsame.symm (hnew guard q hq)
      · exact h.guard_unique guard other q r hq hr hsame
  · rw [hpaths, List.pairwise_cons]
    refine ⟨fun q hq => ?_, h.apart⟩
    obtain ⟨guard, hguard⟩ := (h.mem_paths q).1 hq
    exact hnew guard q hguard

theorem Tracks.release (h : Tracks t) (guard : Nat) : Tracks (t.release guard) := by
  cases hguard : t.path? guard with
  | none =>
    rw [release_of_none hguard]
    exact h
  | some p =>
    have hpaths : (t.release guard).inFlight.paths = t.inFlight.paths.filter fun q =>
        !p.same q := by
      rw [release_of_some hguard, InFlight.release]
    have hpath : ∀ other q, (t.release guard).path? other = some q ↔
        other ≠ guard ∧ t.path? other = some q := by
      intro other q
      rw [path?_release]
      split_ifs with heq
      · simp [heq]
      · simp [heq]
    refine ⟨fun q => ?_, fun other another q r hq hr => ?_, ?_⟩
    · simp only [hpaths, hpath, List.mem_filter, h.mem_paths, Bool.not_eq_true',
        ← Bool.not_eq_true, Path.same_iff]
      constructor
      · rintro ⟨⟨other, hother⟩, hne⟩
        refine ⟨other, ?_, hother⟩
        rintro rfl
        rw [hguard] at hother
        cases hother
        exact hne rfl
      · -- Only the released guard has a path with these components.
        rintro ⟨other, hne, hother⟩
        exact ⟨⟨other, hother⟩,
          fun hsame => hne (h.guard_unique guard other p q hguard hother hsame).symm⟩
    · exact h.guard_unique other another q r ((hpath other q).1 hq).2 ((hpath another r).1 hr).2
    · rw [hpaths]
      exact h.apart.filter _

theorem Tracks.after (h : Tracks t) (e : Event) : Tracks (t.after e) := by
  cases e with
  | release guard => exact h.release guard
  | enter p =>
    rw [GuardTable.after]
    cases henter : t.enter? p with
    | none => exact h
    | some t' => exact h.enter? henter

theorem tracks_ofHistory (history : List Event) : Tracks (ofHistory history) := by
  induction history using List.reverseRecOn with
  | nil => exact tracks_empty
  | append_singleton history e ih =>
    rw [ofHistory_append]
    exact ih.after e

/-- There are as many paths in flight as guards are held. -/
theorem Tracks.size_eq (h : Tracks t) :
    t.inFlight.size = Set.ncard {guard | ∃ p, t.path? guard = some p} := by
  have hinj : Set.InjOn t.path? {guard | ∃ p, t.path? guard = some p} := by
    rintro guard ⟨p, hp⟩ other _ heq
    exact h.guard_unique guard other p p hp (heq ▸ hp) rfl
  have himage : t.path? '' {guard | ∃ p, t.path? guard = some p} =
      ((t.inFlight.paths.map some).toFinset : Set (Option Path)) := by
    ext found
    simp only [Set.mem_image, Set.mem_ofPred_eq, SetLike.mem_coe, List.mem_toFinset, List.mem_map,
      h.mem_paths]
    constructor
    · rintro ⟨guard, ⟨p, hp⟩, rfl⟩
      exact ⟨p, ⟨guard, hp⟩, hp.symm⟩
    · rintro ⟨p, ⟨guard, hp⟩, rfl⟩
      exact ⟨guard, ⟨p, hp⟩, hp⟩
  have hnodup : (t.inFlight.paths.map some).Nodup := by
    refine List.Nodup.map (Option.some_injective Path) (h.apart.imp fun hne heq => ?_)
    exact hne (congrArg Path.components heq)
  rw [← hinj.ncard_image, himage, Set.ncard_coe_finset, List.toFinset_card_of_nodup hnodup,
    List.length_map]
  rfl

/-- After every history:

* The paths in flight are the paths of the guards that are held, and the table knows which these
  are.
* No two guards are held for paths with the same components.
* There are as many paths in flight as guards are held.
* An entry is refused exactly when a guard is held for a path with the same components, and then
  the table stays as it is. -/
theorem inFlight_tracks_guards (history : List Event) :
    (∀ p, p ∈ (ofHistory history).inFlight.paths ↔ ∃ guard, Holds history guard p) ∧
      (∀ guard, (ofHistory history).holds guard = true ↔ ∃ p, Holds history guard p) ∧
      (∀ guard other p q, Holds history guard p → Holds history other q →
        p.components = q.components → guard = other) ∧
      (ofHistory history).inFlight.size = Set.ncard {guard | ∃ p, Holds history guard p} ∧
      ∀ p, ((ofHistory history).enter? p = none ↔
          ∃ guard q, Holds history guard q ∧ p.components = q.components) ∧
        ((ofHistory history).enter? p = none → ofHistory (history ++ [.enter p]) =
          ofHistory history) := by
  have htracks := tracks_ofHistory history
  simp only [← path?_ofHistory]
  refine ⟨htracks.mem_paths, fun guard => holds_iff, htracks.guard_unique, htracks.size_eq,
    fun p => ?_⟩
  refine ⟨?_, fun hrefused => ?_⟩
  · rw [enter?_eq_none_iff, htracks.contains_iff]
  · rw [ofHistory_append, after, hrefused, Option.getD_none]

end GuardTable

end StyleBundle
