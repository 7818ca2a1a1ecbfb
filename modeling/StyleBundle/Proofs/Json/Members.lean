import StyleBundle.Json.Parser
import StyleBundle.Proofs.Text.Order

/-!
# Members of objects

The members of an object that is read are in the order of their names, and no name is there twice
(`Json.distinct_of_parse?`).  Such an object is given by its names and by the value under each of
them (`Json.members_eq_of_get?`).
-/

namespace StyleBundle

namespace Json

section Insertion

variable {α : Type} {name : Text} {value : α} {members : List (Text × α)}

theorem mem_of_mem_insertMember {member : Text × α}
    (h : member ∈ insertMember name value members) :
    member = (name, value) ∨ member ∈ members := by
  induction members with
  | nil => exact .inl (List.mem_singleton.1 h)
  | cons other rest ih =>
    obtain ⟨other, kept⟩ := other
    rw [insertMember] at h
    split_ifs at h
    · exact (List.mem_cons.1 h).imp_right (List.mem_cons_of_mem _)
    · exact List.mem_cons.1 h
    · rcases List.mem_cons.1 h with rfl | h
      · exact .inr List.mem_cons_self
      · exact (ih h).imp_right (List.mem_cons_of_mem _)

theorem mem_names_insertMember {other : Text} :
    other ∈ (insertMember name value members).map Prod.fst ↔
      other = name ∨ other ∈ members.map Prod.fst := by
  induction members with
  | nil => simp [insertMember]
  | cons member rest ih =>
    obtain ⟨first, kept⟩ := member
    rw [insertMember]
    split_ifs with hsame
    · simp [hsame]
    · simp
    · simp only [List.map_cons, List.mem_cons, ih]
      tauto

/-- The names are in order and different. -/
def Sorted (members : List (Text × α)) : Prop :=
  members.Pairwise fun a b => Text.le a.1 b.1 = true ∧ a.1 ≠ b.1

theorem Sorted.insertMember (h : Sorted members) (name : Text) (value : α) :
    Sorted (insertMember name value members) := by
  induction members with
  | nil => exact List.pairwise_singleton _ _
  | cons member rest ih =>
    obtain ⟨other, kept⟩ := member
    obtain ⟨hother, hrest⟩ := List.pairwise_cons.1 h
    rw [Json.insertMember]
    split_ifs with hsame hle
    · subst hsame
      exact List.pairwise_cons.2 ⟨hother, hrest⟩
    · refine List.pairwise_cons.2 ⟨fun next hnext => ?_, h⟩
      rcases List.mem_cons.1 hnext with rfl | hnext
      · exact ⟨hle, hsame⟩
      · obtain ⟨hnextLe, hnextNe⟩ := hother next hnext
        refine ⟨Text.le_trans hle hnextLe, fun heq => hnextNe ?_⟩
        exact Text.le_antisymm hnextLe (heq ▸ hle)
    · refine List.pairwise_cons.2 ⟨fun next hnext => ?_, ih hrest⟩
      rcases mem_of_mem_insertMember hnext with rfl | hnext
      · exact ⟨(Text.le_total other name).resolve_right hle, Ne.symm hsame⟩
      · exact hother next hnext

theorem sorted_members (pairs : List (Text × α)) : Sorted (Json.members pairs) := by
  have hfold : ∀ sofar : List (Text × α), Sorted sofar →
      Sorted (pairs.foldl (fun sofar pair => Json.insertMember pair.1 pair.2 sofar) sofar) := by
    induction pairs with
    | nil => exact fun _ h => h
    | cons pair pairs ih => exact fun sofar h => ih _ (h.insertMember pair.1 pair.2)
  exact hfold [] List.Pairwise.nil

theorem Sorted.nodup (h : Sorted members) : (members.map Prod.fst).Nodup :=
  List.pairwise_map.2 (h.imp And.right)

end Insertion

/-! ## Objects that are read -/

/-- An object has no name twice. -/
def Distinct : Json → Prop
  | .object members => (members.map Prod.fst).Nodup
  | _ => True

theorem distinct_of_objectBody {item : Text → Option (Json × Text)} {t rest : Text} {value : Json}
    (h : objectBody item t = some (value, rest)) : value.Distinct := by
  rw [objectBody] at h
  split at h
  · cases h
    exact List.nodup_nil
  · obtain ⟨⟨values, rest'⟩, -, heq⟩ := Option.map_eq_some_iff.1 h
    cases heq
    exact (sorted_members values).nodup

theorem distinct_of_value? {depth : Nat} {t rest : Text} {value : Json}
    (h : value? depth t = some (value, rest)) : value.Distinct := by
  have hword : ∀ {word t : Text} {known : Json},
      word? word known t = some (value, rest) → known = value := by
    intro word t known hread
    obtain ⟨_, -, heq⟩ := Option.map_eq_some_iff.1 hread
    exact (Prod.mk.inj heq).1
  rw [value?] at h
  split at h
  · exact hword h ▸ trivial
  · exact hword h ▸ trivial
  · exact hword h ▸ trivial
  · obtain ⟨_, -, heq⟩ := Option.map_eq_some_iff.1 h
    cases heq
    trivial
  · cases depth with
    | zero => cases h
    | succ depth =>
      simp only [arrayBody] at h
      split at h
      · cases h
        trivial
      · obtain ⟨_, -, heq⟩ := Option.map_eq_some_iff.1 h
        cases heq
        trivial
  · cases depth with
    | zero => cases h
    | succ depth => exact distinct_of_objectBody h
  · obtain ⟨_, -, heq⟩ := Option.map_eq_some_iff.1 h
    cases heq
    trivial

theorem distinct_of_parse? {t : Text} {value : Json} (h : parse? t = some value) :
    value.Distinct := by
  rw [parse?, Option.bind_eq_bind, Option.bind_eq_some_iff] at h
  obtain ⟨⟨read, rest⟩, hread, h⟩ := h
  obtain ⟨-, rfl⟩ : skipSpace rest = [] ∧ read = value := by simpa using h
  exact distinct_of_value? hread

/-! ## The value under a name -/

/-- The names of an object in their order. -/
def names? : Json → Option (List Text)
  | .object members => some (members.map Prod.fst)
  | _ => none

theorem get?_map (f : Text → Json → Json) (members : List (Text × Json)) (name : Text) :
    get? name (.object (members.map fun member => (member.1, f member.1 member.2))) =
      (get? name (.object members)).map (f name) := by
  induction members with
  | nil => rfl
  | cons member members ih =>
    obtain ⟨other, value⟩ := member
    simp only [get?, List.map_cons, List.find?_cons] at ih ⊢
    cases hother : other == name with
    | true => rw [eq_of_beq hother]; rfl
    | false => exact ih

theorem get?_of_mem {members : List (Text × Json)} (hnodup : (members.map Prod.fst).Nodup)
    {name : Text} {value : Json} (h : (name, value) ∈ members) :
    get? name (.object members) = some value := by
  induction members with
  | nil => cases h
  | cons member members ih =>
    obtain ⟨hnew, hrest⟩ := List.nodup_cons.1 hnodup
    simp only [get?, List.find?_cons] at ih ⊢
    rcases List.mem_cons.1 h with rfl | h
    · simp
    · have hne : member.1 ≠ name := by
        rintro rfl
        exact hnew (List.mem_map.2 ⟨_, h, rfl⟩)
      rw [beq_false_of_ne hne]
      exact ih hrest h

theorem members_eq_of_get? {a b : List (Text × Json)} (hnodup : (a.map Prod.fst).Nodup)
    (hnames : a.map Prod.fst = b.map Prod.fst)
    (h : ∀ name, get? name (.object a) = get? name (.object b)) : a = b := by
  have hlength : a.length = b.length := by simpa using congrArg List.length hnames
  refine List.ext_getElem hlength fun i hi hi' => ?_
  have hname : a[i].1 = b[i].1 := by
    have hget := congrArg (·[i]?) hnames
    simpa [hi, hi'] using hget
  have ha : get? a[i].1 (.object a) = some a[i].2 := get?_of_mem hnodup (List.getElem_mem hi)
  have hb : get? b[i].1 (.object b) = some b[i].2 :=
    get?_of_mem (hnames ▸ hnodup) (List.getElem_mem hi')
  rw [h, hname, hb] at ha
  exact Prod.ext hname (Option.some.inj ha).symm

end Json

end StyleBundle
