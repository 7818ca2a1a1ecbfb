import Mathlib.Data.Finset.Card
import Mathlib.Data.List.Induction
import StyleBundle.Proofs.Build.Manifest
import StyleBundle.Proofs.Json.ReadBack
import StyleBundle.Proofs.Text.Bytes

/-!
# The text of a manifest

The records of a manifest are in the order of their keys, whatever the order in which they were
set (`Manifest.sorted_ofSteps`), and the one that was set last under a key is the one that is
found there (`Manifest.get?_ofSteps`).  So a manifest is given by what is found under each key
(`Manifest.eq_of_get?`).

The text of a manifest is read back record by record (`Manifest.spells_record`).  The members of
each record change places, because the reader puts names in order; the keys are in order already
(`Json.Sorted.members_eq`).
-/

namespace StyleBundle

namespace Json

section Sorted

variable {α : Type} {members : List (Text × α)}

theorem find?_insertMember (name other : Text) (value : α) (members : List (Text × α)) :
    (insertMember name value members).find? (fun member => member.1 == other) =
      if name = other then some (name, value)
      else members.find? fun member => member.1 == other := by
  induction members with
  | nil => by_cases h : name = other <;> simp [insertMember, h]
  | cons member rest ih =>
    obtain ⟨first, kept⟩ := member
    by_cases h : name = other
    · subst h
      rw [if_pos rfl] at ih ⊢
      rw [insertMember]
      split_ifs with hsame
      · simp
      · simp
      · simp [ih, Ne.symm hsame]
    · rw [if_neg h] at ih ⊢
      rw [insertMember]
      split_ifs with hsame
      · subst hsame
        simp [h]
      · simp [h]
      · rw [List.find?_cons, List.find?_cons, ih]

theorem insertMember_of_lt {name : Text} (value : α)
    (h : ∀ member ∈ members, Text.le member.1 name = true ∧ member.1 ≠ name) :
    insertMember name value members = members ++ [(name, value)] := by
  induction members with
  | nil => rfl
  | cons member rest ih =>
    obtain ⟨hle, hne⟩ := h member List.mem_cons_self
    have hnot : ¬ Text.le name member.1 = true := fun hle' => hne (Text.le_antisymm hle hle')
    rw [insertMember, if_neg hne.symm, if_neg hnot,
      ih fun m hm => h m (List.mem_cons_of_mem _ hm)]
    rfl

/-- Members in order stay as they are. -/
theorem Sorted.members_eq (h : Sorted members) : Json.members members = members := by
  -- Every later name is greater than all that were inserted, so it goes to the end.
  have hfold : ∀ rest front : List (Text × α), Sorted (front ++ rest) →
      rest.foldl (fun sofar member => Json.insertMember member.1 member.2 sofar) front =
        front ++ rest := by
    intro rest
    induction rest with
    | nil => exact fun front _ => (List.append_nil front).symm
    | cons member rest ih =>
      intro front hsorted
      have hlast : Json.insertMember member.1 member.2 front = front ++ [member] :=
        insertMember_of_lt member.2 fun m hm =>
          (List.pairwise_append.1 hsorted).2.2 m hm member List.mem_cons_self
      rw [List.foldl_cons, hlast, ih _ (by simpa using hsorted), List.append_assoc]
      rfl
  exact hfold members [] h

/-- What is found under a name. -/
theorem Sorted.mem_iff (h : Sorted members) {name : Text} {value : α} :
    (name, value) ∈ members ↔
      (members.find? fun other => other.1 == name).map Prod.snd = some value := by
  rw [Option.map_eq_some_iff]
  constructor
  · intro hmem
    have hsome : (members.find? fun other => other.1 == name).isSome :=
      List.find?_isSome.2 ⟨(name, value), hmem, beq_self_eq_true name⟩
    obtain ⟨found, hfound⟩ := Option.isSome_iff_exists.1 hsome
    have hname := List.find?_some hfound
    rw [beq_iff_eq] at hname
    have hsame := List.inj_on_of_nodup_map h.nodup (List.mem_of_find?_eq_some hfound) hmem hname
    exact ⟨found, hfound, hsame ▸ rfl⟩
  · rintro ⟨found, hfound, rfl⟩
    have hname := List.find?_some hfound
    rw [beq_iff_eq] at hname
    exact hname ▸ List.mem_of_find?_eq_some hfound

theorem Sorted.ext {a b : List (Text × α)} (ha : Sorted a) (hb : Sorted b)
    (h : ∀ member, member ∈ a ↔ member ∈ b) : a = b := by
  have hperm : a.Perm b := (List.perm_ext_iff_of_nodup ha.nodup.of_map hb.nodup.of_map).2 h
  refine hperm.eq_of_pairwise (fun x y _ _ hxy hyx => ?_) ha hb
  exact absurd (Text.le_antisymm hxy.1 hyx.1) hxy.2

end Sorted

end Json

namespace Manifest

/-! ## Records set one after the other -/

/-- The manifest after records were set one after the other. -/
def ofSteps (steps : List (Text × ManifestRecord)) : Manifest :=
  steps.foldl (fun m step => m.insert step.1 step.2) empty

/-- The record that was set last under a key. -/
def lastSet? (steps : List (Text × ManifestRecord)) (key : Text) : Option ManifestRecord :=
  (steps.reverse.find? fun step => step.1 == key).map Prod.snd

section Steps

variable {m m' : Manifest} (steps : List (Text × ManifestRecord))

theorem ofSteps_concat (step : Text × ManifestRecord) :
    ofSteps (steps ++ [step]) = (ofSteps steps).insert step.1 step.2 := by
  rw [ofSteps, List.foldl_append]
  rfl

theorem lastSet?_concat (step : Text × ManifestRecord) (key : Text) :
    lastSet? (steps ++ [step]) key =
      if step.1 = key then some step.2 else lastSet? steps key := by
  rw [lastSet?, List.reverse_append, List.reverse_singleton, List.singleton_append,
    List.find?_cons]
  by_cases h : step.1 = key
  · simp [h]
  · rw [if_neg h, beq_false_of_ne h]
    rfl

theorem get?_insert (m : Manifest) (key other : Text) (record : ManifestRecord) :
    (m.insert key record).get? other = if key = other then some record else m.get? other := by
  have hfind := Json.find?_insertMember key other record m.records
  change ((Json.insertMember key record m.records).find? fun member => member.1 == other).map _ =
    _
  rw [hfind]
  split_ifs <;> rfl

theorem get?_ofSteps (key : Text) : (ofSteps steps).get? key = lastSet? steps key := by
  induction steps using List.reverseRecOn with
  | nil => rfl
  | append_singleton steps step ih => rw [ofSteps_concat, get?_insert, lastSet?_concat, ih]

theorem sorted_ofSteps : Json.Sorted (ofSteps steps).records := by
  induction steps using List.reverseRecOn with
  | nil => exact .nil
  | append_singleton steps step ih =>
    rw [ofSteps_concat]
    exact ih.insertMember step.1 step.2

theorem mem_keys_ofSteps {key : Text} :
    key ∈ (ofSteps steps).keys ↔ key ∈ steps.map Prod.fst := by
  induction steps using List.reverseRecOn with
  | nil => rfl
  | append_singleton steps step ih =>
    rw [ofSteps_concat, List.map_append, List.mem_append, ← ih, List.map_singleton,
      List.mem_singleton, or_comm]
    exact Json.mem_names_insertMember

theorem size_ofSteps : (ofSteps steps).size = (steps.map Prod.fst).toFinset.card := by
  have hkeys : (ofSteps steps).keys.toFinset = (steps.map Prod.fst).toFinset := by
    ext key
    rw [List.mem_toFinset, List.mem_toFinset, mem_keys_ofSteps]
  have hnodup : (ofSteps steps).keys.Nodup := (sorted_ofSteps steps).nodup
  rw [← hkeys, List.toFinset_card_of_nodup hnodup, size_eq]

/-- Manifests in order in which the same is found under each key are the same. -/
theorem eq_of_get? (hm : Json.Sorted m.records) (hm' : Json.Sorted m'.records)
    (h : ∀ key, m.get? key = m'.get? key) : m = m' := by
  have hrecords : m.records = m'.records := by
    refine hm.ext hm' fun record => ?_
    rw [hm.mem_iff, hm'.mem_iff]
    exact (congrArg (· = some record.2) (h record.1)).to_iff
  exact congrArg Manifest.mk hrecords

end Steps

/-! ## Reading the text -/

/-- A record as it is read, with its members in order. -/
def recordValue (r : ManifestRecord) : Json :=
  .object [("dependencies".toList, .array (r.dependencies.map .string)),
    ("source".toList, .string r.source)]

theorem recordValue_injective : Function.Injective recordValue := by
  rintro ⟨source, dependencies⟩ ⟨source', dependencies'⟩ h
  have hstring : Function.Injective Json.string := fun _ _ heq => Json.string.inj heq
  have hmembers : dependencies.map Json.string = dependencies'.map Json.string ∧
      source = source' := by
    simpa [recordValue] using h
  rw [List.map_injective_iff.2 hstring hmembers.1, hmembers.2]

theorem spells_record (depth level : Nat) (r : ManifestRecord) :
    Json.Spells (depth + 2) (Json.prettyAt level (recordJson r)) (recordValue r) := by
  have hdependencies : Json.Spells (depth + 1)
      (Json.prettyAt (level + 1) (.array (r.dependencies.map .string)))
      (.array (r.dependencies.map .string)) := by
    refine Json.spells_array (List.forall₂_same.2 fun value hvalue => ?_)
    obtain ⟨t, -, rfl⟩ := List.mem_map.1 hvalue
    simpa [Json.prettyAt, Json.compact] using Json.spells_quote depth t
  have hsource : Json.Spells (depth + 1) (Json.prettyAt (level + 1) (.string r.source))
      (.string r.source) := by
    simpa [Json.prettyAt, Json.compact] using Json.spells_quote (depth + 1) r.source
  exact Json.spells_object (.cons ⟨rfl, hsource⟩ (.cons ⟨rfl, hdependencies⟩ .nil))

/-- The members of a manifest as they are read. -/
def members (m : Manifest) : List (Text × Json) :=
  m.records.map fun record => (record.1, recordValue record.2)

theorem spells_members (m : Manifest) (depth level : Nat) :
    List.Forall₂ (fun v w => v.1 = w.1 ∧
      Json.Spells (depth + 2) (Json.prettyAt (level + 1) v.2) w.2)
      (m.records.map fun record => (record.1, recordJson record.2)) m.members := by
  rw [members, List.forall₂_map_left_iff, List.forall₂_map_right_iff, List.forall₂_same]
  exact fun record _ => ⟨rfl, spells_record depth (level + 1) record.2⟩

theorem written?_text (m : Manifest) : Json.written? m.text = some m.members :=
  Json.written?_pretty (m.spells_members 124 0)

theorem parse?_text {m : Manifest} (h : Json.Sorted m.records) :
    Json.parse? m.text = some (.object m.members) := by
  have hsorted : Json.Sorted m.members := List.pairwise_map.2 h
  have hread := Json.parse?_of_spells (Json.spells_object (m.spells_members 124 0))
  rwa [Json.ofPairs, hsorted.members_eq] at hread

theorem get?_members (m : Manifest) (key : Text) :
    Json.get? key (.object m.members) = (m.get? key).map recordValue := by
  change (m.members.find? fun member => member.1 == key).map Prod.snd = _
  rw [members, List.find?_map, Option.map_map, get?, Option.map_map]
  rfl

/-- The text of a manifest stands for the records that were set last: it is read as an object with
one of them under each key, its keys are in the order of their bytes, and other steps lead to the
same text just if they leave the same records.  The records that are found and counted are these
too. -/
theorem text_ofSteps (steps : List (Text × ManifestRecord)) :
    (∃ members : List (Text × Json),
      Json.parse? (ofSteps steps).text = some (.object members) ∧
      Json.written? (ofSteps steps).text = some members ∧
      (members.map Prod.fst).Pairwise (fun a b => a.bytes < b.bytes) ∧
      ∀ key, Json.get? key (.object members) = (lastSet? steps key).map recordValue) ∧
    (∀ key, (ofSteps steps).get? key = lastSet? steps key) ∧
    (ofSteps steps).size = (steps.map Prod.fst).toFinset.card ∧
    ∀ steps', (ofSteps steps').text = (ofSteps steps).text ↔
      ∀ key, lastSet? steps' key = lastSet? steps key := by
  have hget : ∀ steps key, Json.get? key (.object (ofSteps steps).members) =
      (lastSet? steps key).map recordValue := fun steps key => by rw [get?_members, get?_ofSteps]
  refine ⟨⟨(ofSteps steps).members, parse?_text (sorted_ofSteps steps), written?_text _, ?_,
    hget steps⟩,
    get?_ofSteps steps, size_ofSteps steps, fun steps' => ⟨fun htext key => ?_, fun hlast => ?_⟩⟩
  · rw [members, List.map_map, List.pairwise_map]
    exact (sorted_ofSteps steps).imp fun hlt => Text.bytes_lt hlt.1 hlt.2
  · -- Reading is a function of the text alone.
    have hread : some (Json.object (ofSteps steps').members) =
        some (.object (ofSteps steps).members) := by
      rw [← parse?_text (sorted_ofSteps steps'), htext, parse?_text (sorted_ofSteps steps)]
    refine Option.map_injective recordValue_injective ?_
    rw [← hget, ← hget, Option.some.inj hread]
  · refine congrArg text (eq_of_get? (sorted_ofSteps steps') (sorted_ofSteps steps) fun key => ?_)
    rw [get?_ofSteps, get?_ofSteps, hlast]

end Manifest

end StyleBundle
