import StyleBundle.Proofs.Build.Runs

/-!
# How many records a manifest has

A record under a new key adds one record (`Manifest.keys_insert_perm`), so stylesheets with
different keys have one record each (`Manifest.size_foldl_insert`).  The key of a stylesheet tells
its names below the output directory, unless there is a backslash in one of them
(`BuildUnit.LiesAt.components_key`).
-/

namespace StyleBundle

theorem Json.insertMember_perm {α : Type} {name : Text} (value : α) {members : List (Text × α)}
    (h : name ∉ members.map Prod.fst) :
    (insertMember name value members).Perm ((name, value) :: members) := by
  induction members with
  | nil => exact .refl _
  | cons member rest ih =>
    obtain ⟨other, kept⟩ := member
    rw [List.map_cons, List.mem_cons, not_or] at h
    rw [insertMember, if_neg h.1]
    split_ifs
    · exact .refl _
    · exact ((ih h.2).cons _).trans (.swap _ _ _)

namespace Manifest

variable {m : Manifest}

/-- The keys of the records, in the order in which they are kept. -/
def keys (m : Manifest) : List Text :=
  m.records.map Prod.fst

theorem keys_insert_perm {key : Text} (h : key ∉ m.keys) (record : ManifestRecord) :
    (m.insert key record).keys.Perm (key :: m.keys) :=
  (Json.insertMember_perm record h).map Prod.fst

theorem size_eq (m : Manifest) : m.size = m.keys.length := by
  rw [size, keys, List.length_map]

/-- Records under different new keys are all kept. -/
theorem size_foldl_insert {α : Type} (key : α → Text) (record : α → ManifestRecord)
    {items : List α} (hnew : ∀ a ∈ items, key a ∉ m.keys)
    (hkeys : items.Pairwise fun a b => key a ≠ key b) :
    (items.foldl (fun m a => m.insert (key a) (record a)) m).size = m.size + items.length := by
  induction items generalizing m with
  | nil => rfl
  | cons a items ih =>
    rw [List.pairwise_cons] at hkeys
    have hperm := keys_insert_perm (hnew a List.mem_cons_self) (record a)
    rw [List.foldl_cons, ih ?_ hkeys.2]
    · rw [size_eq, size_eq, hperm.length_eq, List.length_cons, List.length_cons]
      omega
    · intro c hc
      rw [hperm.mem_iff, List.mem_cons, not_or]
      exact ⟨(hkeys.1 c hc).symm, hnew c (List.mem_cons_of_mem _ hc)⟩

end Manifest

namespace BuildReport

/-- The outputs of a report are the outcomes that are outputs, in order. -/
theorem outputs_foldl_record (outcomes : List (Except EntryFailure BuiltOutput))
    (r : BuildReport) :
    (outcomes.foldl record r).outputs = r.outputs ++ outcomes.filterMap Except.toOption := by
  induction outcomes generalizing r with
  | nil => simp
  | cons outcome outcomes ih =>
    rw [List.foldl_cons, ih]
    cases outcome with
    | ok output => simp [record, Except.toOption]
    | error failure => rw [List.filterMap_cons_none rfl, record]

end BuildReport

namespace BuildUnit

variable {b : BuildPlan} {u v : BuildUnit} {s s' : Spot}

/-- The names of a stylesheet can be read from its key. -/
theorem LiesAt.components_key (h : u.LiesAt b s) (hroot : b.layout.root.isAbsolute = true)
    (hsource : '\\' ∉ (u.source b).text) :
    (Path.mk (b.layout.key (u.cssPath b))).components = s.css.map .normal := by
  have hnames : ∀ name ∈ s.css, '\\' ∉ name := by
    have hstem : '\\' ∉ s.stem := fun hc => hsource (h.chars _ List.mem_cons_self _ hc)
    intro name hname
    simp only [Spot.css, List.cons_append, List.mem_cons, List.mem_append, List.not_mem_nil,
      or_false] at hname
    rcases hname with rfl | hname | rfl
    · rcases h.kind with hkind | hkind <;> rw [hkind] <;> decide
    · exact fun hc => hsource (h.chars name (List.mem_cons_of_mem _ hname) _ hc)
    · rw [List.mem_append, not_or]
      exact ⟨hstem, by decide⟩
  obtain ⟨r, hr, hrest⟩ := Path.exists_stripPrefix? hroot h.components_css (by simp [Spot.css])
  have hback : '\\' ∉ r.text := by
    intro hmem
    rcases hrest.chars _ hmem with heq | heq | ⟨name, hname, hc⟩
    · exact absurd heq (by decide)
    · exact absurd heq (by decide)
    · exact hnames name hname hc
  rw [Layout.key, hr, Option.getD_some, Path.display, Text.slashed_of_notMem hback]
  exact hrest.components

/-- Units that are apart have different keys. -/
theorem Apart.key_ne (h : Apart b u v) (hroot : b.layout.root.isAbsolute = true)
    (hu : u.LiesAt b s) (hv : v.LiesAt b s') (husource : '\\' ∉ (u.source b).text)
    (hvsource : '\\' ∉ (v.source b).text) :
    b.layout.key (u.cssPath b) ≠ b.layout.key (v.cssPath b) := by
  intro hsame
  have hcomponents := hu.components_key hroot husource
  rw [hsame, hv.components_key hroot hvsource] at hcomponents
  have hcss : s'.css = s.css := (List.map_inj_right fun _ _ => Component.normal.inj).1 hcomponents
  refine h (u.cssPath b) (by simp [written]) (v.cssPath b) (by simp [written]) ?_
  exact (Path.normalize_eq_iff_of_names hu.components_css hv.components_css).2 hcss.symm

end BuildUnit

namespace BuildPlan

variable {b : BuildPlan} {units : List BuildUnit} {d d' : Disk}

/-- The stylesheets that were written are stylesheets of units, in order. -/
theorem outputs_sublist {outcomes : List (Except EntryFailure BuiltOutput)}
    (hlies : ∀ u ∈ units, ∃ s, u.LiesAt b s)
    (h : units.mapM (BuildUnit.attempt b) d = .ok outcomes d') :
    ((outcomes.filterMap Except.toOption).map BuiltOutput.cssPath).Sublist
      (units.map (BuildUnit.cssPath b)) := by
  have hpairs := forall₂_of_mapM_ok h
  clear h
  induction hpairs with
  | nil => exact .slnil
  | @cons u outcome units outcomes hrun _ ih =>
    have hrest := ih fun v hv => hlies v (List.mem_cons_of_mem _ hv)
    cases outcome with
    | error failure =>
      rw [List.filterMap_cons_none rfl]
      exact hrest.cons _
    | ok output =>
      obtain ⟨before, after, hrun⟩ := hrun
      obtain ⟨s, hs⟩ := hlies u List.mem_cons_self
      have hok : (Except.ok output : Except EntryFailure BuiltOutput).toOption =
          some output := rfl
      rw [List.filterMap_cons_some hok, List.map_cons, List.map_cons,
        (BuildUnit.of_step_ok hs (BuildUnit.step_of_attempt hrun)).1]
      exact hrest.cons_cons _

end BuildPlan

end StyleBundle
