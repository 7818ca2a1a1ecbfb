import Mathlib.Data.List.Induction
import StyleBundle.Proofs.Path.Joining
import StyleBundle.Proofs.Resolve.Settings

/-!
# Settings that are built again

Building a draft checks the root, then the aliases, then the mappings, and the first fault that it
meets is the error (`Settings.Draft.build_eq`).  What it gives otherwise is settled: every
directory is absolute and normal, and of directories that are the same the first one is kept
(`Path.firsts`).  The settings can be written down as a draft (`Settings.toDraft`), and building
this draft gives the settings back.
-/

namespace StyleBundle

namespace Path

/-! ## First occurrences -/

/-- The paths in front of which no path of the list is the same, in their order. -/
def firsts (paths : List Path) : List Path :=
  (paths.zipIdx.filter fun q => !q.1.isIn (paths.take q.2)).map Prod.fst

theorem firsts_concat (paths : List Path) (p : Path) :
    firsts (paths ++ [p]) = firsts paths ++ if p.isIn paths then [] else [p] := by
  -- What stands in front of an earlier path is not changed by one more path at the end.
  have hearlier : paths.zipIdx.filter (fun q => !q.1.isIn ((paths ++ [p]).take q.2)) =
      paths.zipIdx.filter fun q => !q.1.isIn (paths.take q.2) := by
    refine List.filter_congr fun q hq => ?_
    have hindex : q.2 < paths.length := by simpa using List.snd_lt_of_mem_zipIdx hq
    rw [List.take_append_of_le_length (Nat.le_of_lt hindex)]
  rw [firsts, List.zipIdx_append, List.filter_append, List.map_append, hearlier, ← firsts]
  cases hp : p.isIn paths with
  | true => simp [hp]
  | false => simp [hp]

theorem dedup_concat (paths : List Path) (p : Path) :
    dedup (paths ++ [p]) = dedup paths ++ if p.isIn paths then [] else [p] := by
  have hkept : p.isIn (paths.foldl keep []) = p.isIn paths := by
    rw [Bool.eq_iff_iff, isIn_foldl_keep]
    simp [isIn]
  rw [dedup_eq_foldl, List.foldl_concat, dedup_eq_foldl]
  cases hp : p.isIn paths with
  | true => rw [keep_of_isIn (hkept.trans hp), if_pos rfl, List.append_nil]
  | false => rw [keep_of_not_isIn (hkept.trans hp), List.reverse_cons, if_neg (by simp)]

theorem dedup_eq_firsts (paths : List Path) : dedup paths = firsts paths := by
  induction paths using List.reverseRecOn with
  | nil => rfl
  | append_singleton paths p ih => rw [dedup_concat, firsts_concat, ih]

/-! ## Settled directories -/

/-- An absolute path that is spelled without anything to fold. -/
structure Settled (p : Path) : Prop extends Folded p where
  isAbsolute : p.isAbsolute = true
  normalize_eq : p.normalize = p
  parent_notMem : .parent ∉ p.components

theorem settled_normalize {p : Path} (h : p.isAbsolute = true) : p.normalize.Settled where
  toFolded := folded_normalize p
  isAbsolute := by rw [isAbsolute_normalize, h]
  normalize_eq := normalize_normalize p
  parent_notMem := parent_notMem_normalize h

theorem settled_resolveIn {root : Path} (h : root.isAbsolute = true) (p : Path) :
    (root.resolveIn p).Settled :=
  settled_normalize (isAbsolute_join h p)

/-- A settled directory does not depend on where it is seen from. -/
theorem Settled.resolveIn_eq {p : Path} (h : p.Settled) (root : Path) : root.resolveIn p = p := by
  rw [resolveIn, join, if_pos h.isAbsolute, h.normalize_eq]

theorem map_resolveIn_of_settled (root : Path) {paths : List Path} (h : ∀ p ∈ paths, p.Settled) :
    paths.map root.resolveIn = paths := by
  rw [List.map_congr_left fun p hp => (h p hp).resolveIn_eq root]
  exact List.map_id' paths

end Path

namespace Settings

/-! ## The first fault -/

/-- Whether an alias would replace the empty start of every import. -/
def isEmptyAlias (pair : Text × Text) : Bool :=
  pair.1 == []

/-- Whether the pattern of a mapping is refused. -/
def isRefused (pair : Text × Text) : Bool :=
  (Wildcard.compile? pair.1).isNone

theorem buildAliases_eq (pairs : List (Text × Text)) :
    buildAliases pairs = (pairs.find? isEmptyAlias).elim (.ok (pairs.map fun a => ⟨a.1, a.2⟩))
      fun _ => .error .emptyAlias := by
  refine mapM_eq_elim_find? (fun pair => ?_) pairs
  by_cases hlead : pair.1 = []
  · simp [isEmptyAlias, hlead]
  · simp [isEmptyAlias, hlead]

theorem buildMappings_eq (pairs : List (Text × Text)) :
    buildMappings pairs = (pairs.find? isRefused).elim (.ok (pairs.map fun m => ⟨⟨m.1⟩, m.2⟩))
      fun m => .error (.patternTooLarge m.1) := by
  refine mapM_eq_elim_find? (fun pair => ?_) pairs
  by_cases hsize : Wildcard.weigh (Wildcard.tokens pair.1.slashed) ≤ Wildcard.sizeLimit
  · simp [isRefused, Wildcard.compile?, hsize]
  · simp [isRefused, Wildcard.compile?, hsize]

namespace Draft

/-- What a draft gives when nothing is wrong with it. -/
def settled (d : Draft) : Settings where
  root := d.root.normalize
  includePaths := Path.firsts (d.includePaths.map d.root.normalize.resolveIn)
  fallbackDirs := d.fallbackDirs.map d.root.normalize.resolveIn
  aliases := d.aliases.map fun a => ⟨a.1, a.2⟩
  mappings := d.mappings.map fun m => ⟨⟨m.1⟩, m.2⟩
  ignorePartials := d.ignorePartials

/-- The root comes before the aliases, and these before the mappings. -/
theorem build_eq (d : Draft) :
    d.build =
      if d.root.isAbsolute then
        (d.aliases.find? isEmptyAlias).elim
          ((d.mappings.find? isRefused).elim (.ok d.settled) fun m =>
            .error (.patternTooLarge m.1))
          fun _ => .error .emptyAlias
      else .error (.relativeRoot d.root) := by
  cases hroot : d.root.isAbsolute with
  | false =>
    rw [build, hroot]
    rfl
  | true =>
    have hbuild : d.build = (buildAliases d.aliases >>= fun aliases =>
        buildMappings d.mappings >>= fun mappings =>
          .ok { d.settled with aliases := aliases, mappings := mappings }) := by
      simp only [build, hroot, if_true, settled, ← Path.dedup_eq_firsts]
      rfl
    rw [hbuild, buildAliases_eq, buildMappings_eq, if_pos rfl]
    cases d.aliases.find? isEmptyAlias with
    | some _ => rfl
    | none => cases d.mappings.find? isRefused <;> rfl

theorem build_of_faultless {d : Draft} (hroot : d.root.isAbsolute = true)
    (haliases : ∀ a ∈ d.aliases, a.1 ≠ []) (hmappings : ∀ m ∈ d.mappings, isRefused m = false) :
    d.build = .ok d.settled := by
  have hnoAlias : d.aliases.find? isEmptyAlias = none :=
    List.find?_eq_none.2 fun a ha => by simpa [isEmptyAlias] using haliases a ha
  have hnoMapping : d.mappings.find? isRefused = none :=
    List.find?_eq_none.2 fun m hm => by simp [hmappings m hm]
  rw [build_eq, if_pos hroot, hnoAlias, hnoMapping]
  rfl

theorem settled_directories {d : Draft} (h : d.root.isAbsolute = true) {p : Path}
    (hp : p ∈ d.settled.root :: d.settled.includePaths ++ d.settled.fallbackDirs) :
    p.Settled := by
  have hroot : d.root.normalize.Settled := Path.settled_normalize h
  simp only [settled, ← Path.dedup_eq_firsts, List.cons_append, List.mem_cons,
    List.mem_append] at hp
  rcases hp with rfl | hp | hp
  · exact hroot
  · obtain ⟨raw, _, rfl⟩ := List.mem_map.1 (Path.mem_of_mem_dedup hp)
    exact Path.settled_resolveIn hroot.isAbsolute raw
  · obtain ⟨raw, _, rfl⟩ := List.mem_map.1 hp
    exact Path.settled_resolveIn hroot.isAbsolute raw

end Draft

/-! ## Building again -/

/-- The settings as a caller would ask for them. -/
def toDraft (s : Settings) : Draft where
  root := s.root
  includePaths := s.includePaths
  fallbackDirs := s.fallbackDirs
  aliases := s.aliases.map fun a => (a.lead, a.replacement)
  mappings := s.mappings.map fun m => (m.pattern.source, m.target)
  ignorePartials := s.ignorePartials

namespace Draft

theorem toDraft_settled (d : Draft) :
    d.settled.toDraft = { d with
      root := d.root.normalize
      includePaths := Path.firsts (d.includePaths.map d.root.normalize.resolveIn)
      fallbackDirs := d.fallbackDirs.map d.root.normalize.resolveIn } := by
  simp [toDraft, settled, Function.comp_def]

/-- Directories that are settled and kept once are left alone. -/
theorem settled_toDraft_settled {d : Draft} (h : d.root.isAbsolute = true) :
    d.settled.toDraft.settled = d.settled := by
  have hsettled := @settled_directories d h
  have hroot : d.settled.root.normalize = d.settled.root := (hsettled (by simp)).normalize_eq
  have hinclude : d.settled.includePaths.map d.settled.root.resolveIn = d.settled.includePaths :=
    Path.map_resolveIn_of_settled _ fun p hp => hsettled (by simp [hp])
  have hfallback : d.settled.fallbackDirs.map d.settled.root.resolveIn = d.settled.fallbackDirs :=
    Path.map_resolveIn_of_settled _ fun p hp => hsettled (by simp [hp])
  have hfirsts : Path.firsts d.settled.includePaths = d.settled.includePaths := by
    rw [settled, ← Path.dedup_eq_firsts, ← Path.dedup_eq_firsts]
    exact Path.dedup_eq_self (Path.pairwise_dedup _)
  rw [settled, toDraft]
  simp only [hroot, hinclude, hfirsts, hfallback, List.map_map, Function.comp_def, List.map_id']

/-- Building a draft tells its first fault, or gives settled directories, the kept ones in the
order of the draft, with aliases and mappings as they are.  Building what it gives changes
nothing. -/
theorem build_settles (d : Draft) :
    (d.root.isAbsolute = false → d.build = .error (.relativeRoot d.root)) ∧
      (d.root.isAbsolute = true → (∃ a ∈ d.aliases, a.1 = []) → d.build = .error .emptyAlias) ∧
      (d.root.isAbsolute = true → (∀ a ∈ d.aliases, a.1 ≠ []) →
        ∀ m, d.mappings.find? isRefused = some m → d.build = .error (.patternTooLarge m.1)) ∧
      (d.root.isAbsolute = true → (∀ a ∈ d.aliases, a.1 ≠ []) →
        (∀ m ∈ d.mappings, isRefused m = false) →
          ∃ s, d.build = .ok s ∧
            (∀ p ∈ s.root :: s.includePaths ++ s.fallbackDirs, p.Settled) ∧
            s.toDraft = { d with
              root := d.root.normalize
              includePaths := Path.firsts (d.includePaths.map d.root.normalize.resolveIn)
              fallbackDirs := d.fallbackDirs.map d.root.normalize.resolveIn } ∧
            s.toDraft.build = .ok s) := by
  refine ⟨fun hroot => ?_, fun hroot hempty => ?_, fun hroot haliases m hm => ?_,
    fun hroot haliases hmappings => ?_⟩
  · rw [build_eq, hroot]
    rfl
  · obtain ⟨a, ha⟩ : ∃ a, d.aliases.find? isEmptyAlias = some a :=
      Option.isSome_iff_exists.1 (List.find?_isSome.2 (by simpa [isEmptyAlias] using hempty))
    rw [build_eq, if_pos hroot, ha]
    rfl
  · have hnone : d.aliases.find? isEmptyAlias = none :=
      List.find?_eq_none.2 fun a ha => by simpa [isEmptyAlias] using haliases a ha
    rw [build_eq, if_pos hroot, hnone, hm]
    rfl
  · have hdraft := toDraft_settled d
    refine ⟨d.settled, build_of_faultless hroot haliases hmappings,
      fun p hp => settled_directories hroot hp, hdraft, ?_⟩
    rw [build_of_faultless, settled_toDraft_settled hroot]
    · rw [hdraft, Path.isAbsolute_normalize, hroot]
    · rw [hdraft]
      exact haliases
    · rw [hdraft]
      exact hmappings

/-- Three spellings of one directory, seen from a root that is to be folded itself. -/
def respelled : Draft where
  root := ⟨"/app/./x/..".toList⟩
  includePaths := ["lib", "/app/lib/", "../app/y/../lib", "/shared"].map fun raw => ⟨raw.toList⟩
  fallbackDirs := ["lib", "lib/."].map fun raw => ⟨raw.toList⟩
  aliases := [("~".toList, "lib".toList), ("~lib".toList, "".toList)]
  mappings := [("a/*".toList, "b.scss".toList), ("a/*".toList, "c.scss".toList)]
  ignorePartials := false

/-- One of the three directories is kept, and both fallback directories are. -/
theorem respelled_settles :
    ∃ s, respelled.build = .ok s ∧
      s.includePaths = ["/app/lib", "/shared"].map (fun raw => ⟨raw.toList⟩) ∧
      s.fallbackDirs = ["/app/lib", "/app/lib"].map (fun raw => ⟨raw.toList⟩) ∧
      s.toDraft.build = .ok s := by
  obtain ⟨s, hbuild, -, hdraft, hagain⟩ :=
    (build_settles respelled).2.2.2 rfl (by decide) (by decide)
  exact ⟨s, hbuild, congrArg Draft.includePaths hdraft,
    congrArg Draft.fallbackDirs hdraft, hagain⟩

end Draft

end Settings

end StyleBundle
