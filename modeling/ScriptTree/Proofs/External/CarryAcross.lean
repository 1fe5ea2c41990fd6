import ScriptTree.Proofs.External.CarryOver

/-!
# Results of analyses between arenas

A table of results knows handles and no arenas.  A clone in another arena, or in a new one, may get handles that some of
its sources have, and then one entry of the table is that of a copy and that of a source.  Carrying over is faithful if
the copies get what their sources had and the sources keep what they have (`CarriedFaithfully`).  It is so, in whatever
order the pairs are visited, for exactly those tables in which every entry with two owners suits both of them
(`AgreesAlong`): in the other ones such an entry is written over, and it may be read again after that
(`carryOver_faithful_iff`).  Inside one arena copies are new handles, and carrying over is always faithful.
-/

namespace ScriptTree

namespace AnalysisTable

/-- With `entries'` in place of `entries` every copy has the entry that its source had, and the sources have theirs. -/
structure CarriedFaithfully (pairs : List (Handle × Handle)) (entries entries' : Std.HashMap Handle Json) : Prop where
  copy_eq : ∀ e ∈ pairs, ∀ v, entries[e.1]? = some v → entries'[e.2]? = some v
  source_eq : ∀ e ∈ pairs, entries'[e.1]? = entries[e.1]?

/-- What an entry with two owners has to be is asked for twice, and that is all that can go wrong. -/
theorem carriedFaithfully_carryEach_iff (entries : Std.HashMap Handle Json) {pairs visited : List (Handle × Handle)}
    (hone : ∀ e ∈ pairs, ∀ d ∈ pairs, e.2 = d.2 → e.1 = d.1) (hp : visited.Perm pairs) :
    CarriedFaithfully pairs entries (carryEach entries visited) ↔ AgreesAlong entries pairs := by
  constructor
  · intro h e he d hd hed v hv
    rw [hed, ← h.source_eq d hd, ← hed]
    exact h.copy_eq e he v hv
  · intro h
    refine ⟨fun e he v hv => ?_, fun e he => h.carryEach_source hp.subset he⟩
    have hcopy := h.carryEach_copy hone hp.subset (hp.mem_iff.mpr he)
    rwa [hv, Option.some_or] at hcopy

end AnalysisTable

open AnalysisTable

theorem Edit.exists_of_cloneSubtree {a b : Arena} (hw : a.WellFormed) {n : Handle} {target : Option (Handle × Slot)}
    {map : CloneMap} (h : cloneSubtree n target a = .ok map b) :
    ∃ order, a.preOrder n = .ok order ∧ map = .ofOrder a.size order := by
  cases target with
  | none =>
    rcases cloneSubtree_none_cases hw n with ⟨e, -, herror⟩ | ⟨order, b', horder, -, hrun⟩
    · rw [herror] at h
      cases h
    · rw [hrun] at h
      cases h
      exact ⟨order, horder, rfl⟩
  | some target =>
    rcases cloneSubtree_some_cases hw n target.1 target.2 with
      ⟨e, herror⟩ | ⟨order, b', node, horder, -, -, ⟨cs, -, -, hrun⟩ | ⟨old, -, -, hrun⟩⟩
    · rw [herror] at h
      cases h
    · rw [hrun] at h
      cases h
      exact ⟨order, horder, rfl⟩
    · rw [hrun] at h
      cases h
      exact ⟨order, horder, rfl⟩

namespace Workspace

/-- Some clone of a subtree answers with the map: one inside an arena, one from an arena into another or the same one, or
one into a new arena. -/
inductive AnswersWith (w : Workspace) (map : CloneMap) : Prop
  | inArena {i : Nat} {n : Handle} {target : Option (Handle × Slot)} {w' : Workspace}
    (run : w.edit? i (Edit.cloneSubtree n target) = some (.ok map, w'))
  | into {i j : Nat} {n : Handle} {w' : Workspace} (run : w.copyInto? i n j = some (.ok map, w'))
  | intoNew {i : Nat} {n : Handle} {w' : Workspace} (run : w.cloneIntoNewArena? i n = some (.ok map, w'))

section Maps

variable {w : Workspace} (hw : w.WellFormed) {map : CloneMap}

include hw

/-- Inside an arena the copies are new. -/
theorem exists_of_edit?_cloneSubtree {i : Nat} {n : Handle} {target : Option (Handle × Slot)} {w' : Workspace}
    (run : w.edit? i (Edit.cloneSubtree n target) = some (.ok map, w')) :
    ∃ (a : Arena) (order : List Handle), (∀ x ∈ order, x ∈ a) ∧ map = .ofOrder a.size order := by
  cases ha : w.arena? i with
  | none =>
    rw [edit?_eq_none ha] at run
    cases run
  | some a =>
    obtain ⟨b, hrun, -⟩ := (edit?_eq_ok_iff ha).mp run
    obtain ⟨order, horder, rfl⟩ := Edit.exists_of_cloneSubtree (hw.arena ha) hrun
    exact ⟨a, order, fun x hx => (Arena.listing_of_preOrder horder).mem hx, rfl⟩

theorem AnswersWith.exists_ofOrder (h : w.AnswersWith map) : ∃ size order, map = .ofOrder size order := by
  cases h with
  | inArena run =>
    obtain ⟨a, order, -, hmap⟩ := exists_of_edit?_cloneSubtree hw run
    exact ⟨a.size, order, hmap⟩
  | into run =>
    obtain ⟨source, dest, order, b, -, -, -, -, -, hmap, -⟩ := hw.exists_of_copyInto? run
    exact ⟨dest.size, order, hmap⟩
  | intoNew run =>
    obtain ⟨source, order, b, g, -, -, -, -, hmap, -⟩ := hw.exists_of_cloneIntoNewArena? run
    exact ⟨0, order, hmap⟩

end Maps

/-- Carrying results over along the map of a clone is faithful, in whatever order its entries are visited, if and only if
the table agrees along the map; after a clone inside an arena every table does.  The entries of other handles than the
copies stay in any case. -/
theorem carryOver_faithful_iff {w : Workspace} (reachable : w.Reachable) {map : CloneMap} (answers : w.AnswersWith map)
    (t : AnalysisTable) {visited : List (Handle × Handle)} (perm : visited.Perm map.entries) :
    (CarriedFaithfully map.entries t.criteria (t.carryPairs visited).criteria ↔ AgreesAlong t.criteria map.entries) ∧
    (CarriedFaithfully map.entries t.dependencies (t.carryPairs visited).dependencies ↔
      AgreesAlong t.dependencies map.entries) ∧
    ((∃ i n target w', w.edit? i (Edit.cloneSubtree n target) = some (.ok map, w')) →
      CarriedFaithfully map.entries t.criteria (t.carryPairs visited).criteria ∧
        CarriedFaithfully map.entries t.dependencies (t.carryPairs visited).dependencies) ∧
    ∀ x : Handle, (∀ e ∈ map.entries, e.2 ≠ x) →
      (t.carryPairs visited).criteria[x]? = t.criteria[x]? ∧
        (t.carryPairs visited).dependencies[x]? = t.dependencies[x]? := by
  have hw := reachable.wellFormed
  have hone : ∀ e ∈ map.entries, ∀ d ∈ map.entries, e.2 = d.2 → e.1 = d.1 := by
    obtain ⟨size, order, rfl⟩ := answers.exists_ofOrder hw
    exact source_eq_of_ofOrder
  rw [criteria_carryPairs, dependencies_carryPairs]
  have hcriteria := carriedFaithfully_carryEach_iff t.criteria hone perm
  have hdependencies := carriedFaithfully_carryEach_iff t.dependencies hone perm
  refine ⟨hcriteria, hdependencies, ?_, fun x hx => ?_⟩
  · rintro ⟨i, n, target, w', run⟩
    obtain ⟨a, order, horder, rfl⟩ := exists_of_edit?_cloneSubtree hw run
    have hapart := carriesApart_ofOrder horder
    exact ⟨hcriteria.mpr (hapart.agreesAlong _), hdependencies.mpr (hapart.agreesAlong _)⟩
  · have hother : ∀ e ∈ visited, e.2 ≠ x := fun e he => hx e (perm.mem_iff.mp he)
    exact ⟨carryEach_other hother, carryEach_other hother⟩

/-- A block with a name in one arena, and a single node in another one. -/
def twoArenasRun : List Action :=
  [.addArena {}, .command 0 (.alloc (.block []) {}), .command 0 (.alloc (.name "x") {}),
    .command 0 (.pushChild ⟨0⟩ .statements ⟨1⟩), .addArena {}, .command 1 (.alloc .empty {})]

/-- Criteria for the block and other ones for the name. -/
def twoCriteria : AnalysisTable := (({} : AnalysisTable).setCriteria ⟨0⟩ (.string "z")).setCriteria ⟨1⟩ (.string "x")

/-- The copy of the block gets the handle that the name has, so its criteria are written over those of the name, and the
copy of the name gets them too. -/
theorem carryOver_faithful_iff_twoArenasRun :
    ∃ map w', (({} : Workspace).performAll twoArenasRun).copyInto? 0 ⟨0⟩ 1 = some (.ok map, w') ∧
      map.entries = [(⟨0⟩, ⟨1⟩), (⟨1⟩, ⟨2⟩)] ∧
      ¬ CarriedFaithfully map.entries twoCriteria.criteria (twoCriteria.carryOver map).criteria ∧
      (twoCriteria.carryOver map).criteria[(⟨2⟩ : Handle)]? = some (.string "z") := by
  have hreach : (({} : Workspace).performAll twoArenasRun).Reachable := ⟨twoArenasRun, by decide, rfl⟩
  have hwf := hreach.wellFormed
  obtain ⟨a, dest, ha, hdest, hsize, hlisting⟩ :
      ∃ a dest, (({} : Workspace).performAll twoArenasRun).arena? 0 = some a ∧
        (({} : Workspace).performAll twoArenasRun).arena? 1 = some dest ∧ dest.size = 1 ∧
        a.Listing [⟨0⟩] [⟨0⟩, ⟨1⟩] :=
    ⟨_, _, rfl, rfl, rfl, .cons rfl (.cons rfl .nil .nil) .nil⟩
  obtain ⟨b, hrun, -⟩ := Edit.run_copyFrom dest (hwf.arena ha) ((hwf.arena ha).preOrder_eq_ok_iff.mpr hlisting)
  have hcopied := edit?_of_ok hdest hrun
  rw [← copyInto?_eq_edit? ha, hsize] at hcopied
  have hentries : (CloneMap.ofOrder 1 [⟨0⟩, ⟨1⟩]).entries = [(⟨0⟩, ⟨1⟩), (⟨1⟩, ⟨2⟩)] := by decide
  have hblock : twoCriteria.criteria[(⟨0⟩ : Handle)]? = some (.string "z") := by
    simp only [twoCriteria, setCriteria, Std.HashMap.getElem?_insert]
    rfl
  have hname : twoCriteria.criteria[(⟨1⟩ : Handle)]? = some (.string "x") := by
    simp [twoCriteria, setCriteria]
  refine ⟨_, _, hcopied, hentries, fun hfaithful => ?_, ?_⟩
  · have hagrees := (carryOver_faithful_iff hreach (.into hcopied) _ (List.Perm.refl _)).1.mp hfaithful
    rw [hentries] at hagrees
    have hboth := hagrees (⟨0⟩, ⟨1⟩) (by decide) (⟨1⟩, ⟨2⟩) (by decide) rfl _ hblock
    simp [hname] at hboth
  · rw [carryOver, criteria_carryPairs, hentries]
    show (carryEntry (carryEntry twoCriteria.criteria ⟨0⟩ ⟨1⟩) ⟨1⟩ ⟨2⟩)[(⟨2⟩ : Handle)]? = _
    rw [getElem?_carryEntry, if_pos rfl, getElem?_carryEntry, if_pos rfl, hblock, Option.some_or, Option.some_or]

end Workspace

end ScriptTree
