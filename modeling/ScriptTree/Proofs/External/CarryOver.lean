import ScriptTree.Proofs.External.Content

/-!
# Results of analyses follow the clones

A table of results is kept by handle, so the copies of a clone have no results until those of their sources are carried
over.  That writes the table while it reads it, in an order that is not fixed.  Inside an arena no copy is a source, so
nothing that was written is read again; and as no two sources have one copy, nothing is written twice (`CarriesApart`).
So each copy has in the end what its source had in the beginning (`carryEach_copy`), the order does not matter
(`carryEach_perm`), and doing it again changes nothing (`carryEach_carryEach`).  The copies then have the external forms of
their sources (`carryOver_follows_clone`).  If a copy is a source, that can still be so, where what is read again is what
stood there before (`AgreesAlong`).
-/

namespace ScriptTree

namespace AnalysisTable

/-! ### Carrying over one kind of results -/

def carryEach (entries : Std.HashMap Handle Json) (pairs : List (Handle × Handle)) : Std.HashMap Handle Json :=
  pairs.foldl (fun entries e => carryEntry entries e.1 e.2) entries

/-- A copy that is a source too has the entry already that it is to get. -/
def AgreesAlong (entries : Std.HashMap Handle Json) (pairs : List (Handle × Handle)) : Prop :=
  ∀ e ∈ pairs, ∀ d ∈ pairs, e.2 = d.1 → ∀ v, entries[e.1]? = some v → entries[e.2]? = some v

/-- No copy is a source, and no two sources have the same copy. -/
structure CarriesApart (pairs : List (Handle × Handle)) : Prop where
  copy_ne_source : ∀ e ∈ pairs, ∀ d ∈ pairs, e.2 ≠ d.1
  source_eq : ∀ e ∈ pairs, ∀ d ∈ pairs, e.2 = d.2 → e.1 = d.1

namespace CarriesApart

variable {pairs : List (Handle × Handle)} (h : CarriesApart pairs)

include h

theorem perm {pairs' : List (Handle × Handle)} (hp : pairs'.Perm pairs) : CarriesApart pairs' :=
  ⟨fun e he d hd => h.copy_ne_source e (hp.mem_iff.mp he) d (hp.mem_iff.mp hd),
    fun e he d hd => h.source_eq e (hp.mem_iff.mp he) d (hp.mem_iff.mp hd)⟩

theorem agreesAlong (entries : Std.HashMap Handle Json) : AgreesAlong entries pairs :=
  fun e he d hd hed => absurd hed (h.copy_ne_source e he d hd)

end CarriesApart

section CarryEach

variable {entries : Std.HashMap Handle Json} {pairs pairs' : List (Handle × Handle)}

/-- Only entries of copies are written. -/
theorem carryEach_other {y : Handle} (hy : ∀ e ∈ pairs, e.2 ≠ y) : (carryEach entries pairs)[y]? = entries[y]? := by
  induction pairs generalizing entries with
  | nil => rfl
  | cons e pairs ih =>
    have hey : y ≠ e.2 := (hy e List.mem_cons_self).symm
    show (carryEach (carryEntry entries e.1 e.2) pairs)[y]? = _
    rw [ih fun d hd => hy d (List.mem_cons_of_mem _ hd), getElem?_carryEntry, if_neg hey, Option.none_or]

/-- A handle is the copy in some pair, or in none. -/
theorem mem_or_other (pairs : List (Handle × Handle)) (y : Handle) :
    (∃ x, (x, y) ∈ pairs) ∨ ∀ e ∈ pairs, e.2 ≠ y := by
  by_cases h : ∃ x, (x, y) ∈ pairs
  · exact .inl h
  · right
    rintro ⟨x, z⟩ he rfl
    exact h ⟨x, he⟩

namespace AgreesAlong

variable (h : AgreesAlong entries pairs)

include h

/-- A source that is written as a copy gets the entry that it has. -/
theorem carryEntry_source {e d : Handle × Handle} (he : e ∈ pairs) (hd : d ∈ pairs) :
    (carryEntry entries e.1 e.2)[d.1]? = entries[d.1]? := by
  rw [getElem?_carryEntry]
  split
  · rename_i hde
    cases hv : entries[e.1]? with
    | none => rw [Option.none_or]
    | some v => rw [hde, h e he d hd hde.symm v hv, Option.some_or]
  · rw [Option.none_or]

theorem carryEntry {e : Handle × Handle} (he : e ∈ pairs) : AgreesAlong (carryEntry entries e.1 e.2) pairs := by
  intro c hc d hd hcd v hv
  rw [h.carryEntry_source he hc] at hv
  rw [hcd, h.carryEntry_source he hd, ← hcd]
  exact h c hc d hd hcd v hv

/-- The entries of the sources stay, however many of the pairs have been visited. -/
theorem carryEach_source {visited : List (Handle × Handle)} (hsub : visited ⊆ pairs) {x y : Handle}
    (hxy : (x, y) ∈ pairs) : (carryEach entries visited)[x]? = entries[x]? := by
  induction visited generalizing entries with
  | nil => rfl
  | cons e visited ih =>
    have he := hsub List.mem_cons_self
    show (carryEach (AnalysisTable.carryEntry entries e.1 e.2) visited)[x]? = _
    rw [ih (h.carryEntry he) fun d hd => hsub (List.mem_cons_of_mem _ hd)]
    exact h.carryEntry_source he hxy

/-- A copy has the entry that its source had; without one it keeps its own. -/
theorem carryEach_copy (hone : ∀ e ∈ pairs, ∀ d ∈ pairs, e.2 = d.2 → e.1 = d.1) {visited : List (Handle × Handle)}
    (hsub : visited ⊆ pairs) {x y : Handle} (hxy : (x, y) ∈ visited) :
    (carryEach entries visited)[y]? = entries[x]?.or entries[y]? := by
  induction visited generalizing entries with
  | nil => cases hxy
  | cons e visited ih =>
    have he := hsub List.mem_cons_self
    have hrest : visited ⊆ pairs := fun d hd => hsub (List.mem_cons_of_mem _ hd)
    show (carryEach (AnalysisTable.carryEntry entries e.1 e.2) visited)[y]? = _
    rcases mem_or_other visited y with ⟨x', hlater⟩ | hother
    · obtain rfl : x = x' := hone _ (hsub hxy) _ (hrest hlater) rfl
      have hx : (AnalysisTable.carryEntry entries e.1 e.2)[x]? = entries[x]? := h.carryEntry_source he (hsub hxy)
      rw [ih (h.carryEntry he) hrest hlater, hx, getElem?_carryEntry]
      by_cases hy : y = e.2
      · -- the pair stands twice, and the second time writes what the first time wrote
        rw [if_pos hy, ← hone _ (hsub hxy) e he hy, ← Option.or_assoc, Option.or_self]
      · rw [if_neg hy, Option.none_or]
    · obtain rfl : (x, y) = e := (List.mem_cons.mp hxy).resolve_right fun hm => hother _ hm rfl
      rw [carryEach_other hother, getElem?_carryEntry, if_pos rfl]

end AgreesAlong

theorem carryEach_copy (h : CarriesApart pairs) {x y : Handle} (hxy : (x, y) ∈ pairs) :
    (carryEach entries pairs)[y]? = entries[x]?.or entries[y]? :=
  (h.agreesAlong entries).carryEach_copy h.source_eq (List.Subset.refl _) hxy

theorem carryEach_perm (h : CarriesApart pairs) (hp : pairs'.Perm pairs) (y : Handle) :
    (carryEach entries pairs')[y]? = (carryEach entries pairs)[y]? := by
  rcases mem_or_other pairs y with ⟨x, hxy⟩ | hother
  · rw [carryEach_copy h hxy, carryEach_copy (h.perm hp) (hp.mem_iff.mpr hxy)]
  · rw [carryEach_other hother, carryEach_other fun e he => hother e (hp.mem_iff.mp he)]

theorem carryEach_source (h : CarriesApart pairs) {x y : Handle} (hxy : (x, y) ∈ pairs) :
    (carryEach entries pairs)[x]? = entries[x]? :=
  (h.agreesAlong entries).carryEach_source (List.Subset.refl _) hxy

theorem carryEach_carryEach (h : CarriesApart pairs) (y : Handle) :
    (carryEach (carryEach entries pairs) pairs)[y]? = (carryEach entries pairs)[y]? := by
  rcases mem_or_other pairs y with ⟨x, hxy⟩ | hother
  · rw [carryEach_copy h hxy, carryEach_source h hxy, carryEach_copy h hxy, ← Option.or_assoc, Option.or_self]
  · rw [carryEach_other hother]

end CarryEach

/-! ### Both kinds of results -/

/-- The tables have the same results for every handle. -/
structure SameEntries (t t' : AnalysisTable) : Prop where
  criteria : ∀ h : Handle, t.criteria[h]? = t'.criteria[h]?
  dependencies : ∀ h : Handle, t.dependencies[h]? = t'.dependencies[h]?

/-- The table has results for nodes of the arena only. -/
structure EntriesIn (t : AnalysisTable) (a : Arena) : Prop where
  criteria : ∀ h, h ∉ a → t.criteria[h]? = none
  dependencies : ∀ h, h ∉ a → t.dependencies[h]? = none

theorem criteria_carryPairs (t : AnalysisTable) (pairs : List (Handle × Handle)) :
    (t.carryPairs pairs).criteria = carryEach t.criteria pairs := by
  induction pairs generalizing t with
  | nil => rfl
  | cons e pairs ih => exact ih _

theorem dependencies_carryPairs (t : AnalysisTable) (pairs : List (Handle × Handle)) :
    (t.carryPairs pairs).dependencies = carryEach t.dependencies pairs := by
  induction pairs generalizing t with
  | nil => rfl
  | cons e pairs ih => exact ih _

theorem sameEntries_carryPairs (t : AnalysisTable) {pairs pairs' : List (Handle × Handle)} (h : CarriesApart pairs)
    (hp : pairs'.Perm pairs) : (t.carryPairs pairs').SameEntries (t.carryPairs pairs) := by
  constructor
  · intro y
    rw [criteria_carryPairs, criteria_carryPairs, carryEach_perm h hp]
  · intro y
    rw [dependencies_carryPairs, dependencies_carryPairs, carryEach_perm h hp]

theorem sameEntries_carryPairs_again (t : AnalysisTable) {pairs pairs' : List (Handle × Handle)}
    (h : CarriesApart pairs) (hp : pairs'.Perm pairs) :
    ((t.carryPairs pairs).carryPairs pairs').SameEntries (t.carryPairs pairs) := by
  constructor
  · intro y
    rw [criteria_carryPairs, carryEach_perm h hp, criteria_carryPairs, carryEach_carryEach h]
  · intro y
    rw [dependencies_carryPairs, carryEach_perm h hp, dependencies_carryPairs, carryEach_carryEach h]

/-! ### Clones -/

variable {a b : Arena} {root : Handle} {order : List Handle} {t : AnalysisTable}

/-- No two nodes have the same copy. -/
theorem source_eq_of_ofOrder {size : Nat} :
    ∀ e ∈ (CloneMap.ofOrder size order).entries, ∀ d ∈ (CloneMap.ofOrder size order).entries, e.2 = d.2 → e.1 = d.1 := by
  intro e he d hd hcopy
  obtain ⟨x, hx, rfl⟩ := List.mem_map.mp he
  obtain ⟨y, -, rfl⟩ := List.mem_map.mp hd
  exact imageOf_injOn hx hcopy

theorem carriesApart_ofOrder (horder : ∀ x ∈ order, x ∈ a) :
    CarriesApart (CloneMap.ofOrder a.size order).entries := by
  refine ⟨fun e he d hd => ?_, source_eq_of_ofOrder⟩
  obtain ⟨x, -, rfl⟩ := List.mem_map.mp he
  obtain ⟨y, hy, rfl⟩ := List.mem_map.mp hd
  intro hxy
  have hxy : imageOf a.size order x = y := hxy
  exact Arena.imageOf_not_mem x (hxy ▸ horder y hy)

section Carried

variable (hcopy : a.CopyOf a root order b) (horder : ∀ x ∈ order, x ∈ a)

include hcopy horder

/-- The nodes of the arena keep their content and their results. -/
theorem mirrors_old : a.Mirrors b t.provider (t.carryOver (.ofOrder a.size order)).provider id order := by
  have hother : ∀ x ∈ order, ∀ e ∈ (CloneMap.ofOrder a.size order).entries, e.2 ≠ x := by
    intro x hx e he
    obtain ⟨y, -, rfl⟩ := List.mem_map.mp he
    exact fun hxy => Arena.imageOf_not_mem y (hxy ▸ horder x hx)
  refine ⟨fun x hx => ?_, fun x hx => ?_, fun x hx => ?_⟩
  · obtain ⟨node, hn⟩ := Arena.mem_iff_node?.mp (horder x hx)
    refine ⟨node, node, Arena.get_eq hn, Arena.get_eq ?_, ?_, rfl⟩
    · exact (hcopy.node?_old x (horder x hx)).trans hn
    · rw [Payload.renamed_id]
  · show answer (t.carryPairs _).criteria[x]? = answer t.criteria[x]?
    rw [criteria_carryPairs, carryEach_other (hother x hx)]
  · show answer (t.carryPairs _).dependencies[x]? = answer t.dependencies[x]?
    rw [dependencies_carryPairs, carryEach_other (hother x hx)]

/-- The copies have the content and the results of their sources, if the table had none for them before. -/
theorem mirrors_copy (ht : t.EntriesIn a) :
    a.Mirrors b t.provider (t.carryOver (.ofOrder a.size order)).provider (imageOf a.size order) order := by
  have hapart := carriesApart_ofOrder horder
  have hpair : ∀ x ∈ order, (x, imageOf a.size order x) ∈ (CloneMap.ofOrder a.size order).entries :=
    fun x hx => List.mem_map_of_mem (f := fun x => (x, imageOf a.size order x)) hx
  refine ⟨fun x hx => ?_, fun x hx => ?_, fun x hx => ?_⟩
  · obtain ⟨node, hn⟩ := Arena.mem_iff_node?.mp (horder x hx)
    refine ⟨node, _, Arena.get_eq hn, Arena.get_eq ((hcopy.node?_copy x hx).trans (congrArg _ hn)), rfl, rfl⟩
  · show answer (t.carryPairs _).criteria[imageOf a.size order x]? = answer t.criteria[x]?
    rw [criteria_carryPairs, carryEach_copy hapart (hpair x hx), ht.criteria _ (Arena.imageOf_not_mem x), Option.or_none]
  · show answer (t.carryPairs _).dependencies[imageOf a.size order x]? = answer t.dependencies[x]?
    rw [dependencies_carryPairs, carryEach_copy hapart (hpair x hx), ht.dependencies _ (Arena.imageOf_not_mem x),
      Option.or_none]

end Carried

end AnalysisTable

/-! ### Reachable arenas -/

namespace Workspace

/-- After a clone inside its arena every copy has under the carried-over table the external form that its source had under
the table before, and the source still has it.  The entries of the clone map may be visited in any order, and visiting
them once more changes nothing. -/
theorem carryOver_follows_clone {w : Workspace} (reachable : w.Reachable) {i : Nat} {a : Arena}
    (ha : w.arena? i = some a) {n : Handle} {order : List Handle} (horder : a.preOrder n = .ok order)
    {t : AnalysisTable} (ht : t.EntriesIn a) :
    ∃ map w' b, w.edit? i (Edit.cloneSubtree n none) = some (.ok map, w') ∧ w'.arena? i = some b ∧
      (∀ x ∈ order, ∃ y form, map.get? x = some y ∧ a.toExternal t.provider x = .ok form ∧
        b.toExternal (t.carryOver map).provider y = .ok form ∧
        b.toExternal (t.carryOver map).provider x = .ok form) ∧
      ∀ pairs, pairs.Perm map.entries → (t.carryPairs pairs).SameEntries (t.carryOver map) ∧
        ((t.carryOver map).carryPairs pairs).SameEntries (t.carryOver map) := by
  have hw := reachable.wellFormed.arena ha
  have hl := Arena.listing_of_preOrder horder
  have hmem : ∀ x ∈ order, x ∈ a := fun x hx => hl.mem hx
  obtain ⟨b, hrun, hcopy⟩ := Edit.run_cloneSubtree_none hw horder
  have hwb := hcopy.wellFormed hw hl hw
  have hapart := AnalysisTable.carriesApart_ofOrder hmem
  refine ⟨_, _, b, edit?_of_ok ha hrun, (put_of_ids_eq ha hcopy.ids_eq).2.1, fun x hx => ?_, fun pairs hp => ?_⟩
  · obtain ⟨form, hform, hold⟩ := (AnalysisTable.mirrors_old hcopy hmem).toExternal_eq hw hwb hl hx
    obtain ⟨form', hform', hnew⟩ := (AnalysisTable.mirrors_copy hcopy hmem ht).toExternal_eq hw hwb hl hx
    obtain rfl : form' = form := Except.ok.inj (hform'.symm.trans hform)
    exact ⟨_, form', get?_ofOrder hx, hform, hnew, hold⟩
  · exact ⟨t.sameEntries_carryPairs hapart hp, t.sameEntries_carryPairs_again hapart hp⟩

/-- The block of the run is cloned and has criteria. -/
theorem carryOver_follows_clone_blockRun :
    ∃ a map w' b y form, (({} : Workspace).performAll blockRun).arena? 0 = some a ∧
      (({} : Workspace).performAll blockRun).edit? 0 (Edit.cloneSubtree ⟨1⟩ none) = some (.ok map, w') ∧
      w'.arena? 0 = some b ∧ map.get? ⟨1⟩ = some y ∧
      a.toExternal (({} : AnalysisTable).setCriteria ⟨1⟩ (.array [.string "x"])).provider ⟨1⟩ = .ok form ∧
      b.toExternal ((({} : AnalysisTable).setCriteria ⟨1⟩ (.array [.string "x"])).carryOver map).provider y =
        .ok form := by
  have hreach : (({} : Workspace).performAll blockRun).Reachable := ⟨blockRun, by decide, rfl⟩
  obtain ⟨a, ha, hlisting, hsize⟩ : ∃ a, (({} : Workspace).performAll blockRun).arena? 0 = some a ∧
      a.Listing [⟨1⟩] [⟨1⟩, ⟨0⟩] ∧ a.size = 2 :=
    ⟨_, rfl, .cons rfl (.cons rfl .nil .nil) .nil, rfl⟩
  have horder := (hreach.wellFormed.arena ha).preOrder_eq_ok_iff.mpr hlisting
  have ht : (({} : AnalysisTable).setCriteria ⟨1⟩ (.array [.string "x"])).EntriesIn a := by
    constructor
    · intro h hh
      have hne : (⟨1⟩ : Handle) ≠ h := by
        rintro rfl
        exact hh (Arena.mem_iff.mpr (by rw [hsize]; decide))
      simp [AnalysisTable.setCriteria, hne]
    · intro h _
      simp [AnalysisTable.setCriteria]
  obtain ⟨map, w', b, hrun, hb, hforms, -⟩ := carryOver_follows_clone hreach ha horder ht
  obtain ⟨y, form, hy, hform, hcopy, -⟩ := hforms ⟨1⟩ List.mem_cons_self
  exact ⟨a, map, w', b, y, form, ha, hrun, hb, hy, hform, hcopy⟩

end Workspace

end ScriptTree
