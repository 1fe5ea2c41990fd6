import ScriptTree.Proofs.Clone.Copies

/-!
# Clones are isomorphic to their sources

Behind the nodes of a well-formed arena a copy of a subtree makes a tree of its own: the arena stays well formed
(`CopyOf.wellFormed`), every copy stands where its source stands (`CopyOf.place_copy`), and the copies are listed as their
sources are (`CopyOf.listing`).
-/

namespace ScriptTree

namespace Arena

namespace CopyOf

variable {source dest b : Arena} {root : Handle} {order : List Handle} (h : source.CopyOf dest root order b)

include h

theorem imageOf_mem {x : Handle} (hx : x ∈ order) : imageOf dest.size order x ∈ b := by
  have hlt := List.idxOf_lt_length_of_mem hx
  rw [mem_iff, h.size_eq]
  exact Nat.add_lt_add_left hlt _

theorem mem_of_old {x : Handle} (hx : x ∈ dest) : x ∈ b := by
  rw [mem_iff] at hx ⊢
  rw [h.size_eq]
  omega

theorem old_or_copy {x : Handle} (hx : x ∈ b) (hnd : order.Nodup) :
    x ∈ dest ∨ ∃ y ∈ order, x = imageOf dest.size order y := by
  rw [mem_iff, h.size_eq] at hx
  by_cases hd : x.index < dest.size
  · exact .inl hd
  · right
    have hlt : x.index - dest.size < order.length := by omega
    refine ⟨order[x.index - dest.size], List.getElem_mem hlt, Handle.index_injective ?_⟩
    simp only [imageOf, hnd.idxOf_getElem]
    omega

theorem parent?_old {x : Handle} (hx : x ∈ dest) : b.parent? x = dest.parent? x := by
  rw [parent?, parent?, h.node?_old x hx]

theorem handlesAt_old {x : Handle} (hx : x ∈ dest) : b.handlesAt x = dest.handlesAt x := by
  rw [handlesAt, handlesAt, h.node?_old x hx]

theorem parent?_copy {x : Handle} (hx : x ∈ order) : b.parent? (imageOf dest.size order x) =
    if x = root then none else (source.parent? x).map (imageOf dest.size order) := by
  rw [parent?, parent?, h.node?_copy x hx]
  cases source.node? x with
  | none => simp
  | some node => simp [Node.copied]

theorem handlesAt_copy {x : Handle} (hx : x ∈ order) :
    b.handlesAt (imageOf dest.size order x) = (source.handlesAt x).map (imageOf dest.size order) := by
  rw [handlesAt, handlesAt, h.node?_copy x hx]
  cases source.node? x with
  | none => rfl
  | some node => simp [Node.copied, Payload.handles_renamed]

theorem ascent_old {x : Handle} {path : List Handle} (hp : dest.Ascent x path) : b.Ascent x path := by
  have hmem : ∀ y ∈ path, y ∈ dest := fun y hy => mem_handles.mp (hp.subset_handles hy)
  exact hp.of_parent?_eq (fun y hy => h.mem_of_old (hmem y hy)) (fun y hy => h.parent?_old (hmem y hy))

variable (hs : source.WellFormed) (hl : source.Listing [root] order)

include hs hl

/-- Copies climb to the copy of the root as their sources climb to the root. -/
theorem ascent_copy {x : Handle} {path : List Handle} (hp : source.Ascent x path) (hx : x ∈ order) :
    ∃ path', b.Ascent (imageOf dest.size order x) path' := by
  induction hp with
  | @root x mem top =>
    refine ⟨_, .root (h.imageOf_mem hx) ?_⟩
    rw [h.parent?_copy hx, top]
    simp
  | @step x p path link rest ih =>
    by_cases hxr : x = root
    · refine ⟨_, .root (h.imageOf_mem hx) ?_⟩
      rw [h.parent?_copy hx, if_pos hxr]
    · obtain ⟨p', hp', hlink⟩ := hl.exists_parent hs hx hxr
      obtain rfl : p = p' := Option.some.inj (link.symm.trans hlink)
      obtain ⟨path', hpath'⟩ := ih hp'
      refine ⟨_, .step ?_ hpath'⟩
      rw [h.parent?_copy hx, if_neg hxr, link, Option.map_some]

theorem rooted (hd : dest.WellFormed) : b.Rooted := by
  intro x hx
  rcases h.old_or_copy hx (hl.nodup hs) with hx | ⟨y, hy, rfl⟩
  · obtain ⟨path, hp⟩ := hd.rooted x hx
    exact ⟨path, h.ascent_old hp⟩
  · obtain ⟨path, hp⟩ := hs.rooted y (hl.mem hy)
    exact h.ascent_copy hs hl hp hy

/-- The copy of a child of a listed node is a child of its copy, and of no other node. -/
theorem parent?_copy_eq_iff {x y : Handle} (hx : x ∈ order) (hy : y ∈ order) :
    b.parent? (imageOf dest.size order y) = some (imageOf dest.size order x) ↔ source.parent? y = some x := by
  rw [h.parent?_copy hy]
  by_cases hyr : y = root
  · -- the parent of the root is not listed, as it would hang below itself
    subst hyr
    simp only [↓reduceIte, reduceCtorEq, false_iff]
    intro hlink
    obtain ⟨path, hp⟩ := hs.rooted x (hl.mem hx)
    exact hp.not_mem_of_parent? hlink ((hl.mem_iff hs hp).mp hx)
  · obtain ⟨p, hp, hlink⟩ := hl.exists_parent hs hy hyr
    rw [if_neg hyr, hlink, Option.map_some, Option.some.injEq, Option.some.injEq]
    exact ⟨imageOf_injOn hp, fun hpx => hpx ▸ rfl⟩

theorem wellFormed (hd : dest.WellFormed) : b.WellFormed := by
  have hnd := hl.nodup hs
  refine ⟨?_, ?_, h.rooted hs hl hd⟩
  · intro p hp c hc
    rcases h.old_or_copy hp hnd with hp | ⟨x, hx, rfl⟩
    · rw [h.handlesAt_old hp] at hc
      exact h.mem_of_old (hd.child_mem p hp c hc)
    · rw [h.handlesAt_copy hx] at hc
      obtain ⟨y, hy, rfl⟩ := List.mem_map.mp hc
      exact h.imageOf_mem (hl.handlesAt_subset hx hy)
  · intro p hp c hc
    rcases h.old_or_copy hp hnd with hp | ⟨x, hx, rfl⟩
    · rw [h.handlesAt_old hp, hd.count_handlesAt]
      rcases h.old_or_copy hc hnd with hc | ⟨y, hy, rfl⟩
      · rw [h.parent?_old hc]
      · -- a copy is no child of an old node, and no old node is its parent
        rw [if_neg fun hlink => imageOf_not_mem y (mem_of_parent? hlink), if_neg]
        rw [h.parent?_copy hy]
        split
        · simp
        · cases source.parent? y with
          | none => simp
          | some q =>
            simp only [Option.map_some, Option.some.injEq]
            rintro rfl
            exact imageOf_not_mem q hp
    · rw [h.handlesAt_copy hx]
      rcases h.old_or_copy hc hnd with hc | ⟨y, hy, rfl⟩
      · have hzero : c ∉ (source.handlesAt x).map (imageOf dest.size order) := by
          intro hm
          obtain ⟨z, -, rfl⟩ := List.mem_map.mp hm
          exact imageOf_not_mem z hc
        rw [List.count_eq_zero.mpr hzero, h.parent?_old hc, if_neg]
        exact fun hlink => imageOf_not_mem x (hd.rooted.mem_of_parent?_eq hlink)
      · rw [count_map_imageOf (hl.handlesAt_subset hx), hs.count_handlesAt]
        simp only [h.parent?_copy_eq_iff hs hl hx hy]

/-- Every copy stands where its source stands. -/
theorem place_copy (hd : dest.WellFormed) {x : Handle} (hx : x ∈ order) :
    b.place (imageOf dest.size order x) = source.place x := by
  have hr := h.rooted hs hl hd
  obtain ⟨path, hp⟩ := hs.rooted x (hl.mem hx)
  have hoffset : ∀ y ∈ order, b.offset (imageOf dest.size order y) =
      if y = root then source.place root else source.offset y := by
    intro y hy
    obtain ⟨node, hn⟩ := mem_iff_node?.mp (hl.mem hy)
    rw [offset, offset, h.node?_copy y hy, hn]
    simp [Node.copied]
  -- up to the root of the clone all positions are the same, and the root has the place of its source
  have hroot : b.place (imageOf dest.size order root) = source.place root := by
    have hmem := hl.subset List.mem_cons_self
    rw [place_of_root (h.imageOf_mem hmem), hoffset root hmem, if_pos rfl]
    rw [h.parent?_copy hmem, if_pos rfl]
  induction hp with
  | @root x mem top =>
    by_cases hxr : x = root
    · rw [hxr, hroot]
    · obtain ⟨p, -, hlink⟩ := hl.exists_parent hs hx hxr
      rw [top] at hlink
      cases hlink
  | @step x p path link rest ih =>
    by_cases hxr : x = root
    · rw [hxr, hroot]
    · obtain ⟨p', hp', hlink⟩ := hl.exists_parent hs hx hxr
      obtain rfl : p = p' := Option.some.inj (link.symm.trans hlink)
      have hlink' := (h.parent?_copy_eq_iff hs hl hp' hx).mpr link
      rw [hr.place_of_parent? hlink', hs.rooted.place_of_parent? link, ih hp', hoffset x hx, if_neg hxr]

omit hs in
theorem listing : b.Listing [imageOf dest.size order root] (order.map (imageOf dest.size order)) := by
  refine hl.map fun x hx cs hc => ?_
  obtain ⟨node, hn, hole, rfl⟩ := exists_node?_of_children hc
  refine children_eq_ok_iff.mpr ⟨_, get_eq (by rw [h.node?_copy x hx, hn]; rfl), ?_, ?_⟩
  · exact (Payload.firstHole?_renamed _ _).trans hole
  · exact (Payload.handles_renamed _ _).symm

end CopyOf

end Arena

end ScriptTree
