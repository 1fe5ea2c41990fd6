import ScriptTree.Proofs.Workspace

/-!
# Clones in a workspace

Whenever a subtree can be walked it can be cloned: in its arena, into another one and into a new one.  `CloneOf` says in
full what the result is; `clone_isomorphic` is the statement for the three destinations.
-/

namespace ScriptTree

/-- The copy of a node; a node without a copy stands for itself. -/
def CloneMap.image (m : CloneMap) (x : Handle) : Handle := (m.get? x).getD x

/-- `result` has the nodes of `dest` and behind them copies of the nodes `order` of `source`, which are the subtree of
`root`; `root` stands at `place` in the source. -/
structure Arena.CloneOf (source dest result : Arena) (root : Handle) (place : Int) (order : List Handle)
    (map : CloneMap) : Prop where
  map_root : map.root = ⟨dest.size⟩
  map_entries : ∀ i : Nat, map.entries[i]? = order[i]?.map fun x => (x, ⟨dest.size + i⟩)
  ids_eq : result.ids = dest.ids
  size_eq : result.size = dest.size + order.length
  get_old : ∀ h ∈ dest, result.get h = dest.get h
  place_eq : source.absolutePosition root = .ok place
  /-- A copy is its source but for its children and its parent, which are copies; the first one is a root. -/
  get_copy : ∀ (i : Nat) (x : Handle), order[i]? = some x → ∃ node, source.get x = .ok node ∧
    (∀ c ∈ node.payload.handles, c ∈ order) ∧ (i ≠ 0 → ∃ p ∈ order, node.parent = some p) ∧
    result.get ⟨dest.size + i⟩ = .ok
      { node with
        payload := node.payload.renamed map.image
        parent := if i = 0 then none else node.parent.map map.image
        span := { node.span with position := if i = 0 then place else node.span.position } }
  absolutePosition_copy : ∀ (i : Nat) (x : Handle), order[i]? = some x →
    result.absolutePosition ⟨dest.size + i⟩ = source.absolutePosition x
  preOrder_copy : result.preOrder map.root = .ok (order.map map.image)

theorem CloneMap.image_ofOrder (size : Nat) {order : List Handle} {x : Handle} (hx : x ∈ order) :
    (CloneMap.ofOrder size order).image x = imageOf size order x := by
  rw [CloneMap.image, get?_ofOrder hx]
  rfl

theorem imageOf_of_getElem? (size : Nat) {order : List Handle} (hnd : order.Nodup) {i : Nat} {x : Handle}
    (hx : order[i]? = some x) : imageOf size order x = ⟨size + i⟩ := by
  obtain ⟨hi, rfl⟩ := List.getElem?_eq_some_iff.mp hx
  rw [imageOf, hnd.idxOf_getElem]

namespace Arena

/-- The root of a subtree is the first of its nodes, and only the first one is the root. -/
theorem Listing.eq_root_iff {a : Arena} {root : Handle} {order : List Handle} (h : a.Listing [root] order)
    (hnd : order.Nodup) {i : Nat} {x : Handle} (hx : order[i]? = some x) : x = root ↔ i = 0 := by
  have hsame := imageOf_of_getElem? 0 hnd hx
  constructor
  · rintro rfl
    rw [h.imageOf_root] at hsame
    simpa using hsame.symm
  · rintro rfl
    obtain ⟨below, rfl⟩ := h.eq_cons
    exact (Option.some.inj hx).symm

theorem CopyOf.cloneOf {source dest b : Arena} {root : Handle} {order : List Handle}
    (h : source.CopyOf dest root order b) (hs : source.WellFormed) (hd : dest.WellFormed)
    (hl : source.Listing [root] order) :
    source.CloneOf dest b root (source.place root) order (.ofOrder dest.size order) := by
  have hnd := hl.nodup hs
  have hwb := h.wellFormed hs hl hd
  have hroot := hs.rooted.absolutePosition_eq (hl.mem (hl.subset List.mem_cons_self))
  refine ⟨rfl, ?_, h.ids_eq, h.size_eq, ?_, hroot, ?_, ?_, ?_⟩
  · intro i
    rw [CloneMap.ofOrder, List.getElem?_map]
    cases hx : order[i]? with
    | none => rfl
    | some x => rw [Option.map_some, Option.map_some, imageOf_of_getElem? dest.size hnd hx]
  · intro x hx
    obtain ⟨node, hn⟩ := mem_iff_node?.mp hx
    rw [get_eq hn, get_eq ((h.node?_old x hx).trans hn)]
  · intro i x hx
    have hmem := List.mem_of_getElem? hx
    have hfirst := hl.eq_root_iff hnd hx
    obtain ⟨node, hn⟩ := mem_iff_node?.mp (hl.mem hmem)
    obtain ⟨hchildren, hparent⟩ := hl.links_mem hs hn hmem
    refine ⟨node, get_eq hn, hchildren, fun hi => hparent (mt hfirst.mp hi), get_eq ?_⟩
    have hpayload := Payload.renamed_congr (p := node.payload) fun c hc =>
      CloneMap.image_ofOrder dest.size (hchildren c hc)
    rw [← imageOf_of_getElem? dest.size hnd hx, h.node?_copy x hmem, hn, Option.map_some, Option.some.injEq, Node.copied,
      hpayload]
    by_cases hi : i = 0
    · simp only [hi, hfirst.mpr hi, ↓reduceIte]
    · obtain ⟨p, hp, hlink⟩ := hparent (mt hfirst.mp hi)
      simp only [hi, mt hfirst.mp hi, hlink, Option.map_some, CloneMap.image_ofOrder dest.size hp, ↓reduceIte]
  · intro i x hx
    have hmem := List.mem_of_getElem? hx
    rw [← imageOf_of_getElem? dest.size hnd hx, hwb.rooted.absolutePosition_eq (h.imageOf_mem hmem),
      h.place_copy hs hl hd hmem, hs.rooted.absolutePosition_eq (hl.mem hmem)]
  · have hlist := h.listing hl
    rw [hl.imageOf_root] at hlist
    have himages : order.map (CloneMap.ofOrder dest.size order).image = order.map (imageOf dest.size order) :=
      List.map_congr_left fun x hx => CloneMap.image_ofOrder dest.size hx
    rw [hwb.preOrder_eq_ok_iff, himages]
    exact hlist

end Arena

namespace Workspace

/-- The workspace `w'` is `w` with a clone behind the nodes `dest` of arena `j`. -/
structure GainsClone (w w' : Workspace) (source dest : Arena) (n : Handle) (order : List Handle) (j : Nat)
    (map : CloneMap) : Prop where
  generators_eq : w'.generators = w.generators
  cloned : ∃ result place, w'.arena? j = some result ∧ source.CloneOf dest result n place order map
  others : ∀ k, k ≠ j → w'.arena? k = w.arena? k

theorem gainsClone_put {w : Workspace} {source dest result : Arena} {n : Handle} {place : Int} {order : List Handle}
    {j : Nat} {map : CloneMap} (hj : w.arena? j = some dest) (h : source.CloneOf dest result n place order map) :
    w.GainsClone (w.put j result) source dest n order j map := by
  obtain ⟨hgenerators, hresult, hothers⟩ := put_of_ids_eq hj h.ids_eq
  exact ⟨hgenerators, ⟨result, place, hresult, h⟩, hothers⟩

/-- A subtree that can be walked can be cloned in its arena, into any other one and into a new one.  No identity is drawn,
and of the arenas only the one with the clone changes. -/
theorem clone_isomorphic {w : Workspace} (hw : w.Reachable) {i : Nat} {a : Arena} (hi : w.arena? i = some a)
    {n : Handle} {order : List Handle} (h : a.preOrder n = .ok order) :
    (∃ map w', w.edit? i (Edit.cloneSubtree n none) = some (.ok map, w') ∧ w.GainsClone w' a a n order i map) ∧
    (∀ j dest, w.arena? j = some dest → ∃ map w', w.copyInto? i n j = some (.ok map, w') ∧
      w.GainsClone w' a dest n order j map) ∧
    ∃ map w', w.cloneIntoNewArena? i n = some (.ok map, w') ∧
      w.GainsClone w' a (.ofGenerator a.ids) n order w.size map := by
  have hwf := hw.wellFormed
  have ha := hwf.arena hi
  have hl := Arena.listing_of_preOrder h
  refine ⟨?_, ?_, ?_⟩
  · obtain ⟨b, hclone, hb⟩ := Edit.run_cloneSubtree_none ha h
    exact ⟨_, _, edit?_of_ok hi hclone, gainsClone_put hi (hb.cloneOf ha ha hl)⟩
  · intro j dest hj
    obtain ⟨b, hrun, hb⟩ := Edit.run_copyFrom dest ha h
    refine ⟨_, _, ?_, gainsClone_put hj (hb.cloneOf ha (hwf.arena hj) hl)⟩
    rw [copyInto?_eq_edit? hi, edit?_of_ok hj hrun]
  · rcases hwf.cloneIntoNewArena?_cases hi n with ⟨e, herror, -⟩ | ⟨order', b, g, horder, hb, -, hg, hrun⟩
    · rw [h] at herror
      cases herror
    · obtain rfl : order = order' := Except.ok.inj (h.symm.trans horder)
      have hclone := hb.cloneOf ha (Arena.wellFormed_ofGenerator a.ids) hl
      have hgains := gainsClone_put (arena?_addShelf_size hg) hclone
      refine ⟨_, _, hrun, hgains.generators_eq, hgains.cloned, fun k hk => ?_⟩
      rw [hgains.others k hk, arena?_addShelf hk]

/-- The block and its statement in a new arena, where the block comes first. -/
theorem clone_isomorphic_blockRun :
    ∃ map w', (({} : Workspace).performAll blockRun).cloneIntoNewArena? 0 ⟨1⟩ = some (.ok map, w') ∧
      map.root = ⟨0⟩ ∧ map.entries[1]? = some (⟨0⟩, ⟨1⟩) ∧
        w'.generators = (({} : Workspace).performAll blockRun).generators := by
  have hreach : (({} : Workspace).performAll blockRun).Reachable := ⟨blockRun, by decide, rfl⟩
  obtain ⟨a, ha, hlisting⟩ : ∃ a, (({} : Workspace).performAll blockRun).arena? 0 = some a ∧ a.Listing [⟨1⟩] [⟨1⟩, ⟨0⟩] :=
    ⟨_, rfl, .cons rfl (.cons rfl .nil .nil) .nil⟩
  have horder := (hreach.wellFormed.arena ha).preOrder_eq_ok_iff.mpr hlisting
  obtain ⟨map, w', hrun, hgenerators, ⟨result, place, -, hclone⟩, -⟩ := (clone_isomorphic hreach ha horder).2.2
  exact ⟨map, w', hrun, hclone.map_root, hclone.map_entries 1, hgenerators⟩

end Workspace

end ScriptTree
