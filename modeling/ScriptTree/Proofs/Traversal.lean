import ScriptTree.Proofs.Subtrees
import ScriptTree.Walk.Recursion

/-!
# Listings of subtrees

`Listing` says, without any bound on depth, which nodes the subtrees of some siblings have in the order of a walk, if no
required slot among them is empty.  The order of a walk is a listing (`listing_of_preOrder`).  In a well-formed arena the
subtree of a node fits into the bound on depth.  So the walk that wants to see everything ends at the first hole of the
subtree (`WellFormed.preOrder_eq`), and without one it finds the listing (`WellFormed.preOrder_eq_ok_iff`).
-/

namespace ScriptTree

namespace Arena

/-- The nodes of the subtrees of some siblings, each before its children; no required slot among them is empty. -/
inductive Listing (a : Arena) : List Handle → List Handle → Prop
  | nil : Listing a [] []
  | cons {h : Handle} {hs cs xs ys : List Handle} (children : a.children h = .ok cs) (below : Listing a cs xs)
      (rest : Listing a hs ys) : Listing a (h :: hs) (h :: (xs ++ ys))

namespace Listing

variable {a : Arena} {hs xs : List Handle}

theorem subtrees (h : a.Listing hs xs) : a.Subtrees hs xs := by
  induction h with
  | nil => exact .nil
  | cons hc _ _ ihb ihr => exact .cons (mem_of_children hc) (handlesAt_of_children hc ▸ ihb) ihr

theorem hole?_eq_none (h : a.Listing hs xs) {x : Handle} (hx : x ∈ xs) : a.hole? x = none := by
  induction h with
  | nil => cases hx
  | cons hc _ _ ihb ihr =>
    rcases List.mem_cons.mp hx with rfl | hx
    · exact hole?_of_children hc
    · exact (List.mem_append.mp hx).elim ihb ihr

theorem sublist (h : a.Listing hs xs) : hs.Sublist xs := h.subtrees.sublist

theorem subset (h : a.Listing hs xs) : hs ⊆ xs := h.subtrees.subset

theorem mem (h : a.Listing hs xs) {x : Handle} (hx : x ∈ xs) : x ∈ a := h.subtrees.mem hx

theorem handlesAt_subset (h : a.Listing hs xs) {x : Handle} (hx : x ∈ xs) : a.handlesAt x ⊆ xs :=
  h.subtrees.handlesAt_subset hx

/-- Wherever a node is listed, its children come behind it. -/
theorem handlesAt_subset_behind (h : a.Listing hs xs) {l r : List Handle} {x : Handle} (hxs : xs = l ++ x :: r) :
    a.handlesAt x ⊆ r := by
  induction h generalizing l r with
  | nil => simp at hxs
  | @cons h hs cs xs ys hc below _ ihb ihr =>
    cases l with
    | nil =>
      obtain ⟨rfl, rfl⟩ := List.cons.inj hxs
      rw [handlesAt_of_children hc]
      exact fun c hcs => List.mem_append_left _ (below.subset hcs)
    | cons y l =>
      rcases List.append_eq_append_iff.mp (List.cons.inj hxs).2 with ⟨l', hl, hys⟩ | ⟨t, ht, hys⟩
      · exact ihr hys
      · cases t with
        | nil => exact @ihr [] r hys.symm
        | cons y t =>
          obtain ⟨rfl, rfl⟩ := List.cons.inj hys
          exact fun c hcs => List.mem_append_left _ (ihb ht hcs)

theorem children_eq (h : a.Listing hs xs) {x : Handle} (hx : x ∈ xs) : a.children x = .ok (a.handlesAt x) := by
  rw [Arena.children_eq (h.mem hx), h.hole?_eq_none hx]

theorem eq_cons {r : Handle} (h : a.Listing [r] xs) : ∃ below, xs = r :: below := h.subtrees.eq_cons

theorem exists_listing (h : a.Listing hs xs) {x : Handle} (hx : x ∈ xs) : ∃ zs, a.Listing [x] zs := by
  induction h with
  | nil => cases hx
  | cons hc below _ ihb ihr =>
    rcases List.mem_cons.mp hx with rfl | hx
    · exact ⟨_, .cons hc below .nil⟩
    · exact (List.mem_append.mp hx).elim ihb ihr

/-- What every node has if its children have it, the nodes of a listing have. -/
theorem children_induction {P : Handle → Prop} (h : a.Listing hs xs)
    (step : ∀ x ∈ xs, (∀ c ∈ a.handlesAt x, P c) → P x) : ∀ x ∈ xs, P x := by
  induction h with
  | nil => exact fun x hx => absurd hx List.not_mem_nil
  | @cons h hs cs xs ys hc below _ ihb ihr =>
    have hbelow : ∀ x ∈ xs, P x := ihb fun x hx => step x (List.mem_cons_of_mem _ (List.mem_append_left _ hx))
    have hsiblings : ∀ x ∈ ys, P x := ihr fun x hx => step x (List.mem_cons_of_mem _ (List.mem_append_right _ hx))
    have hself : P h := step h List.mem_cons_self fun c hcs => hbelow c (below.subset (handlesAt_of_children hc ▸ hcs))
    intro x hx
    rcases List.mem_cons.mp hx with rfl | hx
    · exact hself
    · exact (List.mem_append.mp hx).elim (hbelow x) (hsiblings x)

/-- A listing goes over into another arena along a map that takes the children of each listed node to the children of its
image. -/
theorem map {b : Arena} {f : Handle → Handle} (h : a.Listing hs xs)
    (hf : ∀ x ∈ xs, ∀ cs, a.children x = .ok cs → b.children (f x) = .ok (cs.map f)) :
    b.Listing (hs.map f) (xs.map f) := by
  induction h with
  | nil => exact .nil
  | @cons h hs cs xs ys hc _ _ ihb ihr =>
    rw [List.map_cons, List.map_cons, List.map_append]
    refine .cons (hf h List.mem_cons_self cs hc) (ihb ?_) (ihr ?_)
    · exact fun x hx => hf x (List.mem_cons_of_mem _ (List.mem_append_left _ hx))
    · exact fun x hx => hf x (List.mem_cons_of_mem _ (List.mem_append_right _ hx))

end Listing

theorem exists_listing_of_each {a : Arena} {hs : List Handle} (h : ∀ x ∈ hs, ∃ xs, a.Listing [x] xs) :
    ∃ xs, a.Listing hs xs := by
  induction hs with
  | nil => exact ⟨[], .nil⟩
  | cons x hs ih =>
    obtain ⟨xs, hx⟩ := h x List.mem_cons_self
    obtain ⟨ys, hys⟩ := ih fun y hy => h y (List.mem_cons_of_mem _ hy)
    cases hx with
    | cons children below _ => exact ⟨_, .cons children below hys⟩

/-- Subtrees without holes are a listing. -/
theorem Subtrees.listing {a : Arena} {hs xs : List Handle} (h : a.Subtrees hs xs) (hole : ∀ x ∈ xs, a.hole? x = none) :
    a.Listing hs xs := by
  induction h with
  | nil => exact .nil
  | @cons h hs xs ys mem _ _ ihb ihr =>
    have hc : a.children h = .ok (a.handlesAt h) := by rw [children_eq mem, hole h List.mem_cons_self]
    refine .cons hc (ihb ?_) (ihr ?_)
    · exact fun x hx => hole x (List.mem_cons_of_mem _ (List.mem_append_left _ hx))
    · exact fun x hx => hole x (List.mem_cons_of_mem _ (List.mem_append_right _ hx))

/-! ### Listings in well-formed arenas -/

section WellFormed

variable {a : Arena} (hw : a.WellFormed) {x : Handle} {path : List Handle}

include hw

/-- The listing of one subtree has the nodes with its root on their ascent. -/
theorem Listing.mem_iff {r : Handle} {xs : List Handle} (h : a.Listing [r] xs) (hp : a.Ascent x path) :
    x ∈ xs ↔ r ∈ path :=
  h.subtrees.mem_iff hw hp

theorem Listing.nodup {r : Handle} {xs : List Handle} (h : a.Listing [r] xs) : xs.Nodup := h.subtrees.nodup hw

theorem Listing.length_le {r : Handle} {xs : List Handle} (h : a.Listing [r] xs) : xs.length ≤ a.size :=
  h.subtrees.length_le hw

/-- The parent of a listed node is listed, unless the node is the root of the subtree. -/
theorem Listing.exists_parent {r : Handle} {xs : List Handle} (h : a.Listing [r] xs) (hx : x ∈ xs) (hxr : x ≠ r) :
    ∃ p ∈ xs, a.parent? x = some p := by
  obtain ⟨p, hp, hlink, -⟩ := h.subtrees.exists_parent_before hw hx hxr
  exact ⟨p, hp, hlink⟩

/-- The children and the parent of a node of a subtree are nodes of the subtree, but for the parent of the root. -/
theorem Listing.links_mem {r : Handle} {xs : List Handle} (h : a.Listing [r] xs) {node : Node}
    (hn : a.node? x = some node) (hx : x ∈ xs) :
    (∀ c ∈ node.payload.handles, c ∈ xs) ∧ (x ≠ r → ∃ p ∈ xs, node.parent = some p) := by
  constructor
  · rw [← handlesAt_eq hn]
    exact fun c hc => h.handlesAt_subset hx hc
  · intro hxr
    obtain ⟨p, hp, hlink⟩ := h.exists_parent hw hx hxr
    exact ⟨p, hp, (parent?_eq hn).symm.trans hlink⟩

end WellFormed

/-! ### The order of a walk -/

section Walk

variable {a : Arena}

/-- A walk that records all it sees and comes to its end has seen a listing. -/
theorem listing_of_visitSiblings {depth : Nat} {hs seen seen' : List Handle} {b : Bool}
    (h : a.visitSiblings recordAll depth hs seen = (.ok b, seen')) :
    b = true ∧ ∃ xs, a.Listing hs xs ∧ seen' = xs.reverse ++ seen := by
  fun_induction visitSiblings a recordAll depth hs seen generalizing seen' b with
  | case1 =>
    cases h
    exact ⟨rfl, [], .nil, rfl⟩
  | case2 => cases h
  | case3 _ _ _ _ _ hv => cases hv
  | case4 _ _ _ _ _ hv => cases hv
  | case5 => cases h
  | case6 depth x rest seen s hv cs hc s' hr ihb ihr =>
    cases hv
    obtain ⟨-, xs, hxs, rfl⟩ := ihb hr
    obtain ⟨rfl, ys, hys, rfl⟩ := ihr h
    refine ⟨rfl, _, .cons hc hxs hys, ?_⟩
    simp
  | case7 depth x rest seen s hv cs hc hr ih =>
    obtain ⟨rfl, -⟩ := ih h
    exact absurd h (hr seen')

/-- A walk that records all it sees comes to the end of the subtrees, or to their first hole. -/
theorem Subtrees.visitSiblings_eq {hs xs : List Handle} (h : a.Subtrees hs xs) (depth : Nat) (hd : xs.length ≤ depth)
    (seen : List Handle) :
    ∃ seen', a.visitSiblings recordAll depth hs seen =
      match xs.findSome? a.hole? with
      | none => (.ok true, xs.reverse ++ seen)
      | some e => (.error e, seen') := by
  induction h generalizing depth seen with
  | nil => exact ⟨[], by simp [visitSiblings]⟩
  | @cons x hs xs ys mem below rest ihb ihr =>
    simp only [List.length_cons, List.length_append] at hd
    obtain ⟨depth, rfl⟩ : ∃ k, depth = k + 1 := ⟨depth - 1, by omega⟩
    obtain ⟨seen₁, hb⟩ := ihb depth (by omega) (x :: seen)
    obtain ⟨seen₂, hr⟩ := ihr (depth + 1) (by omega) (xs.reverse ++ x :: seen)
    rw [visitSiblings, List.findSome?_cons, List.findSome?_append]
    simp only [recordAll, children_eq mem]
    cases hx : a.hole? x with
    | some e => exact ⟨x :: seen, rfl⟩
    | none =>
      simp only [hb]
      cases hxs : xs.findSome? a.hole? with
      | some e => exact ⟨seen₁, rfl⟩
      | none =>
        refine ⟨seen₂, ?_⟩
        simp only [hr, Option.none_or]
        cases ys.findSome? a.hole? <;> simp

theorem listing_of_preOrder {r : Handle} {xs : List Handle} (h : a.preOrder r = .ok xs) : a.Listing [r] xs := by
  rw [preOrder, walk_eq_visit] at h
  split at h
  · rename_i b seen hv
    unfold visit at hv
    split at hv
    · cases hv
    · obtain ⟨-, ys, hys, rfl⟩ := listing_of_visitSiblings hv
      obtain rfl : ys = xs := by simpa using h
      exact hys
  · cases h

theorem preOrder_eq_error {r : Handle} (hr : r ∉ a) : a.preOrder r = .error (.unknownNode r) := by
  rw [preOrder, walk, get_eq_error hr]

/-- The order of a walk is the subtree, unless there is a hole in it. -/
theorem WellFormed.preOrder_eq (hw : a.WellFormed) {r : Handle} {xs : List Handle} (h : a.Subtrees [r] xs) :
    a.preOrder r = match xs.findSome? a.hole? with
      | none => .ok xs
      | some e => .error e := by
  have hlen := h.length_le hw
  obtain ⟨node, hn⟩ := mem_iff_node?.mp (h.mem (h.subset List.mem_cons_self))
  obtain ⟨seen, hv⟩ := h.visitSiblings_eq (a.size + 1) (by omega) []
  rw [preOrder, walk_eq_visit, visit, get_eq hn]
  simp only [hv]
  cases xs.findSome? a.hole? <;> simp

/-- If a walk fails there is no such node, or the error is the first hole of the subtree. -/
theorem WellFormed.preOrder_error_cases (hw : a.WellFormed) {r : Handle} {e : TreeError} (h : a.preOrder r = .error e) :
    (r ∉ a ∧ e = .unknownNode r) ∨ ∃ xs, a.Subtrees [r] xs ∧ xs.findSome? a.hole? = some e := by
  by_cases hr : r ∈ a
  · right
    obtain ⟨xs, hxs⟩ := hw.exists_subtree hr
    rw [hw.preOrder_eq hxs] at h
    cases hfind : xs.findSome? a.hole? with
    | none => simp [hfind] at h
    | some e' =>
      rw [hfind] at h
      obtain rfl : e' = e := Except.error.inj h
      exact ⟨xs, hxs, hfind⟩
  · left
    exact ⟨hr, Except.error.inj (h.symm.trans (preOrder_eq_error hr))⟩

/-- The order of a walk is the listing. -/
theorem WellFormed.preOrder_eq_ok_iff (hw : a.WellFormed) {r : Handle} {xs : List Handle} :
    a.preOrder r = .ok xs ↔ a.Listing [r] xs := by
  constructor
  · exact listing_of_preOrder
  · intro h
    have hole : xs.findSome? a.hole? = none := List.findSome?_eq_none_iff.mpr fun x hx => h.hole?_eq_none hx
    rw [hw.preOrder_eq h.subtrees, hole]

/-- No node is listed twice. -/
theorem WellFormed.nodup_of_preOrder (hw : a.WellFormed) {r : Handle} {xs : List Handle} (h : a.preOrder r = .ok xs) :
    xs.Nodup :=
  (listing_of_preOrder h).nodup hw

end Walk

end Arena

end ScriptTree
