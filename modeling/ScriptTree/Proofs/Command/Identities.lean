import ScriptTree.Proofs.Command.Effect
import ScriptTree.Proofs.Edit.Readings

/-!
# Identities under commands

No command changes the identity of a node.  A new node has the identity that the generator hands out next, and a copy has
that of its source, for which nothing is drawn (`Command.Identities`).
-/

namespace ScriptTree

theorem CloneMap.mem_of_get?_ofOrder {size : Nat} {order : List Handle} {x y : Handle}
    (h : (CloneMap.ofOrder size order).get? x = some y) : x ∈ order ∧ y = imageOf size order x := by
  by_cases hx : x ∈ order
  · rw [get?_ofOrder hx] at h
    exact ⟨hx, (Option.some.inj h).symm⟩
  · have hnone : (CloneMap.ofOrder size order).get? x = none := by
      simp only [get?, ofOrder, Option.map_eq_none_iff, List.find?_eq_none, List.mem_map]
      rintro e ⟨z, hz, rfl⟩
      simp only [beq_iff_eq]
      exact fun hzx => hx (hzx ▸ hz)
    rw [hnone] at h
    cases h

namespace Arena

/-- The identity of a node. -/
def id? (a : Arena) (h : Handle) : Option UInt32 := (a.node? h).map (·.id)

section Views

variable {a b : Arena} {h x : Handle}

theorem id?_eq {node : Node} (hn : a.node? h = some node) : a.id? h = some node.id := by rw [id?, hn, Option.map_some]

theorem id?_eq_some_iff {id : UInt32} : a.id? h = some id ↔ a.id h = .ok id := by
  by_cases hh : h ∈ a
  · obtain ⟨node, hn⟩ := mem_iff_node?.mp hh
    simp [id?_eq hn, Arena.id, get_eq hn, bind, Except.bind, pure, Except.pure]
  · simp [id?, node?_eq_none hh, Arena.id, get_eq_error hh, bind, Except.bind]

theorem mem_iff_id? : h ∈ a ↔ ∃ id, a.id? h = some id := by
  rw [mem_iff_node?, id?]
  cases a.node? h <;> simp

theorem id?_update {f : Node → Node} (hf : ∀ node, (f node).id = node.id) : (a.update h f).id? x = a.id? x := by
  rw [id?, id?, node?_update]
  split
  · simp only [Option.map_map, Function.comp_def, hf]
  · rfl

/-- The identity does not depend on where a node stands. -/
theorem id?_of_unplaced? (h : b.unplaced? x = a.unplaced? x) : b.id? x = a.id? x := by
  have hid : ∀ c : Arena, c.id? x = (c.unplaced? x).map (·.id) := by
    intro c
    rw [id?, unplaced?, Option.map_map]
    rfl
  rw [hid, hid, h]

@[simp] theorem ids_spanned (span : Span) : (a.spanned h span).ids = a.ids := rfl

@[simp] theorem id?_spanned (span : Span) : (a.spanned h span).id? x = a.id? x := id?_update fun _ => rfl

end Views

section New

variable {a b : Arena} {x : Handle} {p : Payload} {span : Span}

theorem id?_allocated (hx : x ∈ a) : (a.allocated p span).id? x = a.id? x := by
  rw [allocated, id?_of_unplaced? (unplaced?_movedEach _), id?, seeded, node?_push, size_drawn, if_neg (Nat.ne_of_lt hx)]
  rfl

theorem id?_allocated_self : (a.allocated p span).id? ⟨a.size⟩ = some a.ids.peek := by
  rw [allocated, id?_of_unplaced? (unplaced?_movedEach _), id?_eq node?_seeded_self, IdGenerator.fst_draw]

theorem ids_allocated : (a.allocated p span).ids = a.ids.draw.2 := ids_movedEach _ _

theorem mem_allocated : x ∈ a.allocated p span ↔ x ∈ a ∨ x = ⟨a.size⟩ := by
  rw [allocated, mem_movedEach, mem_seeded]
  exact or_congr Iff.rfl ⟨fun h => Handle.index_injective h, fun h => congrArg Handle.index h⟩

variable {source : Arena} {root : Handle} {order : List Handle} (h : source.CopyOf a root order b)

include h

theorem CopyOf.id?_old (hx : x ∈ a) : b.id? x = a.id? x := by rw [id?, id?, h.node?_old x hx]

theorem CopyOf.id?_copy (hx : x ∈ order) : b.id? (imageOf a.size order x) = source.id? x := by
  rw [id?, id?, h.node?_copy x hx, Option.map_map]
  rfl

theorem CopyOf.id?_of_get? (hl : source.Listing [root] order) {y : Handle}
    (hxy : (CloneMap.ofOrder a.size order).get? x = some y) : ∃ id, source.id? x = some id ∧ b.id? y = some id := by
  obtain ⟨hx, rfl⟩ := CloneMap.mem_of_get?_ofOrder hxy
  obtain ⟨id, hid⟩ := mem_iff_id?.mp (hl.mem hx)
  exact ⟨id, hid, (h.id?_copy hx).trans hid⟩

end New

end Arena

namespace Command

open Arena

/-- What a command with its answer does to identities: old nodes keep theirs, a new node has the one that was drawn for it,
and copies have those of their sources. -/
structure Identities (a : Arena) (c : Command) (r : Except TreeError Reply) (b : Arena) : Prop where
  kept : ∀ x ∈ a, b.id? x = a.id? x
  ids_eq : b.ids = if (c.allocates? a).isSome then a.ids.draw.2 else a.ids
  node : ∀ h, r = .ok (.node h) → (c.allocates? a).isSome ∧ b.id? h = some a.ids.peek
  copy : ∀ map, r = .ok (.clone map) → ∀ x y, map.get? x = some y → x ∈ a ∧ b.id? y = a.id? x
  old_or_new : ∀ x ∈ b, x ∈ a ∨ r = .ok (.node x) ∨ ∃ map y, r = .ok (.clone map) ∧ map.get? y = some x

section Cases

variable {a b : Arena} {c : Command} {r : Except TreeError Reply}

/-- A command that makes no nodes and draws nothing. -/
theorem identities_of_id?_eq (hids : b.ids = a.ids) (idle : c.allocates? a = none) (hnode : ∀ h, r ≠ .ok (.node h))
    (hclone : ∀ map, r ≠ .ok (.clone map)) (h : ∀ x, b.id? x = a.id? x) : Identities a c r b where
  kept x _ := h x
  ids_eq := by rw [hids, idle]; rfl
  node x hx := absurd hx (hnode x)
  copy map hmap := absurd hmap (hclone map)
  old_or_new x hx := .inl (by rwa [mem_iff_id?, ← h, ← mem_iff_id?])

/-- A command that moves nodes about, and makes none. -/
theorem identities_of_unplaced?_eq (hids : b.ids = a.ids) (idle : c.allocates? a = none)
    (hnode : ∀ h, r ≠ .ok (.node h)) (hclone : ∀ map, r ≠ .ok (.clone map))
    (h : ∀ x, b.unplaced? x = a.unplaced? x) : Identities a c r b :=
  identities_of_id?_eq hids idle hnode hclone fun x => id?_of_unplaced? (h x)

theorem identities_allocated {p : Payload} (span : Span) (planned : c.allocates? a = some p)
    (hids : b.ids = a.ids.draw.2) (h : ∀ x, b.id? x = (a.allocated p span).id? x) :
    Identities a c (.ok (.node ⟨a.size⟩)) b where
  kept x hx := (h x).trans (id?_allocated hx)
  ids_eq := by rw [hids, planned]; rfl
  node x hx := by
    cases hx
    exact ⟨by rw [planned]; rfl, (h _).trans id?_allocated_self⟩
  copy map hmap := by cases hmap
  old_or_new x hx := by
    rw [mem_iff_id?, h, ← mem_iff_id?, mem_allocated] at hx
    rcases hx with hx | rfl
    · exact .inl hx
    · exact .inr (.inl rfl)

theorem identities_cloned {n : Handle} {order : List Handle} {d : Arena} (idle : c.allocates? a = none)
    (hl : a.Listing [n] order) (hnd : order.Nodup) (copy : a.CopyOf a n order d) (hids : b.ids = d.ids)
    (h : ∀ x, b.id? x = d.id? x) : Identities a c (.ok (.clone (.ofOrder a.size order))) b where
  kept x hx := (h x).trans (copy.id?_old hx)
  ids_eq := by rw [hids, copy.ids_eq, idle]; rfl
  node x hx := by cases hx
  copy map hmap x y hxy := by
    cases hmap
    obtain ⟨hx, rfl⟩ := CloneMap.mem_of_get?_ofOrder hxy
    exact ⟨hl.mem hx, (h _).trans (copy.id?_copy hx)⟩
  old_or_new x hx := by
    rw [mem_iff_id?, h, ← mem_iff_id?] at hx
    rcases copy.old_or_copy hx hnd with hx | ⟨y, hy, rfl⟩
    · exact .inl hx
    · exact .inr (.inr ⟨_, y, rfl, get?_ofOrder hy⟩)

theorem Effect.identities (h : Effect a c r b) (hw : a.WellFormed) : Identities a c r b := by
  cases h with
  | refused idle => exact identities_of_id?_eq rfl idle (by simp) (by simp) fun _ => rfl
  | drawn planned =>
    refine ⟨fun _ _ => rfl, ?_, by simp, by simp, fun x hx => .inl hx⟩
    rw [planned]
    rfl
  | allocated check => exact identities_allocated _ rfl ids_allocated fun _ => rfl
  | @constructed k p span planned check =>
    have hplanned : (construct k).allocates? a = some p := by
      rw [allocates?, planned]
      rfl
    refine identities_allocated span hplanned ?_ fun x => ?_
    · unfold Arena.constructed
      split
      · rw [ids_recomputed, ids_allocated]
      · exact ids_allocated
    · unfold Arena.constructed
      split
      · exact id?_of_unplaced? unplaced?_recomputed
      · rfl
  | emptied held => exact identities_of_unplaced?_eq (by simp) rfl (by simp) (by simp) (by simp)
  | found => exact identities_of_id?_eq rfl rfl (by simp) (by simp) fun _ => rfl
  | filled => exact identities_of_unplaced?_eq (by simp) rfl (by simp) (by simp) (by simp)
  | pushed => exact identities_of_unplaced?_eq (by simp) rfl (by simp) (by simp) (by simp)
  | listed => exact identities_of_unplaced?_eq (by simp) rfl (by simp) (by simp) (by simp)
  | detached => exact identities_of_unplaced?_eq (by simp) rfl (by simp) (by simp) (by simp)
  | recomputed => exact identities_of_unplaced?_eq (by simp) rfl (by simp) (by simp) (by simp)
  | cloned listed copy =>
    exact identities_cloned rfl (listing_of_preOrder listed) (hw.nodup_of_preOrder listed) copy rfl fun _ => rfl
  | clonedIntoList listed copy =>
    refine identities_cloned rfl (listing_of_preOrder listed) (hw.nodup_of_preOrder listed) copy (by simp) fun x => ?_
    exact (id?_spanned _).trans (id?_of_unplaced? unplaced?_moved)
  | clonedIntoSlot listed copy =>
    refine identities_cloned rfl (listing_of_preOrder listed) (hw.nodup_of_preOrder listed) copy (by simp) fun x => ?_
    exact (id?_spanned _).trans (id?_of_unplaced? (unplaced?_filled _))
  | @marked h m =>
    exact identities_of_id?_eq rfl rfl (by simp) (by simp) fun x => id?_update fun node => by cases m <;> rfl
  | spanned => exact identities_of_id?_eq rfl rfl (by simp) (by simp) fun x => id?_spanned _
  | refined => exact identities_of_id?_eq rfl rfl (by simp) (by simp) fun x => id?_update fun _ => rfl

end Cases

end Command

end ScriptTree
