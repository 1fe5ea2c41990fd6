import ScriptTree.Edit.Construct
import ScriptTree.Proofs.Edit.Moves
import ScriptTree.Proofs.Payload.Assembly

/-!
# Allocation as moves

To allocate a node is to add it without children and to move the children in, one after the other (`alloc_cases`).  The
edit itself adds the node with all its children in the slots and mends the links afterwards.  On the way its arena is not
well formed; `Assembling` describes the well-formed one that has the same links and differs in the new payload only.
-/

namespace ScriptTree

namespace Arena

def drawn (a : Arena) : Arena := { a with ids := a.ids.draw.2 }

/-- The arena with a new root behind the other nodes, whose slots are still empty. -/
def seeded (a : Arena) (p : Payload) (span : Span) : Arena :=
  a.drawn.push { id := a.ids.draw.1, span, payload := p.emptied }

/-- The arena with a new node behind the others, into which its children have moved. -/
def allocated (a : Arena) (p : Payload) (span : Span) : Arena :=
  (a.seeded p span).movedEach ⟨a.size⟩ p.placedHandles

section Drawn

variable {a : Arena}

@[simp] theorem size_drawn : a.drawn.size = a.size := rfl

@[simp] theorem node?_drawn (h : Handle) : a.drawn.node? h = a.node? h := rfl

theorem sameTrees_drawn (a : Arena) : a.SameTrees a.drawn := ⟨rfl, fun _ => rfl, fun _ => rfl⟩

theorem checkChildren_drawn (v : Variant) (seen : List Handle) (placed : List (Slot × Handle)) :
    a.drawn.checkChildren v seen placed = a.checkChildren v seen placed := by
  induction placed generalizing seen with
  | nil => rfl
  | cons x placed ih =>
    simp only [checkChildren, ih]
    rfl

theorem nodup_of_checkChildren {v : Variant} {seen : List Handle} {placed : List (Slot × Handle)}
    (h : a.checkChildren v seen placed = .ok ()) :
    (placed.map Prod.snd).Nodup ∧ ∀ c ∈ placed.map Prod.snd, c ∈ a ∧ c ∉ seen := by
  induction placed generalizing seen with
  | nil => exact ⟨List.nodup_nil, fun c hc => absurd hc List.not_mem_nil⟩
  | cons x placed ih =>
    obtain ⟨s, c⟩ := x
    rw [checkChildren] at h
    split at h
    · cases h
    · split at h
      · cases h
      · obtain ⟨hnd, hmem⟩ := ih h
        have hc : c ∈ a := contains_iff_mem.mp (by simpa using ‹¬(!a.contains c) = true›)
        have hseen : c ∉ seen := by simpa using ‹¬seen.contains c = true›
        simp only [List.map_cons, List.nodup_cons, List.mem_cons, forall_eq_or_imp]
        refine ⟨⟨fun hm => (hmem c hm).2 List.mem_cons_self, hnd⟩, ⟨hc, hseen⟩, ?_⟩
        exact fun d hd => ⟨(hmem d hd).1, fun hs => (hmem d hd).2 (List.mem_cons_of_mem _ hs)⟩

end Drawn

section Seeded

variable {a : Arena} {p : Payload} {span : Span}

theorem parent?_seeded (x : Handle) : (a.seeded p span).parent? x = a.parent? x := by
  rw [seeded, parent?_push rfl, (sameTrees_drawn a).parent?_eq]

theorem mem_seeded {x : Handle} : x ∈ a.seeded p span ↔ x ∈ a ∨ x.index = a.size := mem_push

theorem node?_seeded_self :
    (a.seeded p span).node? ⟨a.size⟩ = some { id := a.ids.draw.1, span, payload := p.emptied } := by
  rw [seeded, node?_push]
  exact if_pos rfl

theorem WellFormed.seeded (hw : a.WellFormed) : (a.seeded p span).WellFormed :=
  ((sameTrees_drawn a).wellFormed hw).push rfl p.handles_emptied

/-- Adding a node with its children in the slots is adding it without them and writing its payload. -/
theorem update_seeded : (a.seeded p span).update ⟨a.size⟩ (Node.mapPayload fun _ => p) =
    a.drawn.push { id := a.ids.draw.1, span, payload := p } := by
  refine ext_node? rfl fun x => ?_
  rw [seeded, node?_update, node?_push, node?_push]
  by_cases hx : x.index = a.size
  · have hx' : x = ⟨a.size⟩ := Handle.index_injective hx
    simp [hx', Node.mapPayload]
  · have hx' : x ≠ ⟨a.size⟩ := fun h => hx (congrArg Handle.index h)
    simp [hx, hx']

end Seeded

/-- The arena with a node built: a node whose extent is still open takes it from its children. -/
def constructed (a : Arena) (c : Construction) (p : Payload) (span : Span) : Arena :=
  if c.isOpenEnded then (a.allocated p span).recomputed ⟨a.size⟩ else a.allocated p span

/-! ### Moving the children in -/

/-- An arena on the way to an allocated node: some of its children have moved in, the others are still to come. -/
structure Assembling (a : Arena) (o : Handle) (p : Payload) (placed pending : List (Slot × Handle)) : Prop where
  wellFormed : a.WellFormed
  split : p.placedHandles = placed ++ pending
  payload_eq : ∃ node, a.node? o = some node ∧ node.payload = p.emptied.insertEach placed
  top : a.parent? o = none
  mem : ∀ x ∈ pending, x.2 ∈ a
  outside : ∀ x ∈ pending, x.2 ≠ o ∧ a.parent? x.2 ≠ some o
  nodup : (pending.map Prod.snd).Nodup

namespace Assembling

variable {a : Arena} {o : Handle} {p : Payload} {placed pending : List (Slot × Handle)}

theorem ascent (h : a.Assembling o p placed pending) : a.Ascent o [o] := by
  obtain ⟨node, hn, -⟩ := h.payload_eq
  exact .root (mem_of_node? hn) h.top

theorem moved {s : Slot} {c : Handle} (h : a.Assembling o p placed ((s, c) :: pending)) :
    (a.moved o s c).Assembling o p (placed ++ [(s, c)]) pending := by
  obtain ⟨hco, hpar⟩ := h.outside _ List.mem_cons_self
  have hc : c ∈ a := h.mem _ List.mem_cons_self
  obtain ⟨node, hn, hpayload⟩ := h.payload_eq
  have hkeep : (a.severed c).node? o = some node := by rw [node?_severed (Ne.symm hco), if_neg hpar, hn]
  have hroom : node.payload.HasRoom s := hpayload ▸ Payload.hasRoom_insertEach h.split
  have hparent : ∀ x, (a.moved o s c).parent? x = if x = c then some o else a.parent? x := by
    intro x
    rw [Arena.moved, parent?_grafted (mem_severed.mpr hc), parent?_severed]
    split <;> rfl
  have hnd := List.nodup_cons.mp h.nodup
  refine ⟨?_, ?_, ?_, ?_, ?_, ?_, hnd.2⟩
  · exact h.wellFormed.moved ⟨node, hkeep, hroom⟩ hc h.ascent (by simpa using hco)
  · simp [h.split]
  · refine ⟨node.mapPayload (·.insertChild s c), ?_, ?_⟩
    · rw [Arena.moved, node?_grafted (Ne.symm hco), if_pos rfl, hkeep]
      rfl
    · rw [Payload.insertEach_append, ← hpayload]
      rfl
  · rw [hparent, if_neg (Ne.symm hco), h.top]
  · exact fun x hx => mem_moved.mpr (h.mem x (List.mem_cons_of_mem _ hx))
  · intro x hx
    obtain ⟨hxo, hxpar⟩ := h.outside x (List.mem_cons_of_mem _ hx)
    have hxc : x.2 ≠ c := by
      rintro rfl
      exact hnd.1 (List.mem_map.mpr ⟨x, hx, rfl⟩)
    exact ⟨hxo, by rwa [hparent, if_neg hxc]⟩

theorem movedEach {rest : List (Slot × Handle)} (h : a.Assembling o p placed (pending ++ rest)) :
    (a.movedEach o pending).Assembling o p (placed ++ pending) rest := by
  induction pending generalizing a placed with
  | nil => rwa [List.append_nil]
  | cons x pending ih =>
    obtain ⟨s, c⟩ := x
    have hnext := ih (h.moved (s := s) (c := c))
    rwa [List.append_assoc] at hnext

/-- When all children have moved in, the payload is complete. -/
theorem exists_node? (h : a.Assembling o p placed []) : ∃ node, a.node? o = some node ∧ node.payload = p := by
  obtain ⟨node, hn, hpayload⟩ := h.payload_eq
  have hsplit := h.split
  rw [List.append_nil] at hsplit
  exact ⟨node, hn, by rw [hpayload, ← hsplit, Payload.insertEach_placedHandles]⟩

theorem update_eq_self (h : a.Assembling o p placed []) : a.update o (Node.mapPayload fun _ => p) = a := by
  obtain ⟨node, hn, rfl⟩ := h.exists_node?
  exact Arena.update_eq_self hn rfl

end Assembling

/-- Taking a node from where it hangs does not look at the payload of another node than its parent. -/
theorem severed_update_payload {a : Arena} (hr : a.Rooted) {o c : Handle} (hpar : a.parent? c ≠ some o) (hco : c ≠ o)
    (p : Payload) :
    (a.update o (Node.mapPayload fun _ => p)).severed c = (a.severed c).update o (Node.mapPayload fun _ => p) := by
  cases hq : a.parent? c with
  | none =>
    rw [severed_of_root hq, severed_of_root]
    rw [parent?_update_mapPayload, hq]
  | some q =>
    have hoq : o ≠ q := fun h => hpar (h ▸ hq)
    simp only [Arena.severed, parent?_update_mapPayload, hq]
    rw [hr.place_update_mapPayload _ (mem_of_parent? hq), update_comm _ hoq, update_comm _ (Ne.symm hco)]

theorem WellFormed.assembling {a : Arena} (hw : a.WellFormed) {p : Payload} (span : Span) {v : Variant}
    (hcheck : a.checkChildren v [] p.placedHandles = .ok ()) :
    (a.seeded p span).Assembling ⟨a.size⟩ p [] p.placedHandles := by
  obtain ⟨hnd, hmem⟩ := nodup_of_checkChildren hcheck
  have hnew : (⟨a.size⟩ : Handle) ∉ a := Nat.lt_irrefl a.size
  have hold : ∀ x ∈ p.placedHandles, x.2 ∈ a := fun x hx => (hmem _ (List.mem_map_of_mem hx)).1
  refine ⟨hw.seeded, rfl, ⟨_, node?_seeded_self, rfl⟩, ?_, ?_, ?_, hnd⟩
  · rw [parent?_seeded, parent?, node?_eq_none hnew]
    rfl
  · exact fun x hx => mem_seeded.mpr (.inl (hold x hx))
  · intro x hx
    rw [parent?_seeded]
    exact ⟨fun h => hnew (h ▸ hold x hx), fun h => hnew (hw.rooted.mem_of_parent?_eq h)⟩

end Arena

namespace Edit

open Arena

/-- Mending the links of the children that are still to come moves them in. -/
theorem run_adopt {a : Arena} {o : Handle} {p : Payload} {placed pending : List (Slot × Handle)}
    (h : a.Assembling o p placed pending) :
    (a.movedEach o pending).WellFormed ∧
      adopt o (pending.map Prod.snd) (a.update o (Node.mapPayload fun _ => p)) = .ok () (a.movedEach o pending) := by
  induction pending generalizing a placed with
  | nil => exact ⟨h.wellFormed, by rw [h.update_eq_self]; rfl⟩
  | cons x pending ih =>
    obtain ⟨s, c⟩ := x
    obtain ⟨hco, hpar⟩ := h.outside _ List.mem_cons_self
    have hc : c ∈ a := h.mem _ List.mem_cons_self
    have hr : (a.update o (Node.mapPayload fun _ => p)).Rooted :=
      h.wellFormed.rooted.of_cut (fun _ => mem_update) (fun x => .inl (parent?_update_mapPayload _ x))
    have hr' : ((a.severed c).update o (Node.mapPayload fun _ => p)).Rooted :=
      (h.wellFormed.severed c).rooted.of_cut (fun _ => mem_update) (fun x => .inl (parent?_update_mapPayload _ x))
    have hplace := (h.wellFormed.severed c).rooted.place_update_mapPayload (p := o) (fun _ => p)
      (mem_severed.mpr h.ascent.mem)
    have hmoved : ((a.severed c).update o (Node.mapPayload fun _ => p)).update c
        (fun node => node.rehome (some o) (node.span.position - (a.severed c).place o)) =
        (a.moved o s c).update o (Node.mapPayload fun _ => p) := by
      rw [Arena.moved, grafted, update_comm _ hco, update_update]
      rfl
    rw [List.map_cons, adopt, run_bind_of_ok (run_unlink hr (mem_update.mpr hc)),
      severed_update_payload h.wellFormed.rooted hpar hco,
      run_bind_of_ok (run_link hr' (mem_update.mpr (mem_severed.mpr h.ascent.mem)) (mem_update.mpr (mem_severed.mpr hc))),
      hplace, hmoved]
    exact ih h.moved

end Edit

namespace Arena

variable {a : Arena} {p : Payload} {span : Span} {v : Variant}

theorem mem_seeded_self : (⟨a.size⟩ : Handle) ∈ a.seeded p span := mem_seeded.mpr (.inr rfl)

theorem mem_allocated_self : (⟨a.size⟩ : Handle) ∈ a.allocated p span := mem_movedEach.mpr mem_seeded_self

/-- Moving the children into a new node keeps an arena well formed. -/
theorem WellFormed.allocated (hw : a.WellFormed) (span : Span) (hcheck : a.checkChildren v [] p.placedHandles = .ok ()) :
    (a.allocated p span).WellFormed :=
  (Edit.run_adopt (hw.assembling span hcheck)).1

theorem WellFormed.constructed (hw : a.WellFormed) (c : Construction)
    (hcheck : a.checkChildren v [] p.placedHandles = .ok ()) : (a.constructed c p span).WellFormed := by
  have hwa := hw.allocated span hcheck
  unfold Arena.constructed
  split
  · exact (sameTrees_recomputed _ _).wellFormed hwa
  · exact hwa

end Arena

namespace Edit

open Arena

variable {a : Arena} (hw : a.WellFormed)

include hw

/-! ### Runs of allocations -/

/-- An allocation whose children pass the check adds a node and moves the children in. -/
theorem run_alloc {p : Payload} (span : Span) (hcheck : a.checkChildren p.variant [] p.placedHandles = .ok ()) :
    alloc p span a = .ok ⟨a.size⟩ (a.allocated p span) := by
  have hdraw : drawId a = .ok a.ids.draw.1 a.drawn := rfl
  have hpush : push { id := a.ids.draw.1, span, payload := p } a.drawn =
      .ok ⟨a.size⟩ (a.drawn.push { id := a.ids.draw.1, span, payload := p }) := rfl
  obtain ⟨-, hadopt⟩ := run_adopt (hw.assembling span hcheck)
  rw [update_seeded, Payload.map_snd_placedHandles] at hadopt
  rw [alloc, run_bind_of_ok hdraw, run_inspect_bind ((checkChildren_drawn _ _ _).trans hcheck), run_bind_of_ok hpush,
    run_bind_of_ok hadopt]
  rfl

/-- An allocation is refused by the check of its children, after which one identity is drawn, or it adds a node and moves
the children in. -/
theorem alloc_cases (p : Payload) (span : Span) :
    (∃ e, a.checkChildren p.variant [] p.placedHandles = .error e ∧ alloc p span a = .error e a.drawn) ∨
      a.checkChildren p.variant [] p.placedHandles = .ok () ∧ (a.allocated p span).WellFormed ∧
        alloc p span a = .ok ⟨a.size⟩ (a.allocated p span) := by
  cases hcheck : a.checkChildren p.variant [] p.placedHandles with
  | error e =>
    left
    have hdraw : drawId a = .ok a.ids.draw.1 a.drawn := rfl
    refine ⟨e, rfl, ?_⟩
    rw [alloc, run_bind_of_ok hdraw]
    exact run_inspect_bind_error ((checkChildren_drawn _ _ _).trans hcheck) _
  | ok =>
    right
    exact ⟨rfl, hw.allocated span hcheck, run_alloc hw span hcheck⟩

/-- A construction that was planned and whose children pass the check allocates the node, and brings its extent in line
with its children if that is still open. -/
theorem run_construct {c : Construction} {p : Payload} {span : Span} (hplan : c.plan a = .ok (p, span))
    (hcheck : a.checkChildren p.variant [] p.placedHandles = .ok ()) :
    construct c a = .ok ⟨a.size⟩ (a.constructed c p span) := by
  rw [construct, run_inspect_bind hplan]
  show (alloc p span >>= _) a = _
  rw [run_bind_of_ok (run_alloc hw span hcheck), constructed]
  cases c.isOpenEnded with
  | false => rfl
  | true =>
    show (recomputeBounds ⟨a.size⟩ >>= _) (a.allocated p span) = _
    rw [run_bind_of_ok (run_recomputeBounds (hw.allocated span hcheck) mem_allocated_self)]
    rfl

/-- A construction is refused when it is planned, or by the allocation, or it succeeds. -/
theorem construct_cases (c : Construction) :
    (∃ e, c.plan a = .error e ∧ construct c a = .error e a) ∨
      ∃ p span, c.plan a = .ok (p, span) ∧
        ((∃ e, a.checkChildren p.variant [] p.placedHandles = .error e ∧ construct c a = .error e a.drawn) ∨
          a.checkChildren p.variant [] p.placedHandles = .ok () ∧ (a.constructed c p span).WellFormed ∧
            construct c a = .ok ⟨a.size⟩ (a.constructed c p span)) := by
  cases hplan : c.plan a with
  | error e =>
    left
    exact ⟨e, rfl, by rw [construct, run_inspect_bind_error hplan]⟩
  | ok planned =>
    obtain ⟨p, span⟩ := planned
    right
    refine ⟨p, span, rfl, ?_⟩
    rcases alloc_cases hw p span with ⟨e, hcheck, halloc⟩ | ⟨hcheck, -, -⟩
    · left
      refine ⟨e, hcheck, ?_⟩
      rw [construct, run_inspect_bind hplan]
      exact run_bind_of_error halloc _
    · right
      exact ⟨hcheck, hw.constructed c hcheck, run_construct hw hplan hcheck⟩

end Edit

end ScriptTree
