import ScriptTree.External.Export
import ScriptTree.External.Render
import ScriptTree.Proofs.Edit.Run

/-!
# Assembling one object

An object is assembled field by field, and each field takes the forms of its children out of the table of finished forms.
`Takes` is what such a step needs of the table and what it leaves: the forms of its own children are there, and those of
other nodes stay.  As the fields of a shape name different slots and no child stands twice in a node, no field misses a
form that another one has taken, and the object is the one of the recursive form (`takes_assemble`).
-/

namespace ScriptTree

/-- A step that finds the forms of the nodes `hs` in the table, answers `v`, and leaves the forms of other nodes. -/
def Takes {α : Type} (form : Handle → Json) (e : StateT Finished (Except TreeError) α) (hs : List Handle)
    (v : α) : Prop :=
  ∀ done : Finished, (∀ c ∈ hs, done[c]? = some (form c)) →
    ∃ done' : Finished, e done = .ok (v, done') ∧ ∀ x, x ∉ hs → done'[x]? = done[x]?

namespace Takes

variable {α β : Type} {form : Handle → Json}

theorem pure (v : α) : Takes form (pure v) [] v := fun done _ => ⟨done, rfl, fun _ _ => rfl⟩

theorem take (form : Handle → Json) (h : Handle) : Takes form (Finished.take h) [h] (form h) := by
  intro done hdone
  refine ⟨done.erase h, ?_, ?_⟩
  · rw [Finished.take, hdone h List.mem_cons_self]
  · intro x hx
    have hne : h ≠ x := fun hne => hx (hne ▸ List.mem_cons_self)
    rw [Std.HashMap.getElem?_erase, if_neg (by simpa using hne)]

/-- Two steps in sequence, where the second one needs no form that the first one takes. -/
theorem bind {e : StateT Finished (Except TreeError) α} {f : α → StateT Finished (Except TreeError) β}
    {hs ks : List Handle} {v : α} {u : β} (he : Takes form e hs v) (hf : Takes form (f v) ks u)
    (hdisjoint : ∀ c ∈ ks, c ∉ hs) : Takes form (e >>= f) (hs ++ ks) u := by
  intro done hdone
  obtain ⟨done₁, hrun₁, hkeep₁⟩ := he done fun c hc => hdone c (List.mem_append_left _ hc)
  obtain ⟨done₂, hrun₂, hkeep₂⟩ := hf done₁ fun c hc => by
    rw [hkeep₁ c (hdisjoint c hc), hdone c (List.mem_append_right _ hc)]
  refine ⟨done₂, ?_, ?_⟩
  · show (e done >>= fun r => f r.1 r.2) = _
    rw [hrun₁]
    exact hrun₂
  · intro x hx
    rw [List.mem_append, not_or] at hx
    rw [hkeep₂ x hx.2, hkeep₁ x hx.1]

theorem map {e : StateT Finished (Except TreeError) α} {hs : List Handle} {v : α} (he : Takes form e hs v) (f : α → β) :
    Takes form (e >>= fun x => Pure.pure (f x)) hs (f v) := by
  have h := bind (f := fun u => Pure.pure (f u)) he (pure (f v)) fun c hc => absurd hc List.not_mem_nil
  rwa [List.append_nil] at h

/-- Steps in sequence, none of which takes what another one takes. -/
theorem mapM {f : α → StateT Finished (Except TreeError) β} {t : α → List Handle} {g : α → β} {xs : List α}
    (hf : ∀ x ∈ xs, Takes form (f x) (t x) (g x)) (hnd : (xs.flatMap t).Nodup) :
    Takes form (xs.mapM f) (xs.flatMap t) (xs.map g) := by
  induction xs with
  | nil => exact pure []
  | cons x xs ih =>
    rw [List.flatMap_cons, List.nodup_append] at hnd
    obtain ⟨-, hnd, hdisjoint⟩ := hnd
    rw [List.mapM_cons, List.flatMap_cons, List.map_cons]
    refine bind (hf x List.mem_cons_self) ?_ fun c hc hm => hdisjoint c hm c hc rfl
    exact map (ih (fun y hy => hf y (List.mem_cons_of_mem _ hy)) hnd) fun vs => g x :: vs

end Takes

/-! ### The children that a shape takes -/

namespace ExternalShape

/-- The fields of an object; a form that stands for another one takes the form of that child. -/
def fields : ExternalShape → List ExternalField
  | transparent slot => [.required "" slot]
  | object fields _ => fields

end ExternalShape

namespace Payload

/-- The children whose forms a field takes. -/
def taken (p : Payload) : ExternalField → List Handle
  | .required _ slot | .optional _ slot | .functionName _ slot | .omitted slot => ((p.single? slot).getD none).toList
  | .list _ slot => (p.list? slot).getD []
  | .constant .. | .analysis => []

/-- The fields of a shape take children in the order of a walk, none of them twice. -/
theorem sublist_taken (p : Payload) : (p.shape.fields.flatMap p.taken).Sublist p.handles := by
  cases p with
  | keywordLiteral k =>
    cases k <;> simp [shape, Keyword.externalFields, Keyword.externalFields.literal, ExternalShape.fields, taken]
  | _ =>
    simp [shape, shape.type, ExternalShape.fields, taken, handles, childSlots, ChildSlot.handles, single?, list?,
      childSlot?, ChildSlot.slot, ChildSlot.single?, ChildSlot.list?]

theorem required_of_mem_fields {p : Payload} {key : String} {slot : Slot}
    (h : .required key slot ∈ p.shape.fields) : ∃ c, .required slot c ∈ p.childSlots := by
  cases p with
  | keywordLiteral k =>
    cases k <;> simp [shape, Keyword.externalFields, Keyword.externalFields.literal, ExternalShape.fields] at h
  | _ => simp [shape, ExternalShape.fields, shape.type] at h <;> simp [childSlots] <;> grind

theorem exists_child_of_required {p : Payload} (hole : p.firstHole? = none) {slot : Slot} {c : Option Handle}
    (h : .required slot c ∈ p.childSlots) : ∃ child, p.single? slot = some (some child) := by
  have hfind : ¬(ChildSlot.required slot c).isHole := by
    rw [firstHole?, Option.map_eq_none_iff, List.find?_eq_none] at hole
    exact hole _ h
  cases c with
  | none => exact absurd rfl hfind
  | some child => exact ⟨child, single?_eq_some_iff.mpr ⟨_, h, rfl, rfl⟩⟩

end Payload

/-! ### The object of a node -/

namespace Arena.Subject

variable {s : Subject} {form : Handle → Json}

def content (s : Subject) (slot : Slot) : Option Handle := (s.node.payload.single? slot).getD none

/-- The entries of a field around the forms of the children. -/
def fieldForms (s : Subject) (form : Handle → Json) : ExternalField → List (String × Json)
  | .constant key value => [(key, value)]
  | .required key slot | .optional key slot => [(key, ((s.content slot).map form).getD .null)]
  | .list key slot => [(key, .array (((s.node.payload.list? slot).getD []).map form))]
  | .functionName key slot => [(key, s.arena.functionId s.node (s.content slot))]
  | .omitted _ => []
  | .analysis =>
    [("criteria", (s.provider.criteria s.arena s.handle).orEmptyArray),
      ("dependencies", (s.provider.dependencies s.arena s.handle).orEmptyArray)]

/-- The object that a shape describes is the one of the recursive form. -/
theorem nodeForm_eq (s : Subject) (form : Handle → Json) :
    s.arena.nodeForm s.provider form s.handle s.node =
      match s.node.payload.shape with
      | .transparent slot => ((s.content slot).map form).getD .null
      | .object fields trailer => .object (fields.flatMap (s.fieldForms form) ++ s.trailerEntries trailer) := by
  obtain ⟨a, provider, h, ⟨id, span, parent, payload, change, fixed⟩⟩ := s
  cases payload with
  | keywordLiteral k => cases k <;> rfl
  | _ => rfl

/-- The object of a node depends on the forms of its children only. -/
theorem nodeForm_congr {form' : Handle → Json} (h : ∀ c ∈ s.node.payload.handles, form c = form' c) :
    s.arena.nodeForm s.provider form s.handle s.node = s.arena.nodeForm s.provider form' s.handle s.node := by
  have hsub := s.node.payload.sublist_taken.subset
  have hcontent : ∀ {f slot}, f ∈ s.node.payload.shape.fields → s.node.payload.taken f = (s.content slot).toList →
      (s.content slot).map form = (s.content slot).map form' := by
    intro f slot hf hs
    refine Option.map_congr fun c hc => h c (hsub (List.mem_flatMap.mpr ⟨f, hf, ?_⟩))
    rw [hs, hc]
    exact List.mem_singleton.mpr rfl
  rw [nodeForm_eq, nodeForm_eq]
  cases hshape : s.node.payload.shape with
  | transparent slot =>
    rw [hshape] at hcontent
    show ((s.content slot).map form).getD .null = _
    rw [hcontent (f := .required "" slot) List.mem_cons_self rfl]
  | object fields trailer =>
    rw [hshape, ExternalShape.fields] at hcontent hsub
    have hfields : fields.map (s.fieldForms form) = fields.map (s.fieldForms form') := by
      refine List.map_congr_left fun f hf => ?_
      cases f with
      | required key slot => rw [fieldForms, hcontent hf rfl, fieldForms]
      | optional key slot => rw [fieldForms, hcontent hf rfl, fieldForms]
      | list key slot =>
        rw [fieldForms, fieldForms]
        congr 3
        exact List.map_congr_left fun c hc => h c (hsub (List.mem_flatMap.mpr ⟨_, hf, hc⟩))
      | _ => rfl
    show Json.object (fields.flatMap (s.fieldForms form) ++ _) = .object (fields.flatMap (s.fieldForms form') ++ _)
    rw [List.flatMap_def, hfields, List.flatMap_def]

theorem nameForm_eq {c : Handle} (hc : c ∈ s.arena) :
    (s.nameForm c : StateT Finished (Except TreeError) Json) = pure (s.arena.functionId s.node (some c)) := by
  obtain ⟨name, hn⟩ := mem_iff_node?.mp hc
  have hbind : s.arena.nodes[c.index]? = some name := hn
  rw [nameForm, payload_eq hn, functionId, Option.bind_some, hbind, Option.map_some]
  cases name.payload with
  | name identifier => by_cases hempty : identifier.isEmpty <;> simp [hempty]
  | _ => rfl

theorem takes_fieldEntries {f : ExternalField} (hnd : (s.node.payload.taken f).Nodup)
    (hmem : ∀ c ∈ s.node.payload.taken f, c ∈ s.arena)
    (hreq : ∀ key slot, f = .required key slot → ∃ c, s.node.payload.single? slot = some (some c)) :
    Takes form (s.fieldEntries Finished.take f) (s.node.payload.taken f) (s.fieldForms form f) := by
  cases f with
  | constant key value => exact .pure _
  | required key slot =>
    obtain ⟨c, hc⟩ := hreq key slot rfl
    have htake := (Takes.take form c).map fun v => [(key, v)]
    simpa [fieldEntries, requiredChild, Payload.taken, fieldForms, content, hc] using htake
  | optional key slot =>
    rcases hc : s.node.payload.single? slot with _ | _ | c
    · simpa [fieldEntries, Payload.taken, fieldForms, content, hc] using Takes.pure _
    · simpa [fieldEntries, Payload.taken, fieldForms, content, hc] using Takes.pure _
    · have htake := (Takes.take form c).map fun v => [(key, v)]
      simpa [fieldEntries, Payload.taken, fieldForms, content, hc] using htake
  | list key slot =>
    have hflat : (s.node.payload.taken (.list key slot)).flatMap (fun c => [c]) =
        s.node.payload.taken (.list key slot) := List.flatMap_singleton' _
    have htakes := Takes.mapM (fun c _ => Takes.take form c) (hflat ▸ hnd)
    rw [hflat] at htakes
    exact htakes.map fun vs => [(key, Json.array vs)]
  | functionName key slot =>
    -- the form of the name is taken, but the object has an identifier of its own in its place
    rcases hc : s.node.payload.single? slot with _ | _ | c
    · simpa [fieldEntries, Payload.taken, fieldForms, content, hc, functionId] using Takes.pure _
    · simpa [fieldEntries, Payload.taken, fieldForms, content, hc, functionId] using Takes.pure _
    · have hname := nameForm_eq (s := s) (hmem c (by simp [Payload.taken, hc]))
      have htake := (Takes.take form c).map fun _ => [(key, s.arena.functionId s.node (some c))]
      simpa [fieldEntries, Payload.taken, fieldForms, content, hc, hname] using htake
  | omitted slot =>
    rcases hc : s.node.payload.single? slot with _ | _ | c
    · simpa [fieldEntries, Payload.taken, fieldForms, hc] using Takes.pure _
    · simpa [fieldEntries, Payload.taken, fieldForms, hc] using Takes.pure _
    · have htake := (Takes.take form c).map fun _ => ([] : List (String × Json))
      simpa [fieldEntries, Payload.taken, fieldForms, hc] using htake
  | analysis => exact .pure _

/-- The object of a node without holes is assembled from the forms of its children. -/
theorem takes_assemble (hole : s.node.payload.firstHole? = none) (hnd : s.node.payload.handles.Nodup)
    (hmem : ∀ c ∈ s.node.payload.handles, c ∈ s.arena) :
    Takes form (s.assemble Finished.take) (s.node.payload.shape.fields.flatMap s.node.payload.taken)
      (s.arena.nodeForm s.provider form s.handle s.node) := by
  have hsub := s.node.payload.sublist_taken
  have hreq : ∀ key slot, .required key slot ∈ s.node.payload.shape.fields →
      ∃ c, s.node.payload.single? slot = some (some c) := fun key slot hf =>
    have ⟨_, hslot⟩ := Payload.required_of_mem_fields hf
    Payload.exists_child_of_required hole hslot
  rw [nodeForm_eq, assemble]
  cases hshape : s.node.payload.shape with
  | transparent slot =>
    rw [hshape] at hreq
    obtain ⟨c, hc⟩ := hreq "" slot List.mem_cons_self
    simpa [ExternalShape.fields, Payload.taken, requiredChild, content, hc] using Takes.take form c
  | object fields trailer =>
    rw [hshape, ExternalShape.fields] at hsub hreq
    have hfields : Takes form (fields.mapM (s.fieldEntries Finished.take)) (fields.flatMap s.node.payload.taken)
        (fields.map (s.fieldForms form)) := by
      refine .mapM (fun f hf => ?_) (hnd.sublist hsub)
      have hsubf : (s.node.payload.taken f).Sublist s.node.payload.handles :=
        (List.sublist_flatten_of_mem (List.mem_map_of_mem hf)).trans (List.flatMap_def ▸ hsub)
      exact takes_fieldEntries (hnd.sublist hsubf) (fun c hc => hmem c (hsubf.subset hc))
        fun key slot h => hreq key slot (h ▸ hf)
    have hobject := hfields.map fun entries => Json.object (entries.flatten ++ s.trailerEntries trailer)
    rwa [← List.flatMap_def] at hobject

end Arena.Subject

end ScriptTree
