import ScriptTree.Proofs.Workspace

/-!
# Building from the top

A tree can be built from its leaves, as `Edit.alloc` and `Edit.construct` do, or from its root: `Edit.allocTopDown` adds a
node with empty slots and fills them in the order of a walk by the edits that fill slots.  Both give the same arena
(`Edit.run_allocTopDown`, `Edit.run_allocTopDown_function`).  What carries the proof is `Arena.Assembling`, which describes
the arena after each child that has moved in.  A function differs from the other variants: filling its body makes its
bounds reach to the end of the body, and what the constructor does at the end is done in the middle here.
-/

namespace ScriptTree

/-- The children in a slot, each with the name of the slot. -/
def ChildSlot.placed (k : ChildSlot) : List (Slot × Handle) := k.handles.map fun c => (k.slot, c)

namespace Payload

@[simp] theorem variant_insertEach (p : Payload) (placed : List (Slot × Handle)) :
    (p.insertEach placed).variant = p.variant := by
  rw [insertEach_eq_overwrite, variant_overwrite]

@[simp] theorem emptied_emptied (p : Payload) : p.emptied.emptied = p.emptied := emptied_overwrite _ _ p

@[simp] theorem placedHandles_emptied (p : Payload) : p.emptied.placedHandles = [] := by
  rw [← List.map_eq_nil_iff (f := Prod.snd), map_snd_placedHandles, handles_emptied]

theorem list?_insertEach {p : Payload} {s : Slot} {cs : List Handle} (h : p.list? s = some cs)
    (placed : List (Slot × Handle)) : (p.emptied.insertEach placed).list? s = some (placedAt s placed) := by
  rw [insertEach_eq_overwrite, emptied, overwrite_overwrite, list?_overwrite, h]
  simp

theorem list?_insertEach_of_single? {p : Payload} {s : Slot} {c : Option Handle} (h : p.single? s = some c)
    (placed : List (Slot × Handle)) : (p.emptied.insertEach placed).list? s = none := by
  have hnone : p.list? s = none := by
    cases hlist : p.list? s with
    | none => rfl
    | some cs => rw [single?_eq_none_of_list? hlist] at h; cases h
  rw [insertEach_eq_overwrite, emptied, overwrite_overwrite, list?_overwrite, hnone]
  rfl

end Payload

namespace Arena

variable {a : Arena} {v : Variant}

/-- What passes the check of the children of a new node: distinct nodes. -/
theorem checkChildren_of_nodup {seen : List Handle} {placed : List (Slot × Handle)}
    (hnd : (placed.map Prod.snd).Nodup) (hmem : ∀ c ∈ placed.map Prod.snd, c ∈ a ∧ c ∉ seen) :
    a.checkChildren v seen placed = .ok () := by
  induction placed generalizing seen with
  | nil => rfl
  | cons x placed ih =>
    obtain ⟨s, c⟩ := x
    simp only [List.map_cons, List.nodup_cons, List.mem_cons, forall_eq_or_imp] at hnd hmem
    obtain ⟨hc, hnd⟩ := hnd
    obtain ⟨⟨hca, hseen⟩, hmem⟩ := hmem
    have hrest : ∀ d ∈ placed.map Prod.snd, d ∈ a ∧ d ∉ c :: seen := by
      intro d hd
      refine ⟨(hmem d hd).1, fun h => ?_⟩
      rcases List.mem_cons.mp h with rfl | h
      · exact hc hd
      · exact (hmem d hd).2 h
    have hcontains : a.contains c = true := contains_iff_mem.mpr hca
    simpa [checkChildren, hcontains, hseen] using ih hnd hrest

theorem movedEach_append (a : Arena) (o : Handle) (l r : List (Slot × Handle)) :
    a.movedEach o (l ++ r) = (a.movedEach o l).movedEach o r :=
  List.foldl_append

theorem checkChildren_of_handles {p : Payload} (v : Variant) (hnd : p.handles.Nodup) (hmem : ∀ c ∈ p.handles, c ∈ a) :
    a.checkChildren v [] p.placedHandles = .ok () := by
  rw [← Payload.map_snd_placedHandles] at hnd hmem
  exact checkChildren_of_nodup hnd fun c hc => ⟨hmem c hc, List.not_mem_nil⟩

namespace Assembling

variable {o : Handle} {p : Payload} {placed pending rest : List (Slot × Handle)}

theorem variant_eq (h : a.Assembling o p placed pending) : a.variant o = .ok p.variant := by
  obtain ⟨node, hn, hpayload⟩ := h.payload_eq
  rw [Arena.variant_eq hn, hpayload, Payload.variant_insertEach, Payload.emptied, Payload.variant_overwrite]

/-- A slot for a single child is empty until the child moves in. -/
theorem hasSingle {s : Slot} {c : Handle} {d : Option Handle} (h : a.Assembling o p placed ((s, c) :: pending))
    (hs : p.single? s = some d) : a.HasSingle o s none := by
  obtain ⟨node, hn, hpayload⟩ := h.payload_eq
  refine ⟨node, hn, ?_⟩
  rw [hpayload]
  rcases Payload.hasRoom_insertEach h.split with hroom | ⟨cs, hcs⟩
  · exact hroom
  · rw [Payload.list?_insertEach_of_single? hs] at hcs
    cases hcs

theorem hasList {s : Slot} {cs : List Handle} (h : a.Assembling o p placed pending) (hs : p.list? s = some cs) :
    a.HasList o s (Payload.placedAt s placed) := by
  obtain ⟨node, hn, hpayload⟩ := h.payload_eq
  exact ⟨node, hn, hpayload ▸ Payload.list?_insertEach hs placed⟩

end Assembling

end Arena

namespace Edit

open Arena

/-- Fills an empty slot of a node with the content of a slot of a payload. -/
def fillSlot (owner : Handle) : ChildSlot → Edit Unit
  | .required slot child | .optional slot child =>
    match child with
    | some c => do
      let _ ← setChild owner slot (some c)
    | none => return ()
  | .list slot children => pushEach owner slot children

/-- Fills empty slots of a node one after the other. -/
def fillSlots (owner : Handle) : List ChildSlot → Edit Unit
  | [] => return ()
  | k :: ks => do
    fillSlot owner k
    fillSlots owner ks

/-- Allocates a node with empty slots, and then fills them in the order of a walk. -/
def allocTopDown (payload : Payload) (span : Span) : Edit Handle := do
  let node ← alloc payload.emptied span
  fillSlots node payload.childSlots
  return node

section Filling

variable {a : Arena} {o : Handle} {p : Payload} {placed rest : List (Slot × Handle)}

/-! ### Filling the slots of one node -/

/-- A child that is next moves into its slot.  If it is the body of a function, the bounds of the function follow. -/
theorem run_setChild_assembling {s : Slot} {c : Handle} {d : Option Handle} (hs : p.single? s = some d)
    (h : a.Assembling o p placed ((s, c) :: rest)) :
    setChild o s (some c) a = .ok none ((a.moved o s c).settled o s) := by
  have hco : c ≠ o := (h.outside _ List.mem_cons_self).1
  exact (run_setChild_some h.wellFormed (h.hasSingle hs) (by simp) (h.mem _ List.mem_cons_self) h.ascent
    (by simpa using hco)).2

theorem Assembling.settled_eq_self {s : Slot} (h : a.Assembling o p placed rest)
    (hbody : s = .body → p.variant ≠ .function) : a.settled o s = a := by
  rw [settled, if_neg]
  rintro ⟨hs, hvariant⟩
  rw [h.variant_eq, Except.ok.injEq] at hvariant
  exact hbody hs hvariant

/-- Filling a slot moves its children in, unless it is the body of a function. -/
theorem run_fillSlot {k : ChildSlot} (hk : k ∈ p.childSlots) (hbody : k.slot = .body → p.variant ≠ .function)
    (h : a.Assembling o p placed (k.placed ++ rest)) : fillSlot o k a = .ok () (a.movedEach o k.placed) := by
  have filled : ∀ s c, p.single? s = some (some c) → (s = .body → p.variant ≠ .function) →
      a.Assembling o p placed ((s, c) :: rest) → (setChild o s (some c) >>= fun _ => pure ()) a = .ok () (a.moved o s c) := by
    intro s c hs hbody h
    rw [run_bind_of_ok (run_setChild_assembling hs h), Assembling.settled_eq_self h.moved hbody]
    rfl
  cases k with
  | required s d | optional s d =>
    cases d with
    | none => rfl
    | some c => exact filled s c (Payload.single?_eq_some_iff.mpr ⟨_, hk, rfl, rfl⟩) hbody h
  | list s cs =>
    have hlist : a.HasList o s _ := h.hasList (Payload.list?_eq_some_iff.mpr ⟨_, hk, rfl, rfl⟩)
    have hcs : ∀ c ∈ cs, c ∈ a ∧ c ∉ [o] := by
      intro c hc
      have hpending : (s, c) ∈ (ChildSlot.list s cs).placed ++ rest :=
        List.mem_append_left _ (List.mem_map.mpr ⟨c, hc, rfl⟩)
      exact ⟨h.mem _ hpending, by simpa using (h.outside _ hpending).1⟩
    exact (run_pushEach h.wellFormed hlist h.ascent hcs).2

/-- Filling some slots and then others moves the children of the first ones in and goes on with the others. -/
theorem run_fillSlots {ks : List ChildSlot} (ks' : List ChildSlot) (hks : ∀ k ∈ ks, k ∈ p.childSlots)
    (hbody : ∀ k ∈ ks, k.slot = .body → p.variant ≠ .function)
    (h : a.Assembling o p placed (ks.flatMap ChildSlot.placed ++ rest)) :
    fillSlots o (ks ++ ks') a = fillSlots o ks' (a.movedEach o (ks.flatMap ChildSlot.placed)) := by
  induction ks generalizing a placed with
  | nil => rfl
  | cons k ks ih =>
    rw [List.flatMap_cons, List.append_assoc] at h
    rw [List.flatMap_cons, List.cons_append, movedEach_append, fillSlots,
      run_bind_of_ok (run_fillSlot (hks k List.mem_cons_self) (hbody k List.mem_cons_self) h)]
    exact ih (fun k' hk' => hks k' (List.mem_cons_of_mem _ hk')) (fun k' hk' => hbody k' (List.mem_cons_of_mem _ hk'))
      h.movedEach

end Filling

/-- The body of a function moves in behind its name and its parameters.  The bounds that follow the body do so in the arena
in which all children are there. -/
theorem run_fillSlots_function {a : Arena} {o : Handle} {f : FunctionParts} {body : Handle} (hbody : f.body = some body)
    (hmember : f.memberExpr = none) (h : a.Assembling o (.function f) [] (Payload.function f).placedHandles) :
    fillSlots o (Payload.function f).childSlots a =
      .ok () ((a.movedEach o (Payload.function f).placedHandles).recomputed o) := by
  obtain ⟨ks, hks⟩ : ∃ ks, ks = [ChildSlot.optional .name f.name, .list .params f.params] := ⟨_, rfl⟩
  have hslots : (Payload.function f).childSlots = ks ++ [.required .body (some body), .optional .memberExpr none] := by
    simp [hks, Payload.childSlots, hbody, hmember]
  have hplaced : (Payload.function f).placedHandles = ks.flatMap ChildSlot.placed ++ [(.body, body)] := by
    simp [hks, Payload.placedHandles, Payload.childSlots, hbody, hmember, ChildSlot.placed, ChildSlot.handles,
      ChildSlot.slot]
  rw [hplaced] at h
  have hfirst := run_fillSlots [.required .body (some body), .optional .memberExpr none]
    (fun k hk => hslots ▸ List.mem_append_left _ hk) (by simp [hks, ChildSlot.slot]) h
  have hbefore := h.movedEach
  have hsingle : (Payload.function f).single? .body = some (some body) :=
    Payload.single?_eq_some_iff.mpr ⟨.required .body (some body), by simp [hslots], rfl, rfl⟩
  have hsettled : ((a.movedEach o (ks.flatMap ChildSlot.placed)).moved o .body body).settled o .body =
      ((a.movedEach o (ks.flatMap ChildSlot.placed)).moved o .body body).recomputed o :=
    if_pos ⟨rfl, hbefore.moved.variant_eq⟩
  have hfill : fillSlot o (.required .body (some body)) (a.movedEach o (ks.flatMap ChildSlot.placed)) =
      .ok () (((a.movedEach o (ks.flatMap ChildSlot.placed)).moved o .body body).recomputed o) := by
    rw [fillSlot, run_bind_of_ok (run_setChild_assembling hsingle hbefore), hsettled]
    rfl
  rw [hslots, hfirst, hplaced, movedEach_append, fillSlots, run_bind_of_ok hfill]
  rfl

section Building

variable {a : Arena} (hw : a.WellFormed) {p : Payload} {span : Span}

include hw

/-! ### Building nodes -/

theorem run_alloc_emptied (p : Payload) : alloc p.emptied span a = .ok ⟨a.size⟩ (a.seeded p span) := by
  have hcheck : a.checkChildren p.emptied.variant [] p.emptied.placedHandles = .ok () := by
    rw [Payload.placedHandles_emptied]
    rfl
  have hempty : a.allocated p.emptied span = a.seeded p span := by
    rw [allocated, Payload.placedHandles_emptied, seeded, seeded, Payload.emptied_emptied]
    rfl
  rw [run_alloc hw span hcheck, hempty]

/-- To build a node from the top is to fill the slots of a node that has none of its children yet. -/
theorem run_allocTopDown_of_fillSlots {b : Arena}
    (hfill : fillSlots ⟨a.size⟩ p.childSlots (a.seeded p span) = .ok () b) :
    allocTopDown p span a = .ok ⟨a.size⟩ b := by
  rw [allocTopDown, run_bind_of_ok (run_alloc_emptied hw p), run_bind_of_ok hfill]
  rfl

/-- A node that is allocated with its children is the node that is allocated without them and then filled, unless it is a
function. -/
theorem run_allocTopDown (hcheck : a.checkChildren p.variant [] p.placedHandles = .ok ())
    (hp : p.variant ≠ .function) : allocTopDown p span a = .ok ⟨a.size⟩ (a.allocated p span) := by
  have h := hw.assembling span hcheck
  rw [← List.append_nil p.placedHandles] at h
  have hfill := run_fillSlots [] (fun _ hk => hk) (fun _ _ _ => hp) h
  rw [List.append_nil] at hfill
  exact run_allocTopDown_of_fillSlots hw hfill

variable (span) in
/-- A function that is built with its children is the one that is allocated without them and then filled. -/
theorem run_allocTopDown_function {identifier : Option Handle} {params : List Handle} {body : Handle}
    (hnd : (identifier.toList ++ params ++ [body]).Nodup) (hmem : ∀ c ∈ identifier.toList ++ params ++ [body], c ∈ a) :
    ∃ b, construct (.function identifier params body span) a = .ok ⟨a.size⟩ b ∧
      allocTopDown (.function { name := identifier, params, body := some body }) span a = .ok ⟨a.size⟩ b := by
  have hhandles : (Payload.function { name := identifier, params, body := some body }).handles =
      identifier.toList ++ params ++ [body] := by
    simp [Payload.handles, Payload.childSlots, ChildSlot.handles]
  rw [← hhandles] at hnd hmem
  have hcheck := checkChildren_of_handles .function hnd hmem
  refine ⟨_, run_construct hw rfl hcheck, run_allocTopDown_of_fillSlots hw ?_⟩
  exact run_fillSlots_function rfl rfl (hw.assembling span hcheck)

end Building

end Edit

namespace Workspace

open Arena

/-- A tree that is built from its leaves is the tree that is built from the top.  For a function this is said of the
constructor, which brings the bounds in line with the body. -/
theorem alloc_eq_allocTopDown {w : Workspace} (reachable : w.Reachable) {i : Nat} {a : Arena} (hi : w.arena? i = some a)
    (span : Span) :
    (∀ p : Payload, p.variant ≠ .function → p.handles.Nodup → (∀ c ∈ p.handles, c ∈ a) →
      ∃ w', w.edit? i (Edit.alloc p span) = some (.ok ⟨a.size⟩, w') ∧
        w.edit? i (Edit.allocTopDown p span) = some (.ok ⟨a.size⟩, w')) ∧
    ∀ (identifier : Option Handle) (params : List Handle) (body : Handle),
      (identifier.toList ++ params ++ [body]).Nodup → (∀ c ∈ identifier.toList ++ params ++ [body], c ∈ a) →
        ∃ w', w.edit? i (Edit.construct (.function identifier params body span)) = some (.ok ⟨a.size⟩, w') ∧
          w.edit? i (Edit.allocTopDown (.function { name := identifier, params, body := some body }) span) =
            some (.ok ⟨a.size⟩, w') := by
  have hw := reachable.wellFormed.arena hi
  constructor
  · intro p hp hnd hmem
    have hcheck := checkChildren_of_handles p.variant hnd hmem
    exact ⟨_, edit?_of_ok hi (Edit.run_alloc hw span hcheck), edit?_of_ok hi (Edit.run_allocTopDown hw hcheck hp)⟩
  · intro identifier params body hnd hmem
    obtain ⟨b, hbottomUp, htopDown⟩ := Edit.run_allocTopDown_function hw span hnd hmem
    exact ⟨_, edit?_of_ok hi hbottomUp, edit?_of_ok hi htopDown⟩

/-- A parenthesized name behind a block. -/
def parenthesizedNameRun : List Action :=
  [.addArena {}, .command 0 (.alloc (.name "x") { position := 13, length := 1 }),
    .command 0 (.alloc (.parenthesized (some ⟨0⟩)) { position := 12, length := 3 }),
    .command 0 (.alloc (.block []) { position := 4, length := 5 })]

/-- The name becomes the argument of a call of what was around it, or the parameter of a function with the block as its
body. -/
theorem alloc_eq_allocTopDown_parenthesizedNameRun :
    (∃ w', (({} : Workspace).performAll parenthesizedNameRun).edit? 0
        (Edit.alloc (.functionCall (some ⟨1⟩) [⟨0⟩] {}) { position := 12, length := 9 }) = some (.ok ⟨3⟩, w') ∧
      (({} : Workspace).performAll parenthesizedNameRun).edit? 0
        (Edit.allocTopDown (.functionCall (some ⟨1⟩) [⟨0⟩] {}) { position := 12, length := 9 }) = some (.ok ⟨3⟩, w')) ∧
    ∃ w', (({} : Workspace).performAll parenthesizedNameRun).edit? 0
        (Edit.construct (.function none [⟨0⟩] ⟨2⟩ { position := 2, length := 0 })) = some (.ok ⟨3⟩, w') ∧
      (({} : Workspace).performAll parenthesizedNameRun).edit? 0
        (Edit.allocTopDown (.function { params := [⟨0⟩], body := some ⟨2⟩ }) { position := 2, length := 0 }) =
          some (.ok ⟨3⟩, w') := by
  have hreach : (({} : Workspace).performAll parenthesizedNameRun).Reachable := ⟨parenthesizedNameRun, by decide, rfl⟩
  obtain ⟨a, ha, hsize, hmem⟩ : ∃ a, (({} : Workspace).performAll parenthesizedNameRun).arena? 0 = some a ∧ a.size = 3 ∧
      ∀ c ∈ [(⟨0⟩ : Handle), ⟨1⟩, ⟨2⟩], c ∈ a := ⟨_, rfl, rfl, by decide⟩
  have hcall := (alloc_eq_allocTopDown hreach ha { position := 12, length := 9 }).1
    (.functionCall (some ⟨1⟩) [⟨0⟩] {}) (by decide) (by decide) fun c hc => hmem c (by revert c; decide)
  have hfunction := (alloc_eq_allocTopDown hreach ha { position := 2, length := 0 }).2
    none [⟨0⟩] ⟨2⟩ (by decide) fun c hc => hmem c (by revert c; decide)
  rw [hsize] at hcall hfunction
  exact ⟨hcall, hfunction⟩

end Workspace

end ScriptTree
