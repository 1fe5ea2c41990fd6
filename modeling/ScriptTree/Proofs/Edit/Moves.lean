import ScriptTree.Proofs.Edit.Recompute

/-!
# Structural edits as moves

On a well-formed arena every structural edit either is refused with the arena as it was, or does a sequence of the two
moves: it severs the nodes that leave their slots and grafts the ones that are put somewhere (`detach_cases`,
`setChild_none_cases`, `setChild_some_cases`, `pushChild_cases`, `setChildList_cases`).  The edits themselves write slots
and links in another order; the lemmas on orphans show that the order does not matter.
-/

namespace ScriptTree

namespace Arena

def severedEach (a : Arena) (hs : List Handle) : Arena := hs.foldl severed a

/-- The arena in which a node has moved to the end of a list, or into an empty slot. -/
def moved (a : Arena) (o : Handle) (s : Slot) (c : Handle) : Arena := (a.severed c).grafted o s c

/-- The arena in which some nodes have moved, one after the other, each to its slot of one owner. -/
def movedEach (a : Arena) (o : Handle) (placed : List (Slot × Handle)) : Arena :=
  placed.foldl (fun b x => b.moved o x.1 x.2) a

/-- The arena after a slot of a node was filled: a function takes its end from its new body. -/
def settled (a : Arena) (o : Handle) (s : Slot) : Arena :=
  if s = .body ∧ a.variant o = .ok .function then a.recomputed o else a

/-- The arena in which a node has moved into a slot for a single child, whose old content was severed. -/
def filled (a : Arena) (o : Handle) (s : Slot) (c : Handle) (old : Option Handle) : Arena :=
  (((a.severed c).severedEach old.toList).grafted o s c).settled o s

section Repeated

variable {a : Arena}

theorem WellFormed.severedEach (hw : a.WellFormed) (hs : List Handle) : (a.severedEach hs).WellFormed := by
  induction hs generalizing a with
  | nil => exact hw
  | cons h hs ih => exact ih (hw.severed h)

@[simp] theorem mem_severedEach {hs : List Handle} {x : Handle} : x ∈ a.severedEach hs ↔ x ∈ a := by
  induction hs generalizing a with
  | nil => rfl
  | cons h hs ih => exact ih.trans mem_severed

theorem parent?_severedEach {hs : List Handle} (x : Handle) :
    (a.severedEach hs).parent? x = if x ∈ hs then none else a.parent? x := by
  induction hs generalizing a with
  | nil => rfl
  | cons h hs ih =>
    rw [severedEach, List.foldl_cons, ← severedEach, ih, parent?_severed]
    by_cases hx : x = h <;> simp [hx]

@[simp] theorem ids_severedEach (hs : List Handle) : (a.severedEach hs).ids = a.ids := by
  induction hs generalizing a with
  | nil => rfl
  | cons h hs ih => exact ih.trans ids_severed

@[simp] theorem size_severedEach (hs : List Handle) : (a.severedEach hs).size = a.size := by
  induction hs generalizing a with
  | nil => rfl
  | cons h hs ih => exact ih.trans size_severed

theorem Ascent.severedEach {h : Handle} {path hs : List Handle} (hp : a.Ascent h path) (hhs : ∀ c ∈ hs, c ∉ path) :
    (a.severedEach hs).Ascent h path := by
  induction hs generalizing a with
  | nil => exact hp
  | cons c hs ih =>
    exact ih (hp.severed (hhs c List.mem_cons_self)) fun x hx => hhs x (List.mem_cons_of_mem _ hx)

@[simp] theorem mem_moved {o c x : Handle} {s : Slot} : x ∈ a.moved o s c ↔ x ∈ a := by simp [moved]

@[simp] theorem mem_movedEach {o x : Handle} {placed : List (Slot × Handle)} : x ∈ a.movedEach o placed ↔ x ∈ a := by
  induction placed generalizing a with
  | nil => rfl
  | cons y placed ih => exact ih.trans mem_moved

theorem sameTrees_settled (a : Arena) (o : Handle) (s : Slot) : a.SameTrees (a.settled o s) := by
  unfold settled
  split
  · exact sameTrees_recomputed a o
  · exact .refl a

@[simp] theorem ids_settled (o : Handle) (s : Slot) : (a.settled o s).ids = a.ids := by
  unfold settled
  split
  · exact ids_recomputed a o
  · rfl

@[simp] theorem ids_moved (o : Handle) (s : Slot) (c : Handle) : (a.moved o s c).ids = a.ids := by simp [moved]

@[simp] theorem ids_movedEach (o : Handle) (placed : List (Slot × Handle)) : (a.movedEach o placed).ids = a.ids := by
  induction placed generalizing a with
  | nil => rfl
  | cons y placed ih => exact ih.trans (ids_moved o y.1 y.2)

@[simp] theorem ids_filled (o : Handle) (s : Slot) (c : Handle) (old : Option Handle) :
    (a.filled o s c old).ids = a.ids := by
  simp [filled]

@[simp] theorem mem_filled {o c x : Handle} {s : Slot} {old : Option Handle} : x ∈ a.filled o s c old ↔ x ∈ a := by
  rw [filled, (sameTrees_settled _ o s).mem_iff]
  simp

end Repeated

/-! ### Slots of arenas -/

/-- A slot of a node for a single child, with its content. -/
def HasSingle (a : Arena) (o : Handle) (s : Slot) (c : Option Handle) : Prop :=
  ∃ node, a.node? o = some node ∧ node.payload.single? s = some c

/-- A list slot of a node, with its content. -/
def HasList (a : Arena) (o : Handle) (s : Slot) (cs : List Handle) : Prop :=
  ∃ node, a.node? o = some node ∧ node.payload.list? s = some cs

/-- A slot of a node that takes one more child. -/
def HasRoom (a : Arena) (o : Handle) (s : Slot) : Prop :=
  ∃ node, a.node? o = some node ∧ node.payload.HasRoom s

/-- Where a node stands: its parent and the slot that holds it. -/
def standing? (a : Arena) (c : Handle) : Option (Handle × Slot) :=
  (a.parent? c).bind fun p => ((a.node? p).bind fun node => node.payload.slotOf? c).map fun s => (p, s)

section Slots

variable {a : Arena} {o : Handle} {s : Slot}

theorem HasList.hasRoom {cs : List Handle} (h : a.HasList o s cs) : a.HasRoom o s := by
  obtain ⟨node, hn, hs⟩ := h
  exact ⟨node, hn, .inr ⟨cs, hs⟩⟩

theorem HasSingle.mem_handlesAt {q : Handle} (h : a.HasSingle o s (some q)) : q ∈ a.handlesAt o := by
  obtain ⟨node, hn, hs⟩ := h
  rw [handlesAt_eq hn]
  exact Payload.mem_handles_of_single? hs

theorem HasSingle.mem_handlesAt_of_mem {c : Option Handle} (h : a.HasSingle o s c) {q : Handle} (hq : q ∈ c.toList) :
    q ∈ a.handlesAt o := by
  obtain rfl := Option.mem_toList.mp hq
  exact h.mem_handlesAt

theorem HasList.mem_handlesAt {cs : List Handle} (h : a.HasList o s cs) {c : Handle} (hc : c ∈ cs) :
    c ∈ a.handlesAt o := by
  obtain ⟨node, hn, hs⟩ := h
  rw [handlesAt_eq hn]
  exact Payload.mem_handles_of_list? hs hc

theorem HasSingle.child_mem (hw : a.WellFormed) {c : Handle} (h : a.HasSingle o s (some c)) : c ∈ a :=
  mem_of_parent? (hw.mem_handlesAt_iff.mp h.mem_handlesAt)

theorem HasList.child_mem (hw : a.WellFormed) {cs : List Handle} (h : a.HasList o s cs) {c : Handle} (hc : c ∈ cs) :
    c ∈ a :=
  mem_of_parent? (hw.mem_handlesAt_iff.mp (h.mem_handlesAt hc))

theorem HasList.nodup (hw : a.WellFormed) {cs : List Handle} (h : a.HasList o s cs) : cs.Nodup := by
  have hnd := hw.nodup_handlesAt o
  obtain ⟨node, hn, hs⟩ := h
  rw [handlesAt_eq hn] at hnd
  exact hnd.sublist (Payload.sublist_handles_of_list? hs)

theorem WellFormed.count_payload_le_one (hw : a.WellFormed) {node : Node} (hn : a.node? o = some node) (c : Handle) :
    node.payload.handles.count c ≤ 1 := by
  have hcount := hw.count_handlesAt o c
  rw [handlesAt_eq hn] at hcount
  rw [hcount]
  split <;> omega

theorem WellFormed.standing?_eq (hw : a.WellFormed) {node : Node} (hn : a.node? o = some node) {k : ChildSlot}
    (hk : k ∈ node.payload.childSlots) {c : Handle} (hc : c ∈ k.handles) : a.standing? c = some (o, k.slot) := by
  have hmem : c ∈ a.handlesAt o := by
    rw [handlesAt_eq hn]
    exact List.mem_flatMap.mpr ⟨k, hk, hc⟩
  rw [standing?, hw.mem_handlesAt_iff.mp hmem, Option.bind_some, hn, Option.bind_some,
    Payload.slotOf?_eq_some_of_mem hk hc (hw.count_payload_le_one hn c), Option.map_some]

theorem HasSingle.standing?_eq (hw : a.WellFormed) {c : Handle} (h : a.HasSingle o s (some c)) :
    a.standing? c = some (o, s) := by
  obtain ⟨node, hn, hs⟩ := h
  obtain ⟨k, hk, rfl, hc⟩ := Payload.single?_eq_some_iff.mp hs
  refine hw.standing?_eq hn hk ?_
  rw [ChildSlot.handles_of_single? hc, Option.mem_toList]

theorem HasList.standing?_eq (hw : a.WellFormed) {cs : List Handle} (h : a.HasList o s cs) {c : Handle} (hc : c ∈ cs) :
    a.standing? c = some (o, s) := by
  obtain ⟨node, hn, hs⟩ := h
  obtain ⟨k, hk, rfl, hcs⟩ := Payload.list?_eq_some_iff.mp hs
  exact hw.standing?_eq hn hk (ChildSlot.handles_of_list? hcs ▸ hc)

/-- A node with a parent stands in one of the slots of the parent. -/
theorem WellFormed.exists_slot (hw : a.WellFormed) {c p : Handle} (hp : a.parent? c = some p) :
    (∃ s, a.HasSingle p s (some c)) ∨ ∃ s cs, a.HasList p s cs ∧ c ∈ cs := by
  have hmem := hw.mem_handlesAt_iff.mpr hp
  obtain ⟨node, hn⟩ := mem_iff_node?.mp (mem_of_mem_handlesAt hmem)
  rw [handlesAt_eq hn] at hmem
  obtain ⟨k, hk, hc⟩ := List.mem_flatMap.mp hmem
  cases k with
  | required s d | optional s d =>
    obtain rfl : d = some c := by simpa [ChildSlot.handles] using hc
    exact .inl ⟨s, node, hn, Payload.single?_eq_some_iff.mpr ⟨_, hk, rfl, rfl⟩⟩
  | list s cs => exact .inr ⟨s, cs, ⟨node, hn, Payload.list?_eq_some_iff.mpr ⟨_, hk, rfl, rfl⟩⟩, hc⟩

theorem HasSingle.severed {d : Option Handle} {c : Handle} (h : a.HasSingle o s d) (hoc : o ≠ c) (hd : d ≠ some c) :
    (a.severed c).HasSingle o s d := by
  obtain ⟨node, hn, hs⟩ := h
  rw [HasSingle, node?_severed hoc, hn]
  split
  · exact ⟨_, rfl, Payload.single?_without hs hd⟩
  · exact ⟨_, rfl, hs⟩

theorem HasSingle.severed_self (hw : a.WellFormed) {c : Handle} (h : a.HasSingle o s (some c)) :
    (a.severed c).HasSingle o s none := by
  have hpar := hw.mem_handlesAt_iff.mp h.mem_handlesAt
  have hone := hw.count_handlesAt o c
  obtain ⟨node, hn, hs⟩ := h
  have hoc : o ≠ c := (hw.rooted.ne_of_parent? hpar).symm
  rw [handlesAt_eq hn, if_pos hpar] at hone
  rw [HasSingle, node?_severed hoc, if_pos hpar, hn]
  exact ⟨_, rfl, Payload.single?_without_self hs (by omega)⟩

theorem HasList.severed (hw : a.WellFormed) {cs : List Handle} {c : Handle} (h : a.HasList o s cs) (hoc : o ≠ c) :
    (a.severed c).HasList o s (cs.erase c) := by
  have hcount := hw.count_handlesAt o c
  obtain ⟨node, hn, hs⟩ := h
  rw [handlesAt_eq hn] at hcount
  rw [HasList, node?_severed hoc, hn]
  split at hcount
  · rw [if_pos ‹_›]
    exact ⟨_, rfl, Payload.list?_without hs (by omega)⟩
  · rw [if_neg ‹_›]
    have hc : c ∉ cs := fun hc => List.count_eq_zero.mp hcount (Payload.mem_handles_of_list? hs hc)
    exact ⟨_, rfl, by rw [hs, List.erase_of_not_mem hc]⟩

theorem HasList.moved (hw : a.WellFormed) {cs : List Handle} {c : Handle} (h : a.HasList o s cs) (hoc : o ≠ c) :
    (a.moved o s c).HasList o s (cs.erase c ++ [c]) := by
  obtain ⟨node, hn, hs⟩ := h.severed hw hoc
  rw [HasList, Arena.moved, node?_grafted hoc, if_pos rfl, hn]
  exact ⟨_, rfl, Payload.list?_insertChild hs c⟩

theorem Ascent.moved {h c : Handle} {path : List Handle} (hp : a.Ascent h path) (hc : c ∈ a) (hpath : c ∉ path) :
    (a.moved o s c).Ascent h path :=
  (hp.severed hpath).grafted (mem_severed.mpr hc) hpath

theorem HasSingle.child_eq {c : Option Handle} (h : a.HasSingle o s c) : a.child o s = .ok c :=
  child_eq_ok_iff.mpr h

theorem HasSingle.exists_isRequired {c : Option Handle} (h : a.HasSingle o s c) :
    ∃ required, a.isRequired o s = .ok required := by
  obtain ⟨node, hn, hs⟩ := h
  obtain ⟨required, hr⟩ := Payload.exists_isRequired?_of_single? hs
  exact ⟨required, isRequired_eq_ok_iff.mpr ⟨node, hn, hr⟩⟩

theorem exists_hasSingle_of_isRequired {required : Bool} (h : a.isRequired o s = .ok required) :
    ∃ c, a.HasSingle o s c := by
  obtain ⟨node, hn, hr⟩ := isRequired_eq_ok_iff.mp h
  obtain ⟨c, hs⟩ := Payload.exists_single?_of_isRequired? hr
  exact ⟨c, node, hn, hs⟩

theorem HasList.childList_eq {cs : List Handle} (h : a.HasList o s cs) : a.childList o s = .ok cs :=
  childList_eq_ok_iff.mpr h

end Slots

/-- Moving a node into a slot with room keeps an arena well formed, unless the owner hangs below the node. -/
theorem WellFormed.moved {a : Arena} (hw : a.WellFormed) {o c : Handle} {s : Slot} {path : List Handle}
    (hroom : (a.severed c).HasRoom o s) (hc : c ∈ a) (ho : a.Ascent o path) (hpath : c ∉ path) :
    (a.moved o s c).WellFormed := by
  obtain ⟨node, hn, hs⟩ := hroom
  refine (hw.severed c).grafted hn hs (mem_severed.mpr hc) ?_ (ho.severed hpath) hpath
  rw [parent?_severed, if_pos rfl]

theorem checkAttachable_of_checkEntries {a : Arena} {o : Handle} {s : Slot} {seen xs : List Handle}
    (h : a.checkEntries o s seen xs = .ok ()) :
    ∀ c ∈ xs, a.checkAttachable o s c = .ok () := by
  induction xs generalizing seen with
  | nil => exact fun c hc => absurd hc List.not_mem_nil
  | cons x xs ih =>
    intro c hc
    obtain ⟨⟨⟩, hx, h⟩ := bind_eq_ok_iff.mp h
    split at h
    · obtain ⟨v, -, h⟩ := bind_eq_ok_iff.mp h
      cases h
    · rcases List.mem_cons.mp hc with rfl | hc
      · exact hx
      · exact ih h c hc

/-- Distinct nodes of which each may be attached may become the content of a list. -/
theorem checkEntries_of_checkAttachable {a : Arena} {o : Handle} {s : Slot} {seen xs : List Handle}
    (h : ∀ c ∈ xs, a.checkAttachable o s c = .ok ()) (hnd : xs.Nodup) (hseen : ∀ c ∈ xs, c ∉ seen) :
    a.checkEntries o s seen xs = .ok () := by
  induction xs generalizing seen with
  | nil => rfl
  | cons x xs ih =>
    obtain ⟨hx, hnd⟩ := List.nodup_cons.mp hnd
    have hxs : ¬seen.contains x := by simpa using hseen x List.mem_cons_self
    have hrest : a.checkEntries o s (x :: seen) xs = .ok () := by
      refine ih (fun c hc => h c (List.mem_cons_of_mem _ hc)) hnd fun c hc => ?_
      rw [List.mem_cons, not_or]
      exact ⟨fun hcx => hx (hcx ▸ hc), hseen c (List.mem_cons_of_mem _ hc)⟩
    rw [checkEntries, h x List.mem_cons_self]
    refine Eq.trans ?_ hrest
    simp only [hxs]
    rfl

/-! ### Orphans

An orphan is a node whose parent has let go of it already: its slot was written with something else.  Making it a root is
then all that is left of severing it. -/

section Orphans

variable {a : Arena} (hw : a.WellFormed) {o q : Handle} {s : Slot} {f : Payload → Payload}

include hw

/-- What is written to a payload in place of taking a child out can as well be written after the child was severed. -/
theorem WellFormed.severed_update (hq : a.parent? q = some o) {node : Node} (hn : a.node? o = some node)
    (hf : f (node.payload.without q) = f node.payload) :
    (a.severed q).update o (Node.mapPayload f) =
      (a.update o (Node.mapPayload f)).update q (·.rehome none (a.place q)) := by
  have hne : q ≠ o := hw.rooted.ne_of_parent? hq
  have hcongr : a.update o (fun node => (node.mapPayload (·.without q)).mapPayload f) = a.update o (Node.mapPayload f) :=
    update_congr hn (by simp only [Node.mapPayload, hf])
  simp only [Arena.severed, hq]
  rw [update_comm _ hne, update_update, hcongr]

theorem WellFormed.run_orphan_update (hq : a.parent? q = some o) {node : Node} (hn : a.node? o = some node)
    (hf : f (node.payload.without q) = f node.payload) :
    Edit.orphan q (a.update o (Node.mapPayload f)) = .ok () ((a.severed q).update o (Node.mapPayload f)) := by
  have hqa : q ∈ a := mem_of_parent? hq
  have hr : (a.update o (Node.mapPayload f)).Rooted :=
    hw.rooted.of_cut (fun _ => mem_update) (fun x => .inl (parent?_update_mapPayload f x))
  rw [Edit.run_orphan hr (mem_update.mpr hqa), hw.rooted.place_update_mapPayload f hqa, hw.severed_update hq hn hf]

theorem WellFormed.run_orphanEach_setSingle {old : Option Handle} (hs : a.HasSingle o s old) (c : Option Handle) :
    Edit.orphanEach old.toList (a.update o (Node.mapPayload (·.setSingle s c))) =
      .ok () ((a.severedEach old.toList).update o (Node.mapPayload (·.setSingle s c))) := by
  cases old with
  | none => rfl
  | some q =>
    have hq := hw.mem_handlesAt_iff.mp hs.mem_handlesAt
    obtain ⟨node, hn, hsingle⟩ := hs
    have hf := Payload.setSingle_without hsingle (hw.count_payload_le_one hn q) c
    have horphan := hw.run_orphan_update (f := (·.setSingle s c)) hq hn hf
    rw [Option.toList_some, Edit.orphanEach, Edit.run_bind_of_ok horphan]
    rfl

theorem WellFormed.run_orphanEach_setList {qs : List Handle} (hs : a.HasList o s qs) (cs : List Handle) :
    Edit.orphanEach qs (a.update o (Node.mapPayload (·.setList s cs))) =
      .ok () ((a.severedEach qs).update o (Node.mapPayload (·.setList s cs))) := by
  induction qs generalizing a with
  | nil => rfl
  | cons q qs ih =>
    have hq := hw.mem_handlesAt_iff.mp (hs.mem_handlesAt List.mem_cons_self)
    have hrest := hs.severed hw (hw.rooted.ne_of_parent? hq).symm
    rw [List.erase_cons_head] at hrest
    obtain ⟨node, hn, hlist⟩ := hs
    -- the list is overwritten as a whole, so it does not matter that `q` was not taken out of it before
    have hf := Payload.setList_without hlist List.mem_cons_self (hw.count_payload_le_one hn q) cs
    have horphan := hw.run_orphan_update (f := (·.setList s cs)) hq hn hf
    rw [Edit.orphanEach, Edit.run_bind_of_ok horphan]
    exact ih (hw.severed q) hrest

theorem HasSingle.severedEach_self {old : Option Handle} (hs : a.HasSingle o s old) :
    (a.severedEach old.toList).HasSingle o s none := by
  cases old with
  | none => exact hs
  | some q => exact hs.severed_self hw

theorem HasList.severedEach_self {qs : List Handle} (hs : a.HasList o s qs) : (a.severedEach qs).HasList o s [] := by
  induction qs generalizing a with
  | nil => exact hs
  | cons q qs ih =>
    have hq := hw.mem_handlesAt_iff.mp (hs.mem_handlesAt List.mem_cons_self)
    have hrest := hs.severed hw (hw.rooted.ne_of_parent? hq).symm
    rw [List.erase_cons_head] at hrest
    exact ih (hw.severed q) hrest

/-- The way up from the owner of a slot passes none of the nodes that leave the slot or are moved into it, so it is still
there when they are severed. -/
theorem HasSingle.ascent_severedEach {c : Handle} {old : Option Handle} {path : List Handle} (hs : a.HasSingle o s old)
    (hold : old ≠ some c) (ho : a.Ascent o path) (hpath : c ∉ path) :
    ((a.severed c).severedEach old.toList).Ascent o path := by
  have hoc : o ≠ c := fun h => hpath (h ▸ ho.self_mem)
  refine (ho.severed hpath).severedEach fun q hq => ?_
  rw [Option.mem_toList] at hq
  subst hq
  exact (ho.severed hpath).not_mem_of_parent?
    ((hw.severed c).mem_handlesAt_iff.mp (hs.severed hoc hold).mem_handlesAt)

omit hw in
theorem parent?_severed_severedEach {c : Handle} (hs : List Handle) : ((a.severed c).severedEach hs).parent? c = none := by
  rw [parent?_severedEach, parent?_severed, if_pos rfl, ite_self]

/-- Grafting a node into a slot for a single child whose old content was severed keeps an arena well formed, unless the
owner hangs below the node. -/
theorem WellFormed.severedEach_grafted {c : Handle} {old : Option Handle} {path : List Handle}
    (hs : a.HasSingle o s old) (hold : old ≠ some c) (hc : c ∈ a) (ho : a.Ascent o path) (hpath : c ∉ path) :
    (((a.severed c).severedEach old.toList).grafted o s c).WellFormed := by
  have hoc : o ≠ c := fun h => hpath (h ▸ ho.self_mem)
  have hw' := hw.severed c
  obtain ⟨node, hn, hempty⟩ := HasSingle.severedEach_self hw' (hs.severed hoc hold)
  exact (hw'.severedEach old.toList).grafted hn (.inl hempty) (by simpa using hc)
    (parent?_severed_severedEach old.toList) (hs.ascent_severedEach hw hold ho hpath) hpath

end Orphans

end Arena

namespace Edit

open Arena

variable {a : Arena} (hw : a.WellFormed) {o : Handle} {s : Slot}

include hw

/-! ### Detaching -/

/-- Detaching a node severs it and answers with where it stood. -/
theorem run_detach {h : Handle} (hh : h ∈ a) : detach h a = .ok (a.standing? h) (a.severed h) := by
  rw [detach, run_inspect_bind (parent_eq hh), standing?]
  cases hp : a.parent? h with
  | none =>
    rw [severed_of_root hp]
    rfl
  | some p =>
    show (unlink h >>= _) a = _
    rw [run_bind_of_ok (run_unlink hw.rooted hh), hp]
    rfl

omit hw in
theorem run_detach_error {h : Handle} (hh : h ∉ a) : detach h a = .error (.unknownNode h) a := by
  rw [detach, run_inspect_bind_error (parent_eq_error hh)]

/-! ### Filling a slot for a single child -/

omit hw in
theorem run_replaceSingle {c old : Option Handle} (hs : a.HasSingle o s old) :
    replaceSingle o s c a = .ok old (a.update o (Node.mapPayload (·.setSingle s c))) := by
  have ho : o ∈ a := mem_of_node? hs.choose_spec.1
  rw [replaceSingle, run_inspect_bind hs.child_eq, run_bind_of_ok (run_modifyPayload ho _)]
  rfl

theorem run_replaceSingle_none {old : Option Handle} (hs : a.HasSingle o s old) :
    (replaceSingle o s none >>= fun previous => orphanEach previous.toList >>= fun _ => pure previous) a =
      .ok old (a.severedEach old.toList) := by
  obtain ⟨node, hn, hsingle⟩ := hs.severedEach_self hw
  have hkeep : (a.severedEach old.toList).update o (Node.mapPayload (·.setSingle s none)) = a.severedEach old.toList :=
    update_eq_self hn (by simp only [Node.mapPayload, Payload.setSingle_self hsingle])
  rw [run_bind_of_ok (run_replaceSingle hs), run_bind_of_ok (hw.run_orphanEach_setSingle hs none), hkeep]
  rfl

theorem setChild_none_cases :
    (∃ e, setChild o s none a = .error e a) ∨
      ∃ old, a.HasSingle o s old ∧ setChild o s none a = .ok old (a.severedEach old.toList) := by
  rw [setChild]
  cases hreq : a.isRequired o s with
  | error e =>
    left
    exact ⟨e, run_inspect_bind_error hreq _⟩
  | ok required =>
    obtain ⟨node, hn, hr⟩ := isRequired_eq_ok_iff.mp hreq
    rw [run_inspect_bind hreq]
    cases required with
    | true =>
      left
      refine ⟨.invalidChild node.payload.variant s .absent, ?_⟩
      simp only [↓reduceIte]
      rw [run_inspect_bind (variant_eq hn)]
      rfl
    | false =>
      right
      obtain ⟨old, hs⟩ := Payload.exists_single?_of_isRequired? hr
      exact ⟨old, ⟨node, hn, hs⟩, run_replaceSingle_none hw ⟨node, hn, hs⟩⟩

theorem run_link_update {c : Handle} (ho : o ∈ a) (hc : c ∈ a) :
    link o c (a.update o (Node.mapPayload (·.insertChild s c))) = .ok () (a.grafted o s c) := by
  have hr : (a.update o (Node.mapPayload (·.insertChild s c))).Rooted :=
    hw.rooted.of_cut (fun _ => mem_update) (fun x => .inl (parent?_update_mapPayload _ x))
  rw [run_link hr (mem_update.mpr ho) (mem_update.mpr hc), hw.rooted.place_update_mapPayload _ ho]
  rfl

theorem run_afterFill (ho : o ∈ a) : afterFill o s a = .ok () (a.settled o s) := by
  obtain ⟨node, hn⟩ := mem_iff_node?.mp ho
  simp only [afterFill, settled, variant_eq hn, Except.ok.injEq]
  by_cases hs : s = .body
  · simp only [hs, ↓reduceIte, true_and]
    rw [run_inspect_bind (variant_eq hn)]
    split
    · exact run_recomputeBounds hw ho
    · rfl
  · simp only [hs, ↓reduceIte, false_and]
    rfl

/-- A child that may be attached is moved into the slot after the old content was severed. -/
theorem run_setChild_some {c : Handle} {old : Option Handle} {path : List Handle} (hs : a.HasSingle o s old)
    (hold : old ≠ some c) (hc : c ∈ a) (hpath : a.Ascent o path) (hcpath : c ∉ path) :
    (a.filled o s c old).WellFormed ∧ setChild o s (some c) a = .ok old (a.filled o s c old) := by
  have hoc : o ≠ c := fun h => hcpath (h ▸ hpath.self_mem)
  have hcheck := hw.rooted.checkAttachable_eq_ok_iff (s := s).mpr ⟨hc, path, hpath, hcpath⟩
  obtain ⟨required, hreq⟩ := hs.exists_isRequired
  have hw' := hw.severed c
  have hs' := hs.severed hoc hold
  obtain ⟨node, hn, hempty⟩ := HasSingle.severedEach_self hw' hs'
  have hinsert : ((a.severed c).severedEach old.toList).update o (Node.mapPayload (·.setSingle s (some c))) =
      ((a.severed c).severedEach old.toList).update o (Node.mapPayload (·.insertChild s c)) :=
    update_congr hn (by simp only [Node.mapPayload, Payload.setSingle_some_eq_insertChild hempty])
  have hlink := run_link_update (s := s) (hw'.severedEach old.toList) (o := o) (c := c)
    (by simpa using hpath.mem) (by simpa using hc)
  have hwg := hw.severedEach_grafted hs hold hc hpath hcpath
  have hfill := run_afterFill hwg (s := s) (by simpa using hpath.mem)
  refine ⟨(sameTrees_settled _ o s).wellFormed hwg, ?_⟩
  rw [setChild, run_inspect_bind hreq, run_inspect_bind hcheck, run_inspect_bind hs.child_eq]
  simp only [hold, ↓reduceIte]
  rw [run_bind_of_ok (run_unlink hw.rooted hc), run_bind_of_ok (run_replaceSingle hs'),
    run_bind_of_ok (hw'.run_orphanEach_setSingle hs' _), hinsert, run_bind_of_ok hlink, run_bind_of_ok hfill]
  rfl

omit hw in
/-- A child that is there already stays. -/
theorem run_setChild_self {c : Handle} (hs : a.HasSingle o s (some c)) (hcheck : a.checkAttachable o s c = .ok ()) :
    setChild o s (some c) a = .ok none a := by
  obtain ⟨required, hreq⟩ := hs.exists_isRequired
  rw [setChild, run_inspect_bind hreq, run_inspect_bind hcheck, run_inspect_bind hs.child_eq]
  simp only [↓reduceIte]
  rfl

/-- Filling a slot for a single child is refused, finds the child there, or moves it in. -/
theorem setChild_some_cases {c : Handle} :
    (∃ e, setChild o s (some c) a = .error e a) ∨ (a.HasSingle o s (some c) ∧ setChild o s (some c) a = .ok none a) ∨
      ∃ old path, a.HasSingle o s old ∧ old ≠ some c ∧ c ∈ a ∧ a.Ascent o path ∧ c ∉ path ∧
        (a.filled o s c old).WellFormed ∧ setChild o s (some c) a = .ok old (a.filled o s c old) := by
  cases hreq : a.isRequired o s with
  | error e =>
    left
    exact ⟨e, run_inspect_bind_error hreq _⟩
  | ok required =>
  obtain ⟨old, hs⟩ := exists_hasSingle_of_isRequired hreq
  cases hcheck : a.checkAttachable o s c with
  | error e =>
    left
    refine ⟨e, ?_⟩
    rw [setChild, run_inspect_bind hreq, run_inspect_bind_error hcheck]
  | ok =>
  obtain ⟨hc, path, hpath, hcpath⟩ := hw.rooted.checkAttachable_eq_ok_iff.mp hcheck
  by_cases hold : old = some c
  · right; left
    exact ⟨hold ▸ hs, run_setChild_self (hold ▸ hs) hcheck⟩
  · right; right
    exact ⟨old, path, hs, hold, hc, hpath, hcpath, run_setChild_some hw hs hold hc hpath hcpath⟩

/-! ### Filling a list -/

theorem run_pushChild {c : Handle} {cs path : List Handle} (hs : a.HasList o s cs) (hc : c ∈ a)
    (hpath : a.Ascent o path) (hcpath : c ∉ path) : pushChild o s c a = .ok () (a.moved o s c) := by
  have hoc : o ≠ c := fun h => hcpath (h ▸ hpath.self_mem)
  have hcheck := hw.rooted.checkAttachable_eq_ok_iff (s := s).mpr ⟨hc, path, hpath, hcpath⟩
  have hs' := hs.severed hw hoc
  obtain ⟨node, hn, hlist⟩ := hs'
  have hinsert : (a.severed c).update o (Node.mapPayload (·.setList s (cs.erase c ++ [c]))) =
      (a.severed c).update o (Node.mapPayload (·.insertChild s c)) :=
    update_congr hn (by simp only [Node.mapPayload, Payload.setList_append_eq_insertChild hlist])
  rw [pushChild, run_inspect_bind hcheck, run_inspect_bind hs.childList_eq,
    run_bind_of_ok (run_unlink hw.rooted hc), run_inspect_bind (hs.severed hw hoc).childList_eq,
    run_bind_of_ok (run_modifyPayload (mem_of_node? hn) _), hinsert]
  exact run_link_update (hw.severed c) (mem_of_node? hn) (mem_severed.mpr hc)

theorem pushChild_cases {c : Handle} :
    (∃ e, pushChild o s c a = .error e a) ∨
      ∃ path, c ∈ a ∧ a.Ascent o path ∧ c ∉ path ∧
        (a.moved o s c).WellFormed ∧ pushChild o s c a = .ok () (a.moved o s c) := by
  cases hcheck : a.checkAttachable o s c with
  | error e =>
    left
    exact ⟨e, run_inspect_bind_error hcheck _⟩
  | ok =>
  cases hlist : a.childList o s with
  | error e =>
    left
    refine ⟨e, ?_⟩
    rw [pushChild, run_inspect_bind hcheck, run_inspect_bind_error hlist]
  | ok cs =>
  right
  have hs : a.HasList o s cs := childList_eq_ok_iff.mp hlist
  obtain ⟨hc, path, hpath, hcpath⟩ := hw.rooted.checkAttachable_eq_ok_iff.mp hcheck
  have hoc : o ≠ c := fun h => hcpath (h ▸ hpath.self_mem)
  exact ⟨path, hc, hpath, hcpath, hw.moved (hs.severed hw hoc).hasRoom hc hpath hcpath,
    run_pushChild hw hs hc hpath hcpath⟩

theorem run_pushEach {cs path xs : List Handle} (hs : a.HasList o s cs) (hpath : a.Ascent o path)
    (hxs : ∀ c ∈ xs, c ∈ a ∧ c ∉ path) :
    (a.movedEach o (xs.map (s, ·))).WellFormed ∧ pushEach o s xs a = .ok () (a.movedEach o (xs.map (s, ·))) := by
  induction xs generalizing a cs with
  | nil => exact ⟨hw, rfl⟩
  | cons c xs ih =>
    obtain ⟨hc, hcpath⟩ := hxs c List.mem_cons_self
    have hoc : o ≠ c := fun h => hcpath (h ▸ hpath.self_mem)
    have hwm := hw.moved (hs.severed hw hoc).hasRoom hc hpath hcpath
    have hrest : ∀ x ∈ xs, x ∈ a.moved o s c ∧ x ∉ path := by
      intro x hx
      rw [mem_moved]
      exact hxs x (List.mem_cons_of_mem _ hx)
    rw [pushEach, run_bind_of_ok (run_pushChild hw hs hc hpath hcpath)]
    exact ih hwm (hs.moved hw hoc) (hpath.moved hc hcpath) hrest

/-- A list whose new content passes the check lets its old entries go before the new ones move in. -/
theorem run_setChildList {cs xs : List Handle} (hs : a.HasList o s cs) (hcheck : a.checkEntries o s [] xs = .ok ()) :
    ∃ path, (a.severedEach cs).Ascent o path ∧ (∀ c ∈ xs, c ∈ a.severedEach cs ∧ c ∉ path) ∧
      ((a.severedEach cs).movedEach o (xs.map (s, ·))).WellFormed ∧
        setChildList o s xs a = .ok () ((a.severedEach cs).movedEach o (xs.map (s, ·))) := by
  have ho : o ∈ a := mem_of_node? hs.choose_spec.1
  obtain ⟨path, hpath⟩ := hw.rooted o ho
  have hxs : ∀ c ∈ xs, c ∈ a.severedEach cs ∧ c ∉ path := by
    intro c hc
    obtain ⟨hmem, path', hpath', hcpath⟩ :=
      hw.rooted.checkAttachable_eq_ok_iff.mp (checkAttachable_of_checkEntries hcheck c hc)
    exact ⟨mem_severedEach.mpr hmem, hpath.unique hpath' ▸ hcpath⟩
  -- the old entries hang below the owner, so its ascent passes none of them
  have hpath' : (a.severedEach cs).Ascent o path :=
    hpath.severedEach fun q hq => hpath.not_mem_of_parent? (hw.mem_handlesAt_iff.mp (hs.mem_handlesAt hq))
  have hempty := hs.severedEach_self hw
  obtain ⟨node, hn, hnil⟩ := id hempty
  have hkeep : (a.severedEach cs).update o (Node.mapPayload (·.setList s [])) = a.severedEach cs :=
    update_eq_self hn (by simp only [Node.mapPayload, Payload.setList_self hnil])
  obtain ⟨hwm, hpush⟩ := run_pushEach (hw.severedEach cs) hempty hpath' hxs
  refine ⟨path, hpath', hxs, hwm, ?_⟩
  rw [setChildList, run_inspect_bind hs.childList_eq, run_inspect_bind hcheck,
    run_bind_of_ok (run_modifyPayload ho _), run_bind_of_ok (hw.run_orphanEach_setList hs []), hkeep, hpush]

/-- Replacing the content of a list is refused, or it severs the old entries and moves the new ones. -/
theorem setChildList_cases (xs : List Handle) :
    (∃ e, setChildList o s xs a = .error e a) ∨
      ∃ cs path, a.HasList o s cs ∧ (a.severedEach cs).Ascent o path ∧ (∀ c ∈ xs, c ∈ a.severedEach cs ∧ c ∉ path) ∧
        ((a.severedEach cs).movedEach o (xs.map (s, ·))).WellFormed ∧
          setChildList o s xs a = .ok () ((a.severedEach cs).movedEach o (xs.map (s, ·))) := by
  cases hlist : a.childList o s with
  | error e =>
    left
    exact ⟨e, run_inspect_bind_error hlist _⟩
  | ok cs =>
  have hs : a.HasList o s cs := childList_eq_ok_iff.mp hlist
  cases hcheck : a.checkEntries o s [] xs with
  | error e =>
    left
    refine ⟨e, ?_⟩
    rw [setChildList, run_inspect_bind hlist, run_inspect_bind_error hcheck]
  | ok =>
    right
    obtain ⟨path, hpath, hxs, hwm, hrun⟩ := run_setChildList hw hs hcheck
    exact ⟨cs, path, hs, hpath, hxs, hwm, hrun⟩

end Edit

end ScriptTree
