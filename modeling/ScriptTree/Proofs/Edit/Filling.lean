import ScriptTree.Proofs.Edit.Readings
import ScriptTree.Proofs.Workspace

/-!
# Filling a slot for a single child

The contract of `Edit.setChild`: when it succeeds (`setChild_some_isOk_iff`, `setChild_none_isOk_iff`), and everything
that it changes when it does (`Replaced`).  The child may come from anywhere: from another slot of the same owner, from
below the node that it displaces, from another tree.  What the slots hold afterwards is followed through the two moves:
severing a node empties the slot or shortens the list that it stands in, and grafting touches the slot it fills only.
-/

namespace ScriptTree

namespace Payload

/-- A slot that is there and not required is an optional one. -/
theorem isRequired?_eq_some_false_iff {p : Payload} {s : Slot} :
    p.isRequired? s = some false ↔ ∃ c, .optional s c ∈ p.childSlots := by
  constructor
  · intro h
    obtain ⟨k, hk, hr⟩ := Option.bind_eq_some_iff.mp h
    obtain ⟨hmem, rfl⟩ := childSlot?_eq_some_iff.mp hk
    cases k with
    | required => cases hr
    | optional s c => exact ⟨c, hmem⟩
    | list => cases hr
  · rintro ⟨c, hmem⟩
    have hk : p.childSlot? s = some (.optional s c) := childSlot?_eq_some_iff.mpr ⟨hmem, rfl⟩
    rw [isRequired?, hk]
    rfl

theorem single?_of_optional {p : Payload} {s : Slot} {c : Option Handle} (h : .optional s c ∈ p.childSlots) :
    p.single? s = some c :=
  single?_eq_some_iff.mpr ⟨_, h, rfl, rfl⟩

end Payload

namespace Arena

/-! ### The content of slots under the moves -/

section Contents

variable {a b : Arena} {o p c q : Handle} {s t : Slot} {d : Option Handle} {cs : List Handle}

theorem HasSingle.of_reading?_eq (h : a.HasSingle p t d) (hread : b.reading? p = a.reading? p) : b.HasSingle p t d := by
  obtain ⟨node, hn, hs⟩ := h
  rw [reading?_eq hn] at hread
  obtain ⟨node', hn', hpayload, -⟩ := reading?_eq_some_iff.mp hread
  exact ⟨node', hn', hpayload ▸ hs⟩

theorem HasList.of_reading?_eq (h : a.HasList p t cs) (hread : b.reading? p = a.reading? p) : b.HasList p t cs := by
  obtain ⟨node, hn, hs⟩ := h
  rw [reading?_eq hn] at hread
  obtain ⟨node', hn', hpayload, -⟩ := reading?_eq_some_iff.mp hread
  exact ⟨node', hn', hpayload ▸ hs⟩

/-- A node does not stand in a slot of its own, so severing it leaves its own slots alone. -/
theorem Rooted.reading?_severed_self (hr : a.Rooted) (c : Handle) : (a.severed c).reading? c = a.reading? c := by
  rw [reading?_severed, if_neg]
  exact fun h => hr.ne_of_parent? h rfl

/-- Severing a node empties the slot that holds it, and no other one. -/
theorem HasSingle.severed_eq (hw : a.WellFormed) (h : a.HasSingle p t d) (c : Handle) :
    (a.severed c).HasSingle p t (if d = some c then none else d) := by
  by_cases hd : d = some c
  · rw [if_pos hd]
    exact (hd ▸ h).severed_self hw
  · rw [if_neg hd]
    by_cases hpc : p = c
    · subst hpc
      exact h.of_reading?_eq (hw.rooted.reading?_severed_self p)
    · exact h.severed hpc hd

/-- Severing a node takes it out of the list that holds it, and leaves the other lists as they are. -/
theorem HasList.severed_eq (hw : a.WellFormed) (h : a.HasList p t cs) (c : Handle) :
    (a.severed c).HasList p t (cs.erase c) := by
  by_cases hpc : p = c
  · subst hpc
    have hmem : p ∉ cs := fun hp => hw.rooted.ne_of_parent? (hw.mem_handlesAt_iff.mp (h.mem_handlesAt hp)) rfl
    rw [List.erase_of_not_mem hmem]
    exact h.of_reading?_eq (hw.rooted.reading?_severed_self p)
  · exact h.severed hw hpc

/-- A node stands in one slot only. -/
theorem HasSingle.ne_of_ne (hw : a.WellFormed) (hs : a.HasSingle o s (some q)) (h : a.HasSingle p t d)
    (hne : (p, t) ≠ (o, s)) : d ≠ some q := by
  rintro rfl
  have hstand := h.standing?_eq hw
  rw [hs.standing?_eq hw, Option.some.injEq] at hstand
  exact hne hstand.symm

/-- A slot has one shape only. -/
theorem HasList.ne_of_hasSingle (h : a.HasList p t cs) (hs : a.HasSingle o s d) : (p, t) ≠ (o, s) := by
  intro heq
  obtain ⟨rfl, rfl⟩ := Prod.mk.inj heq
  obtain ⟨node, hn, hlist⟩ := h
  obtain ⟨node', hn', hsingle⟩ := hs
  obtain rfl : node = node' := Option.some.inj (hn.symm.trans hn')
  rw [Payload.single?_eq_none_of_list? hlist] at hsingle
  cases hsingle

theorem HasList.not_mem_of_hasSingle (hw : a.WellFormed) (h : a.HasList p t cs) (hs : a.HasSingle o s (some q)) :
    q ∉ cs := by
  intro hq
  have hstand := h.standing?_eq hw hq
  rw [hs.standing?_eq hw, Option.some.injEq] at hstand
  exact h.ne_of_hasSingle hs hstand.symm

/-- When the content of a slot is severed, the other slots keep theirs. -/
theorem HasSingle.severed_content (hw : a.WellFormed) {old : Option Handle} (hs : a.HasSingle o s old)
    (h : a.HasSingle p t d) (hne : (p, t) ≠ (o, s)) : (a.severedEach old.toList).HasSingle p t d := by
  cases old with
  | none => exact h
  | some q =>
    have hsevered := h.severed_eq hw q
    rwa [if_neg (hs.ne_of_ne hw h hne)] at hsevered

theorem HasList.severed_content (hw : a.WellFormed) {old : Option Handle} (hs : a.HasSingle o s old)
    (h : a.HasList p t cs) : (a.severedEach old.toList).HasList p t cs := by
  cases old with
  | none => exact h
  | some q =>
    have hsevered := h.severed_eq hw q
    rwa [List.erase_of_not_mem (h.not_mem_of_hasSingle hw hs)] at hsevered

theorem exists_node?_grafted {node : Node} (hn : a.node? p = some node) : ∃ node',
    (a.grafted o s c).node? p = some node' ∧
      node'.payload = if p = o then node.payload.insertChild s c else node.payload := by
  have hread := reading?_grafted (a := a) (o := o) (c := c) (s := s) p
  rw [reading?_eq hn, Option.map_some] at hread
  split at hread
  · obtain ⟨node', hn', hpayload, -⟩ := reading?_eq_some_iff.mp hread
    exact ⟨node', hn', by rw [if_pos ‹_›, hpayload]⟩
  · obtain ⟨node', hn', hpayload, -⟩ := reading?_eq_some_iff.mp hread
    exact ⟨node', hn', by rw [if_neg ‹_›, hpayload]⟩

/-- Grafting a node leaves the other slots as they are. -/
theorem HasSingle.grafted (h : a.HasSingle p t d) (hne : (p, t) ≠ (o, s)) : (a.grafted o s c).HasSingle p t d := by
  obtain ⟨node, hn, hs⟩ := h
  obtain ⟨node', hn', hpayload⟩ := exists_node?_grafted (o := o) (s := s) (c := c) hn
  refine ⟨node', hn', ?_⟩
  rw [hpayload]
  split
  · rename_i hp
    have hts : t ≠ s := fun hts => hne (by rw [hp, hts])
    rw [Payload.insertChild, Payload.single?_overwrite, hs, Option.map_some, if_neg hts]
  · exact hs

theorem HasList.grafted (h : a.HasList p t cs) (hne : (p, t) ≠ (o, s)) : (a.grafted o s c).HasList p t cs := by
  obtain ⟨node, hn, hs⟩ := h
  obtain ⟨node', hn', hpayload⟩ := exists_node?_grafted (o := o) (s := s) (c := c) hn
  refine ⟨node', hn', ?_⟩
  rw [hpayload]
  split
  · rename_i hp
    have hts : t ≠ s := fun hts => hne (by rw [hp, hts])
    rw [Payload.insertChild, Payload.list?_overwrite, hs, Option.map_some, if_neg hts]
  · exact hs

theorem HasSingle.grafted_self (h : a.HasSingle o s none) : (a.grafted o s c).HasSingle o s (some c) := by
  obtain ⟨node, hn, hs⟩ := h
  obtain ⟨node', hn', hpayload⟩ := exists_node?_grafted (o := o) (s := s) (c := c) hn
  refine ⟨node', hn', ?_⟩
  rw [hpayload, if_pos rfl, Payload.single?_insertChild hs]

end Contents

/-! ### What a replacement changes -/

/-- The arena `b` is `a` with `child` in the slot `s` of `o` in place of `old`.  A child that moves in has left the slot or
the list where it stood, and `old` is a root; nothing else differs but spans. -/
structure Replaced (a : Arena) (o : Handle) (s : Slot) (child old : Option Handle) (b : Arena) : Prop where
  held : a.child o s = .ok old
  holds : b.child o s = .ok child
  child_eq : ∀ p t d, a.child p t = .ok d → (p, t) ≠ (o, s) → b.child p t = .ok (if d = child then none else d)
  childList_eq : ∀ p t cs, a.childList p t = .ok cs → b.childList p t = .ok (cs.filter fun c => some c ≠ child)
  parent_eq : ∀ h p, a.parent h = .ok p →
    b.parent h = .ok (if some h = child then some o else if some h = old then none else p)
  /-- Identity, marks and the payload without the children are those of before, and so is what is not a node. -/
  unplaced_eq : ∀ h, (b.get h).map Node.unplaced = (a.get h).map Node.unplaced
  size_eq : b.size = a.size
  ids_eq : b.ids = a.ids

theorem map_unplaced_get {a b : Arena} (hmem : ∀ h, h ∈ b ↔ h ∈ a) {h : Handle}
    (hu : b.unplaced? h = a.unplaced? h) : (b.get h).map Node.unplaced = (a.get h).map Node.unplaced := by
  by_cases hh : h ∈ a
  · obtain ⟨node, hn⟩ := mem_iff_node?.mp hh
    obtain ⟨node', hn'⟩ := mem_iff_node?.mp ((hmem h).mpr hh)
    rw [unplaced?, unplaced?, hn, hn', Option.map_some, Option.map_some, Option.some.injEq] at hu
    rw [get_eq hn, get_eq hn', Except.map, Except.map, hu]
  · rw [get_eq_error hh, get_eq_error (mt (hmem h).mp hh)]

section Replacements

variable {a : Arena} (hw : a.WellFormed) {o : Handle} {s : Slot} {old : Option Handle}

include hw

theorem WellFormed.replaced_none (hs : a.HasSingle o s old) : a.Replaced o s none old (a.severedEach old.toList) where
  held := hs.child_eq
  holds := (hs.severedEach_self hw).child_eq
  child_eq p t d hd hne := by
    rw [(HasSingle.severed_content hw hs (child_eq_ok_iff.mp hd) hne).child_eq]
    cases d <;> rfl
  childList_eq p t cs hcs := by
    rw [(HasList.severed_content hw hs (childList_eq_ok_iff.mp hcs)).childList_eq, List.filter_eq_self.mpr]
    simp
  parent_eq h p hp := by
    obtain ⟨hh, rfl⟩ := parent_eq_ok_iff.mp hp
    rw [Arena.parent_eq (mem_severedEach.mpr hh), parent?_severedEach]
    simp [eq_comm]
  unplaced_eq h := map_unplaced_get (fun _ => mem_severedEach) (unplaced?_severedEach _)
  size_eq := size_severedEach _
  ids_eq := ids_severedEach _

theorem WellFormed.replaced_some {c : Handle} {path : List Handle} (hs : a.HasSingle o s old) (hold : old ≠ some c)
    (hc : c ∈ a) (hpath : a.Ascent o path) (hcpath : c ∉ path) : a.Replaced o s (some c) old (a.filled o s c old) := by
  have hoc : o ≠ c := fun h => hcpath (h ▸ hpath.self_mem)
  have hw' := hw.severed c
  have hs' := hs.severed hoc hold
  have hgrafted : c ∈ (a.severed c).severedEach old.toList := by simpa using hc
  have hread := reading?_settled (a := ((a.severed c).severedEach old.toList).grafted o s c) o s
  have htrees := sameTrees_settled (((a.severed c).severedEach old.toList).grafted o s c) o s
  refine ⟨hs.child_eq, ?_, ?_, ?_, ?_, ?_, ?_, ?_⟩
  · exact ((hs'.severedEach_self hw').grafted_self.of_reading?_eq (hread o)).child_eq
  · intro p t d hd hne
    have hsevered := HasSingle.severed_eq hw (child_eq_ok_iff.mp hd) c
    exact (((hs'.severed_content hw' hsevered hne).grafted hne).of_reading?_eq (hread p)).child_eq
  · intro p t cs hcs
    have hlist : a.HasList p t cs := childList_eq_ok_iff.mp hcs
    have hkept := HasList.severed_content hw' hs' (hlist.severed_eq hw c)
    have hcs' := (hkept.grafted (hlist.ne_of_hasSingle hs)).of_reading?_eq (hread p)
    rw [filled, hcs'.childList_eq, (hlist.nodup hw).erase_eq_filter]
    simp [bne, beq_eq_decide]
  · intro h p hp
    obtain ⟨hh, rfl⟩ := parent_eq_ok_iff.mp hp
    rw [Arena.parent_eq (mem_filled.mpr hh), filled, htrees.parent?_eq, parent?_grafted hgrafted, parent?_severedEach,
      parent?_severed]
    have hmem : h ∈ old.toList ↔ some h = old := by rw [Option.mem_toList, eq_comm]
    simp only [hmem, Option.some.injEq]
    by_cases hhc : h = c <;> simp only [hhc, ↓reduceIte]
  · intro h
    refine map_unplaced_get (fun _ => mem_filled) ?_
    rw [filled, unplaced?_settled, unplaced?_grafted, unplaced?_severedEach, unplaced?_severed]
  · rw [filled, htrees.size_eq, size_grafted, size_severedEach, size_severed]
  · rw [filled, ids_settled, ids_grafted, ids_severedEach, ids_severed]

end Replacements

end Arena

namespace Edit

open Arena

/-! ### When a slot can be filled -/

section Success

variable {a : Arena} (hw : a.WellFormed) {o : Handle} {s : Slot}

include hw

theorem setChild_some_isOk_iff {c : Handle} : (∃ old b, setChild o s (some c) a = .ok old b) ↔
    c ∈ a ∧ (∃ d, a.child o s = .ok d) ∧ ∃ path, a.Ascent o path ∧ c ∉ path := by
  constructor
  · rintro ⟨old, b, hrun⟩
    rcases setChild_some_cases hw (o := o) (s := s) (c := c) with
      ⟨e, herror⟩ | ⟨hs, -⟩ | ⟨d, path, hs, -, hc, hpath, hcpath, -, -⟩
    · rw [herror] at hrun
      cases hrun
    · -- the child is there already, so the owner is its parent
      have hpar := hw.mem_handlesAt_iff.mp hs.mem_handlesAt
      obtain ⟨path, hpath⟩ := hw.rooted o (mem_of_node? hs.choose_spec.1)
      exact ⟨hs.child_mem hw, ⟨_, hs.child_eq⟩, path, hpath, hpath.not_mem_of_parent? hpar⟩
    · exact ⟨hc, ⟨d, hs.child_eq⟩, path, hpath, hcpath⟩
  · rintro ⟨hc, ⟨d, hd⟩, path, hpath, hcpath⟩
    have hs : a.HasSingle o s d := child_eq_ok_iff.mp hd
    by_cases hdc : d = some c
    · have hcheck := hw.rooted.checkAttachable_eq_ok_iff (s := s).mpr ⟨hc, path, hpath, hcpath⟩
      exact ⟨_, _, run_setChild_self (hdc ▸ hs) hcheck⟩
    · exact ⟨_, _, (run_setChild_some hw hs hdc hc hpath hcpath).2⟩

theorem setChild_none_isOk_iff : (∃ old b, setChild o s none a = .ok old b) ↔
    ∃ node d, a.get o = .ok node ∧ .optional s d ∈ node.payload.childSlots := by
  constructor
  · rintro ⟨old, b, hrun⟩
    cases hreq : a.isRequired o s with
    | error e =>
      rw [setChild, run_inspect_bind_error hreq] at hrun
      cases hrun
    | ok required =>
    obtain ⟨node, hn, hr⟩ := isRequired_eq_ok_iff.mp hreq
    cases required with
    | true =>
      rw [setChild, run_inspect_bind hreq] at hrun
      simp only [↓reduceIte] at hrun
      rw [run_inspect_bind (variant_eq hn)] at hrun
      cases hrun
    | false =>
      obtain ⟨d, hd⟩ := Payload.isRequired?_eq_some_false_iff.mp hr
      exact ⟨node, d, get_eq hn, hd⟩
  · rintro ⟨node, d, hget, hd⟩
    have hn := get_eq_ok_iff.mp hget
    have hreq : a.isRequired o s = .ok false :=
      isRequired_eq_ok_iff.mpr ⟨node, hn, Payload.isRequired?_eq_some_false_iff.mpr ⟨d, hd⟩⟩
    refine ⟨d, a.severedEach d.toList, ?_⟩
    rw [setChild, run_inspect_bind hreq]
    exact run_replaceSingle_none hw ⟨node, hn, Payload.single?_of_optional hd⟩

/-- A child that is there already stays, and nothing changes; otherwise it replaces the old content, which is the answer. -/
theorem effect_of_setChild {child old : Option Handle} {b : Arena} (hrun : setChild o s child a = .ok old b) :
    if child ≠ none ∧ a.child o s = .ok child then old = none ∧ b = a else a.Replaced o s child old b := by
  cases child with
  | none =>
    rw [if_neg fun h => h.1 rfl]
    rcases setChild_none_cases hw (o := o) (s := s) with ⟨e, herror⟩ | ⟨d, hs, hok⟩
    · rw [herror] at hrun
      cases hrun
    · rw [hok] at hrun
      cases hrun
      exact hw.replaced_none hs
  | some c =>
    rcases setChild_some_cases hw (o := o) (s := s) (c := c) with
      ⟨e, herror⟩ | ⟨hs, hok⟩ | ⟨d, path, hs, hold, hc, hpath, hcpath, -, hok⟩
    · rw [herror] at hrun
      cases hrun
    · rw [hok] at hrun
      cases hrun
      rw [if_pos ⟨Option.some_ne_none c, hs.child_eq⟩]
      exact ⟨rfl, rfl⟩
    · rw [hok] at hrun
      cases hrun
      have hnot : ¬(some c ≠ none ∧ a.child o s = .ok (some c)) := by
        rw [hs.child_eq, Except.ok.injEq]
        exact fun h => hold h.2
      rw [if_neg hnot]
      exact hw.replaced_some hs hold hc hpath hcpath

end Success

end Edit

namespace Workspace

/-- The contract of filling a slot for a single child.  A child can be put into a slot for a single child unless it is the
owner or above it, and only optional slots can be emptied.  A child that is there already stays and nothing changes;
otherwise the answer is the old content, which the child, or nothing, replaces. -/
theorem setChild_contract {w : Workspace} (reachable : w.Reachable) {i : Nat} {a : Arena} (hi : w.arena? i = some a)
    (o : Handle) (s : Slot) :
    (∀ c, (∃ old w', w.edit? i (Edit.setChild o s (some c)) = some (.ok old, w')) ↔
      o ∈ a ∧ c ∈ a ∧ (∃ d, a.child o s = .ok d) ∧ ∃ path, a.Ascent o path ∧ c ∉ path) ∧
    ((∃ old w', w.edit? i (Edit.setChild o s none) = some (.ok old, w')) ↔
      ∃ node d, a.get o = .ok node ∧ .optional s d ∈ node.payload.childSlots) ∧
    ∀ child old w', w.edit? i (Edit.setChild o s child) = some (.ok old, w') →
      if child ≠ none ∧ a.child o s = .ok child then
        old = none ∧ w' = w
      else
        ∃ b, w'.arena? i = some b ∧ a.Replaced o s child old b ∧ ∀ k, k ≠ i → w'.arena? k = w.arena? k := by
  have hw := reachable.wellFormed.arena hi
  have success : ∀ child, (∃ old w', w.edit? i (Edit.setChild o s child) = some (.ok old, w')) ↔
      ∃ old b, Edit.setChild o s child a = .ok old b := by
    intro child
    constructor
    · rintro ⟨old, w', hrun⟩
      obtain ⟨b, hrun, -⟩ := (edit?_eq_ok_iff hi).mp hrun
      exact ⟨old, b, hrun⟩
    · rintro ⟨old, b, hrun⟩
      exact ⟨old, _, edit?_of_ok hi hrun⟩
  refine ⟨fun c => ?_, ?_, fun child old w' hedit => ?_⟩
  · rw [success, Edit.setChild_some_isOk_iff hw]
    constructor
    · rintro ⟨hc, hd, path, hpath, hcpath⟩
      exact ⟨hpath.mem, hc, hd, path, hpath, hcpath⟩
    · exact And.right
  · rw [success, Edit.setChild_none_isOk_iff hw]
  · obtain ⟨b, hrun, rfl⟩ := (edit?_eq_ok_iff hi).mp hedit
    have heffect := Edit.effect_of_setChild hw hrun
    split
    · rename_i hthere
      rw [if_pos hthere] at heffect
      obtain ⟨hold, rfl⟩ := heffect
      exact ⟨hold, put_self hi⟩
    · rename_i hthere
      rw [if_neg hthere] at heffect
      obtain ⟨-, hput, hothers⟩ := put_of_ids_eq hi heffect.ids_eq
      exact ⟨b, hput, heffect, hothers⟩

/-- A statement that returns a name, and a block with another name in it. -/
def returnedNameRun : List Action :=
  [.addArena {}, .command 0 (.alloc (.name "x") {}), .command 0 (.alloc (.returnStatement (some ⟨0⟩)) {}),
    .command 0 (.alloc (.name "y") {}), .command 0 (.alloc (.block [⟨2⟩]) {})]

/-- The name in the block becomes what is returned: it leaves the block, and the name that was there is a root. -/
theorem setChild_contract_returnedNameRun :
    ∃ w' b, (({} : Workspace).performAll returnedNameRun).edit? 0 (Edit.setChild ⟨1⟩ .value (some ⟨2⟩)) =
        some (.ok (some ⟨0⟩), w') ∧ w'.arena? 0 = some b ∧ b.child ⟨1⟩ .value = .ok (some ⟨2⟩) ∧
      b.childList ⟨3⟩ .statements = .ok [] ∧ b.parent ⟨2⟩ = .ok (some ⟨1⟩) ∧ b.parent ⟨0⟩ = .ok none := by
  have hreach : (({} : Workspace).performAll returnedNameRun).Reachable := ⟨returnedNameRun, by decide, rfl⟩
  obtain ⟨a, ha, hc, hpath, hchild, hlist, hparent₀, hparent₂⟩ : ∃ a,
      (({} : Workspace).performAll returnedNameRun).arena? 0 = some a ∧ (⟨2⟩ : Handle) ∈ a ∧ a.Ascent ⟨1⟩ [⟨1⟩] ∧
        a.child ⟨1⟩ .value = .ok (some ⟨0⟩) ∧ a.childList ⟨3⟩ .statements = .ok [⟨2⟩] ∧
        a.parent ⟨0⟩ = .ok (some ⟨1⟩) ∧ a.parent ⟨2⟩ = .ok (some ⟨3⟩) :=
    ⟨_, rfl, by decide, .root (by decide) rfl, rfl, rfl, rfl, rfl⟩
  obtain ⟨hsuccess, -, heffect⟩ := setChild_contract hreach ha ⟨1⟩ .value
  obtain ⟨old, w', hrun⟩ := (hsuccess ⟨2⟩).mpr ⟨hpath.mem, hc, ⟨_, hchild⟩, _, hpath, by decide⟩
  have hb := heffect _ _ _ hrun
  rw [if_neg (by simp [hchild])] at hb
  obtain ⟨b, hb, hreplaced, -⟩ := hb
  obtain rfl : old = some ⟨0⟩ := Except.ok.inj (hreplaced.held.symm.trans hchild)
  exact ⟨w', b, hrun, hb, hreplaced.holds, hreplaced.childList_eq _ _ _ hlist, hreplaced.parent_eq _ _ hparent₂,
    hreplaced.parent_eq _ _ hparent₀⟩

end Workspace

end ScriptTree
