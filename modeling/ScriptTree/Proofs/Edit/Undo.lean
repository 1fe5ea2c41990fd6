import ScriptTree.Proofs.Edit.Lengths
import ScriptTree.Proofs.Edit.Relisting
import ScriptTree.Proofs.Workspace.Places

/-!
# Undoing structural edits

An arena is given by what its slots hold, by where its nodes stand in the source and how long they are, and by what of
its nodes no move changes (`WellFormed.eq_lengthened`).  An edit and the one that puts the old content back leave all of
that alone: by their contracts the slots hold again what they held, and neither of them moves a node.  Only the length of
a function that gets its body back is found anew, from the body; that is what filling the slot of the body does in any
case (`settled`).
-/

namespace ScriptTree

theorem Node.eq_of_unplaced {node node' : Node} (hunplaced : node'.unplaced = node.unplaced)
    (hpayload : node'.payload = node.payload) (hparent : node'.parent = node.parent)
    (hposition : node'.span.position = node.span.position) (hlength : node'.span.length = node.span.length) :
    node' = node := by
  obtain ⟨id, ⟨position, length⟩, parent, payload, change, fixedPosition⟩ := node
  obtain ⟨id', ⟨position', length'⟩, parent', payload', change', fixedPosition'⟩ := node'
  simp only [unplaced, Node.mk.injEq, Span.mk.injEq] at hunplaced hpayload hparent hposition hlength ⊢
  exact ⟨hunplaced.1, ⟨hposition, hlength⟩, hparent, hpayload, hunplaced.2.2.2.2⟩

namespace Arena

/-! ### What fixes an arena -/

/-- The arena `b` has the nodes of `a`, with the same marks, and every slot holds the same in both. -/
structure SameContents (a b : Arena) : Prop where
  child_eq : ∀ p t d, a.child p t = .ok d → b.child p t = .ok d
  childList_eq : ∀ p t cs, a.childList p t = .ok cs → b.childList p t = .ok cs
  unplaced_eq : ∀ h, (b.get h).map Node.unplaced = (a.get h).map Node.unplaced
  size_eq : b.size = a.size
  ids_eq : b.ids = a.ids

namespace SameContents

variable {a b : Arena} (h : a.SameContents b)

include h

theorem mem_iff {x : Handle} : x ∈ b ↔ x ∈ a := by
  rw [Arena.mem_iff, Arena.mem_iff, h.size_eq]

theorem exists_node? {x : Handle} {node : Node} (hn : a.node? x = some node) :
    ∃ node', b.node? x = some node' ∧ node'.unplaced = node.unplaced ∧ node'.payload = node.payload := by
  obtain ⟨node', hn'⟩ := mem_iff_node?.mp (h.mem_iff.mpr (mem_of_node? hn))
  have hunplaced := h.unplaced_eq x
  rw [get_eq hn, get_eq hn', Except.map, Except.map, Except.ok.injEq] at hunplaced
  have hempty : node.payload.emptied = node'.payload.emptied := (congrArg Node.payload hunplaced).symm
  refine ⟨node', hn', hunplaced, (Payload.ext_slots hempty (fun s d hd => ?_) fun s cs hcs => ?_).symm⟩
  · obtain ⟨entry, hentry, hd'⟩ := child_eq_ok_iff.mp (h.child_eq x s d (child_eq_ok_iff.mpr ⟨node, hn, hd⟩))
    rwa [Option.some.inj (hn'.symm.trans hentry)]
  · obtain ⟨entry, hentry, hcs'⟩ :=
      childList_eq_ok_iff.mp (h.childList_eq x s cs (childList_eq_ok_iff.mpr ⟨node, hn, hcs⟩))
    rwa [Option.some.inj (hn'.symm.trans hentry)]

theorem handlesAt_eq (p : Handle) : b.handlesAt p = a.handlesAt p := by
  by_cases hp : p ∈ a
  · obtain ⟨node, hn⟩ := mem_iff_node?.mp hp
    obtain ⟨node', hn', -, hpayload⟩ := h.exists_node? hn
    rw [Arena.handlesAt_eq hn, Arena.handlesAt_eq hn', hpayload]
  · rw [handlesAt, handlesAt, node?_eq_none hp, node?_eq_none (mt h.mem_iff.mp hp)]

variable (hw : a.WellFormed) (hwb : b.WellFormed)

include hw hwb

theorem parent?_eq (x : Handle) : b.parent? x = a.parent? x := by
  refine Option.ext fun p => ?_
  rw [← hwb.mem_handlesAt_iff, ← hw.mem_handlesAt_iff, h.handlesAt_eq]

variable {o : Handle} (htext : SameText (fun _ => False) (· = o) a b)

include htext

/-- A node that stands where it stood, under the same parent, is as far from it as before. -/
theorem offset_eq {x : Handle} (hx : x ∈ a) : b.offset x = a.offset x := by
  have hparent := h.parent?_eq hw hwb x
  have hplace := htext.place_eq x hx not_false
  cases hp : a.parent? x with
  | none => rwa [place_of_root (h.mem_iff.mpr hx) (hparent.trans hp), place_of_root hx hp] at hplace
  | some p =>
    have hplacep := htext.place_eq p (hw.rooted.mem_of_parent?_eq hp) not_false
    rw [hwb.rooted.place_of_parent? (hparent.trans hp), hw.rooted.place_of_parent? hp, hplacep] at hplace
    omega

/-- The same contents at the same places make the same arena, but for lengths. -/
theorem eq_lengthened : b = a.lengthened o (b.extent o) := by
  refine ext_node? h.ids_eq fun x => ?_
  by_cases hx : x ∈ a
  · obtain ⟨node, hn⟩ := mem_iff_node?.mp hx
    obtain ⟨node', hn', hunplaced, hpayload⟩ := h.exists_node? hn
    have hparent : node'.parent = node.parent := by
      rw [← Arena.parent?_eq hn, ← Arena.parent?_eq hn', h.parent?_eq hw hwb]
    have hposition : node'.span.position = node.span.position := by
      simpa [offset, hn, hn'] using h.offset_eq hw hwb htext hx
    rw [hn']
    by_cases hxo : x = o
    · subst hxo
      have hlength : b.extent x = node'.span.length := by simp [extent, hn']
      rw [node?_lengthened_self hn, Option.some.injEq]
      exact Node.eq_of_unplaced hunplaced hpayload hparent hposition hlength.symm
    · have hlength : node'.span.length = node.span.length := by
        simpa [extent, hn, hn'] using htext.extent_eq x hx hxo
      rw [node?_lengthened _ hxo, hn, Option.some.injEq]
      exact Node.eq_of_unplaced hunplaced hpayload hparent hposition hlength
  · have hxl : x ∉ a.lengthened o (b.extent o) := by
      rwa [(sameTrees_lengthened a o _).mem_iff]
    rw [node?_eq_none (mt h.mem_iff.mp hx), node?_eq_none hxl]

omit htext in
/-- Where the slot of a body was filled with the body that it holds, the length of the function is found anew. -/
theorem eq_settled {s : Slot} {q : Handle}
    (htext : SameText (fun _ => False) (fun x => x = o ∧ s = .body ∧ a.kind? o = some (.function, false)) a b)
    (hs : a.HasSingle o s (some q))
    (hextent : s = .body → a.kind? o = some (.function, false) → b.extent o = max 0 ((a.bounds q).2 - a.place o)) :
    b = a.settled o s := by
  have hrestored := h.eq_lengthened hw hwb (htext.mono (fun _ _ hno => hno) fun _ _ hresized => hresized.1)
  rw [hw.settled_eq hs, hrestored]
  split
  · rename_i hbody
    rw [hextent hbody.1 hbody.2]
  · rename_i hother
    rw [htext.extent_eq o (mem_of_node? hs.choose_spec.1) fun hresized => hother hresized.2, lengthened_extent]

end SameContents

/-! ### Contents that are put back -/

section Contents

variable {a b b' : Arena} {o q : Handle} {s : Slot}

/-- The way up from a node does not change when none of the two children is on it. -/
theorem Replaced.ascent {child old : Option Handle} {h : Handle} {path : List Handle} (hreplaced : a.Replaced o s child old b)
    (hpath : a.Ascent h path) (hmem : ∀ x ∈ a, x ∈ b) (hchild : ∀ c, child = some c → c ∉ path)
    (hold : ∀ q, old = some q → q ∉ path) : b.Ascent h path := by
  have hpatha : ∀ x ∈ path, x ∈ a := fun x hx => mem_handles.mp (hpath.subset_handles hx)
  refine hpath.of_parent?_eq (fun x hx => hmem x (hpatha x hx)) fun x hx => ?_
  have hparent := hreplaced.parent_eq x _ (Arena.parent_eq (hpatha x hx))
  rw [if_neg fun hxc => hchild x hxc.symm hx, if_neg fun hxq => hold x hxq.symm hx] at hparent
  exact (parent_eq_ok_iff.mp hparent).2

variable (hw : a.WellFormed)

include hw

/-- A child that comes from nowhere takes the place of another one, and then the other one takes its place. -/
theorem Replaced.sameContents {child : Option Handle} (h : a.Replaced o s child (some q) b)
    (h' : b.Replaced o s (some q) child b') (hroot : ∀ c, child = some c → a.parent? c = none) : a.SameContents b' where
  child_eq p t d hd := by
    have hs : a.HasSingle p t d := child_eq_ok_iff.mp hd
    by_cases hpt : (p, t) = (o, s)
    · obtain ⟨rfl, rfl⟩ := Prod.mk.inj hpt
      rw [← hd, h.held, h'.holds]
    · have hfirst : (if d = child then none else d) = d := by
        split
        · rename_i hdc
          subst hdc
          cases d with
          | none => rfl
          | some c =>
            have hparent := hw.mem_handlesAt_iff.mp hs.mem_handlesAt
            rw [hroot c rfl] at hparent
            cases hparent
        · rfl
      have hd' := h.child_eq p t d hd hpt
      have hother : d ≠ some q := HasSingle.ne_of_ne hw (child_eq_ok_iff.mp h.held) hs hpt
      rw [hfirst] at hd'
      rw [h'.child_eq p t d hd' hpt, if_neg hother]
  childList_eq p t cs hcs := by
    have hs : a.HasList p t cs := childList_eq_ok_iff.mp hcs
    have hq : q ∉ cs := hs.not_mem_of_hasSingle hw (child_eq_ok_iff.mp h.held)
    have hfirst : cs.filter (fun c => some c ≠ child) = cs := by
      refine List.filter_eq_self.mpr fun c hc => ?_
      simp only [decide_eq_true_eq]
      intro hchild
      have hparent := hw.mem_handlesAt_iff.mp (hs.mem_handlesAt hc)
      rw [hroot c hchild.symm] at hparent
      cases hparent
    have hsecond : cs.filter (fun c => some c ≠ some q) = cs := by
      refine List.filter_eq_self.mpr fun c hc => ?_
      simp only [decide_eq_true_eq, ne_eq, Option.some.injEq]
      exact fun hcq => hq (hcq ▸ hc)
    have hcs' := h.childList_eq p t cs hcs
    rw [hfirst] at hcs'
    rw [h'.childList_eq p t cs hcs', hsecond]
  unplaced_eq x := (h'.unplaced_eq x).trans (h.unplaced_eq x)
  size_eq := h'.size_eq.trans h.size_eq
  ids_eq := h'.ids_eq.trans h.ids_eq

/-- A list that has lost an entry gets its old content back. -/
theorem Relisted.sameContents {cs : List Handle} {c : Handle} (hs : a.HasList o s cs) (hc : c ∈ cs)
    (h : (a.severed c).Relisted o s (cs.erase c) cs b) : a.SameContents b where
  child_eq p t d hd := by
    have hsingle : a.HasSingle p t d := child_eq_ok_iff.mp hd
    have hdc : d ≠ some c := by
      rintro rfl
      exact hs.not_mem_of_hasSingle hw hsingle hc
    have hsevered := hsingle.severed_eq hw c
    rw [if_neg hdc] at hsevered
    rw [h.child_eq p t d hsevered.child_eq, hsingle.filter_eq_self hw hs]
  childList_eq p t ds hds := by
    by_cases hpt : (p, t) = (o, s)
    · obtain ⟨rfl, rfl⟩ := Prod.mk.inj hpt
      rw [← hds, hs.childList_eq, h.holds]
    · have hlist : a.HasList p t ds := childList_eq_ok_iff.mp hds
      have hkept := hlist.filter_eq_self hw hs hpt
      have hcds : c ∉ ds := by
        rw [← hkept, List.mem_filter]
        simp [hc]
      have hsevered := hlist.severed_eq hw c
      rw [List.erase_of_not_mem hcds] at hsevered
      rw [h.childList_eq p t ds hsevered.childList_eq hpt, hkept]
  unplaced_eq x := (h.unplaced_eq x).trans (map_unplaced_get (fun _ => mem_severed) unplaced?_severed)
  size_eq := h.size_eq.trans size_severed
  ids_eq := h.ids_eq.trans ids_severed

end Contents

end Arena

namespace Edit

open Arena

variable {a b : Arena} (hw : a.WellFormed) {o q c : Handle} {s : Slot}

include hw

/-- A child goes back into the slot that it has left, to the child that came for it or to nothing, and all is as it was
when the slot was filled with it. -/
theorem run_setChild_back {child : Option Handle} {path : List Handle} (hwb : b.WellFormed)
    (h : a.Replaced o s child (some q) b) (hpath : a.Ascent o path)
    (hchild : ∀ c, child = some c → a.parent? c = none ∧ c ∉ path)
    (htext : SameText (fun _ => False) (fun x => x = o ∧ s = .body ∧ a.kind? o = some (.function, false)) a b) :
    setChild o s (some q) b = .ok child (a.settled o s) := by
  have hs : a.HasSingle o s (some q) := child_eq_ok_iff.mp h.held
  have hsb : b.HasSingle o s child := child_eq_ok_iff.mp h.holds
  have hq := hw.mem_handlesAt_iff.mp hs.mem_handlesAt
  have hqb := htext.mem q (mem_of_parent? hq)
  have hqpath := hpath.not_mem_of_parent? hq
  have hold : child ≠ some q := by
    intro hcq
    rw [(hchild q hcq).1] at hq
    cases hq
  have hpathb := h.ascent hpath htext.mem (fun c hc => (hchild c hc).2) fun _ hqq => Option.some.inj hqq ▸ hqpath
  obtain ⟨hwb', hrun⟩ := run_setChild_some hwb hsb hold hqb hpathb hqpath
  have hcontents := h.sameContents hw (hwb.replaced_some hsb hold hqb hpathb hqpath) fun c hc => (hchild c hc).1
  have htext' := htext.trans (hwb.sameText_filled hsb hold hqb hpathb hqpath fun hbody hk =>
    ⟨rfl, hbody, (htext.kind?_eq o hpath.mem).symm.trans hk⟩)
  rw [hrun, hcontents.eq_settled hw hwb' htext' hs]
  -- a function ends with its body, and that stands where it stood
  rintro rfl hk
  obtain ⟨-, hbounds⟩ := hwb.filled_body ((htext.kind?_eq o hpath.mem).trans hk) hsb hold hqb hpathb hqpath
  have hself := hbounds o (htext.mem o hpath.mem)
  rw [if_pos rfl] at hself
  have hqo := hw.rooted.ne_of_parent? hq
  rw [(bounds_eq_iff.mp hself).2, htext.place_eq o hpath.mem not_false,
    htext.bounds_eq (mem_of_parent? hq) not_false fun hresized => hqo hresized.1]

/-- A child that was detached goes back into its slot. -/
theorem run_setChild_severed (hs : a.HasSingle o s (some q)) :
    setChild o s (some q) (a.severed q) = .ok none (a.settled o s) := by
  obtain ⟨path, hpath⟩ := hw.rooted o (mem_of_node? hs.choose_spec.1)
  exact run_setChild_back hw (hw.severed q) (hw.replaced_none hs) hpath (fun c hc => by cases hc)
    (sameText_severed hw.rooted q)

/-- A child that was displaced by a root goes back into its slot and displaces the root. -/
theorem run_setChild_displaced (hroot : a.parent? c = none) (hrun : setChild o s (some c) a = .ok (some q) b) :
    a.HasSingle o s (some q) ∧ setChild o s (some q) b = .ok (some c) (a.settled o s) := by
  rcases setChild_some_cases hw (o := o) (s := s) (c := c) with
    ⟨e, herror⟩ | ⟨-, hself⟩ | ⟨old, path, hs, hold, hc, hpath, hcpath, hwb, hok⟩
  · rw [herror] at hrun
    cases hrun
  · rw [hself] at hrun
    cases hrun
  · rw [hok] at hrun
    cases hrun
    refine ⟨hs, run_setChild_back hw hwb (hw.replaced_some hs hold hc hpath hcpath) hpath ?_ ?_⟩
    · rintro _ ⟨⟩
      exact ⟨hroot, hcpath⟩
    · exact hw.sameText_filled hs hold hc hpath hcpath fun hbody hk => ⟨rfl, hbody, hk⟩

/-- An entry that was detached goes back when the list gets its old content. -/
theorem run_setChildList_severed {cs : List Handle} (hs : a.HasList o s cs) (hc : c ∈ cs) :
    setChildList o s cs (a.severed c) = .ok () a := by
  have hw' := hw.severed c
  have ho := mem_of_node? hs.choose_spec.1
  obtain ⟨path, hpath⟩ := hw.rooted o ho
  have hentries : ∀ x ∈ cs, x ∈ a.severed c ∧ x ∉ path := fun x hx =>
    ⟨mem_severed.mpr (hs.child_mem hw hx), hpath.not_mem_of_parent? (hw.mem_handlesAt_iff.mp (hs.mem_handlesAt hx))⟩
  have hpath' := hpath.severed (hentries c hc).2
  have hs' := hs.severed_eq hw c
  have hrelisted := (receives_severedEach hw' hs' hpath' hentries).relisted hw' hs' (hs.nodup hw)
  obtain ⟨-, -, -, hwb, hok⟩ :=
    run_setChildList hw' hs' ((checkEntries_eq_ok_iff hw' hpath').mpr ⟨hs.nodup hw, hentries⟩)
  have htext : SameText (fun _ => False) (fun _ => False) a _ :=
    (sameText_severed hw.rooted c).trans (sameText_setChildList hw' hok)
  have hrestored := (hrelisted.sameContents hw hs hc).eq_lengthened (o := o) hw hwb
    (htext.mono (fun _ _ hno => hno) fun _ _ hno => hno.elim)
  rw [hok, hrestored, htext.extent_eq o ho not_false, lengthened_extent]

end Edit

namespace Workspace

open Arena

variable {w : Workspace} {i : Nat} {a : Arena}

/-- The workspace `w'` is `w` again, but for the length of a function in arena `i` whose body was put back: the function
ends with its body. -/
def Restored (w w' : Workspace) (i : Nat) (a : Arena) (o : Handle) (s : Slot) (child : Handle) : Prop :=
  if s = .body ∧ a.kind? o = some (.function, false) then
    ∃ start first stop, a.absolutePosition o = .ok start ∧ a.absoluteBounds child = .ok (first, stop) ∧
      w' = w.put i (a.lengthened o (max 0 (stop - start)))
  else w' = w

theorem restored_settled (hi : w.arena? i = some a) (hw : a.WellFormed) {o q : Handle} {s : Slot}
    (hs : a.HasSingle o s (some q)) : w.Restored (w.put i (a.settled o s)) i a o s q := by
  rw [Restored, hw.settled_eq hs]
  split
  · exact ⟨_, _, _, hw.rooted.absolutePosition_eq (mem_of_node? hs.choose_spec.1),
      hw.rooted.absoluteBounds_eq (hs.child_mem hw), rfl⟩
  · exact put_self hi

theorem edit?_put {α : Type} (hi : w.arena? i = some a) {b b' : Arena} {e : Edit α} {x : α} (hrun : e b = .ok x b') :
    (w.put i b).edit? i e = some (.ok x, w.put i b') := by
  rw [edit?_of_ok (arena?_put_self hi b) hrun, put_put]

/-- A node that was detached goes back where it hung, and a child that was displaced by a root goes back to its slot, with
everything as it was before. -/
theorem structural_edits_undone (reachable : w.Reachable) (hi : w.arena? i = some a) :
    (∀ c p, a.parent c = .ok (some p) → ∃ s w₁, w.edit? i (Edit.detach c) = some (.ok (some (p, s)), w₁) ∧
      ((a.child p s = .ok (some c) ∧ ∃ w₂, w₁.edit? i (Edit.setChild p s (some c)) = some (.ok none, w₂) ∧
          w.Restored w₂ i a p s c) ∨
        ∃ cs, a.childList p s = .ok cs ∧ c ∈ cs ∧ w₁.edit? i (Edit.setChildList p s cs) = some (.ok (), w))) ∧
    ∀ c o s q w₁, a.parent c = .ok none → w.edit? i (Edit.setChild o s (some c)) = some (.ok (some q), w₁) →
      ∃ w₂, w₁.edit? i (Edit.setChild o s (some q)) = some (.ok (some c), w₂) ∧ w.Restored w₂ i a o s q := by
  have hw := reachable.wellFormed.arena hi
  constructor
  · intro c p hparent
    obtain ⟨hc, hp⟩ := parent_eq_ok_iff.mp hparent
    have hdetach := Edit.run_detach hw hc
    rcases hw.exists_slot hp with ⟨s, hs⟩ | ⟨s, cs, hs, hmem⟩
    · rw [hs.standing?_eq hw] at hdetach
      exact ⟨s, _, edit?_of_ok hi hdetach, .inl ⟨hs.child_eq, _, edit?_put hi (Edit.run_setChild_severed hw hs),
        restored_settled hi hw hs⟩⟩
    · rw [hs.standing?_eq hw hmem] at hdetach
      refine ⟨s, _, edit?_of_ok hi hdetach, .inr ⟨cs, hs.childList_eq, hmem, ?_⟩⟩
      rw [edit?_put hi (Edit.run_setChildList_severed hw hs hmem), put_self hi]
  · intro c o s q w₁ hroot hedit
    obtain ⟨b, hrun, rfl⟩ := (edit?_eq_ok_iff hi).mp hedit
    obtain ⟨hs, hback⟩ := Edit.run_setChild_displaced hw (parent_eq_ok_iff.mp hroot).2 hrun
    exact ⟨_, edit?_put hi hback, restored_settled hi hw hs⟩

/-- A function that was cut off before the end of its body, a block, and a name in another block. -/
def cutFunctionRun : List Action :=
  [.addArena {}, .command 0 (.alloc (.block []) { position := 20, length := 5 }),
    .command 0 (.construct (.function none [] ⟨0⟩ { position := 10, length := 0 })),
    .command 0 (.setSpan ⟨1⟩ { position := 10, length := 3 }),
    .command 0 (.alloc (.block []) { position := 30, length := 4 }),
    .command 0 (.alloc (.name "x") { position := 1, length := 1 }),
    .command 0 (.alloc (.block [⟨3⟩]) { position := 0, length := 3 })]

/-- The body of the function goes out and in again, and the function ends with it then; the name goes out and in again,
and nothing has changed. -/
theorem structural_edits_undone_cutFunctionRun :
    ∃ a w₁ w₂ v, (({} : Workspace).performAll cutFunctionRun).arena? 0 = some a ∧ a.absoluteBounds ⟨1⟩ = .ok (10, 13) ∧
      (({} : Workspace).performAll cutFunctionRun).edit? 0 (Edit.setChild ⟨1⟩ .body (some ⟨2⟩)) =
        some (.ok (some ⟨0⟩), w₁) ∧
      w₁.edit? 0 (Edit.setChild ⟨1⟩ .body (some ⟨0⟩)) = some (.ok (some ⟨2⟩), w₂) ∧
      w₂ = (({} : Workspace).performAll cutFunctionRun).put 0 (a.lengthened ⟨1⟩ 15) ∧
      (({} : Workspace).performAll cutFunctionRun).edit? 0 (Edit.detach ⟨3⟩) =
        some (.ok (some (⟨4⟩, .statements)), v) ∧
      v.edit? 0 (Edit.setChildList ⟨4⟩ .statements [⟨3⟩]) =
        some (.ok (), ({} : Workspace).performAll cutFunctionRun) := by
  have hreach : (({} : Workspace).performAll cutFunctionRun).Reachable := ⟨cutFunctionRun, by decide, rfl⟩
  obtain ⟨a, w₁, v, e, ha, hfunction, hkind, hstart, hbody, hroot, hfill, hparent, hdetach, hlist, hsingle⟩ :
      ∃ a w₁ v e, (({} : Workspace).performAll cutFunctionRun).arena? 0 = some a ∧
        a.absoluteBounds ⟨1⟩ = .ok (10, 13) ∧ a.kind? ⟨1⟩ = some (.function, false) ∧
        a.absolutePosition ⟨1⟩ = .ok 10 ∧ a.absoluteBounds ⟨0⟩ = .ok (20, 25) ∧ a.parent ⟨2⟩ = .ok none ∧
        (({} : Workspace).performAll cutFunctionRun).edit? 0 (Edit.setChild ⟨1⟩ .body (some ⟨2⟩)) =
          some (.ok (some ⟨0⟩), w₁) ∧ a.parent ⟨3⟩ = .ok (some ⟨4⟩) ∧
        (({} : Workspace).performAll cutFunctionRun).edit? 0 (Edit.detach ⟨3⟩) =
          some (.ok (some (⟨4⟩, .statements)), v) ∧
        a.childList ⟨4⟩ .statements = .ok [⟨3⟩] ∧ a.child ⟨4⟩ .statements = .error e :=
    ⟨_, _, _, _, rfl, rfl, rfl, rfl, rfl, rfl, rfl, rfl, rfl, rfl, rfl⟩
  obtain ⟨detached, displaced⟩ := structural_edits_undone hreach ha
  obtain ⟨w₂, hback, hrestored⟩ := displaced _ _ _ _ _ hroot hfill
  rw [Restored, if_pos ⟨rfl, hkind⟩] at hrestored
  obtain ⟨start, first, stop, hstart', hbody', hw₂⟩ := hrestored
  rw [hstart] at hstart'
  cases hstart'
  rw [hbody] at hbody'
  cases hbody'
  obtain ⟨s, v', hdetach', hslot⟩ := detached _ _ hparent
  rw [hdetach] at hdetach'
  cases hdetach'
  rcases hslot with ⟨hchild, -⟩ | ⟨cs, hcs, -, hagain⟩
  · rw [hsingle] at hchild
    cases hchild
  · rw [hlist] at hcs
    cases hcs
    exact ⟨a, w₁, w₂, v, ha, hfunction, hfill, hback, hw₂, hdetach, hagain⟩

end Workspace

end ScriptTree
