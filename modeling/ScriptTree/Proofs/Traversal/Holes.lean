import ScriptTree.Proofs.External.Export
import ScriptTree.Proofs.Workspace

/-!
# Subtrees with holes

A walk that wants to see everything, a clone and an export each look for holes with a loop of their own.  `Fault` says
what they should find in a tree that cannot be read as a whole, without any of the loops: a handle without a node, or the
first empty required slot of the first node that has one.  In a well-formed arena the walk fails with the fault of the
subtree and with nothing else (`WellFormed.preOrder_eq_error_iff`).  The export fails with the same error, although it
finishes some nodes before it meets the hole (`Subtrees.runTasks_enter_error`); and what is copied is listed before
anything changes.
-/

namespace ScriptTree

namespace Arena

/-- What keeps the subtree of a node from being read as a whole, as the error that it is. -/
inductive Fault (a : Arena) (n : Handle) : TreeError → Prop
  | unknown (absent : n ∉ a) : Fault a n (.unknownNode n)
  /-- The first node with a hole in the order of a walk, and its first hole in the order of the slots. -/
  | hole {before after : List Handle} {x : Handle} {node : Node} {earlier later : List ChildSlot} {slot : Slot}
      (subtree : a.Subtrees [n] (before ++ x :: after)) (first : ∀ y ∈ before, a.HoleFreeAt y)
      (get : a.get x = .ok node) (slots : node.payload.childSlots = earlier ++ .required slot none :: later)
      (filled : ∀ s, .required s none ∉ earlier) :
      Fault a n (.malformed node.payload.variant x slot)

/-- A node that no hole keeps from being read together with all that is below it. -/
def HoleFreeBelow (a : Arena) (n : Handle) : Prop := n ∈ a ∧ ∀ x, a.isAncestor n x = .ok true → a.HoleFreeAt x

section Holes

variable {a : Arena} {n : Handle}

theorem exists_of_hole? {x : Handle} {e : TreeError} (h : a.hole? x = some e) :
    ∃ node earlier slot later, a.get x = .ok node ∧ node.payload.childSlots = earlier ++ .required slot none :: later ∧
      (∀ s, .required s none ∉ earlier) ∧ e = .malformed node.payload.variant x slot := by
  obtain ⟨node, hn, h⟩ := Option.bind_eq_some_iff.mp h
  obtain ⟨slot, hslot, rfl⟩ := Option.map_eq_some_iff.mp h
  obtain ⟨k, hk, rfl⟩ := Option.map_eq_some_iff.mp hslot
  obtain ⟨hole, earlier, later, hslots, hearlier⟩ := List.find?_eq_some_iff_append.mp hk
  refine ⟨node, earlier, k.slot, later, get_eq hn, ?_, fun s hs => ?_, rfl⟩
  · rw [hslots]
    cases k with
    | required s c =>
      cases c with
      | none => rfl
      | some c => cases hole
    | optional | list => cases hole
  · simpa [ChildSlot.isHole] using hearlier _ hs

theorem hole?_of_get {x : Handle} {node : Node} {earlier later : List ChildSlot} {slot : Slot}
    (hget : a.get x = .ok node) (hslots : node.payload.childSlots = earlier ++ .required slot none :: later)
    (hearlier : ∀ s, .required s none ∉ earlier) : a.hole? x = some (.malformed node.payload.variant x slot) := by
  have hn : a.node? x = some node := get_eq_ok_iff.mp hget
  have hfind : node.payload.childSlots.find? ChildSlot.isHole = some (.required slot none) := by
    refine List.find?_eq_some_iff_append.mpr ⟨rfl, earlier, later, hslots, fun k hk => ?_⟩
    rcases k with ⟨s, _ | _⟩ | _ | _
    · exact absurd hk (hearlier s)
    all_goals rfl
  rw [hole?, hn, Option.bind_some, Payload.firstHole?, hfind]
  rfl

/-- The walk fails with the fault of the subtree. -/
theorem WellFormed.preOrder_eq_error_iff (hw : a.WellFormed) {e : TreeError} :
    a.preOrder n = .error e ↔ a.Fault n e := by
  constructor
  · intro h
    rcases hw.preOrder_error_cases h with ⟨hn, rfl⟩ | ⟨xs, hxs, hfind⟩
    · exact .unknown hn
    · obtain ⟨before, x, after, rfl, hx, hbefore⟩ := List.findSome?_eq_some_iff.mp hfind
      obtain ⟨node, earlier, slot, later, hget, hslots, hearlier, rfl⟩ := exists_of_hole? hx
      exact .hole hxs (fun y hy => hole?_eq_none_iff.mp (hbefore y hy)) hget hslots hearlier
  · intro h
    cases h with
    | unknown absent => exact preOrder_eq_error absent
    | @hole before after x node earlier later slot subtree first get slots filled =>
      have hfind : (before ++ x :: after).findSome? a.hole? = some (.malformed node.payload.variant x slot) :=
        List.findSome?_eq_some_iff.mpr
          ⟨before, x, after, rfl, hole?_of_get get slots filled, fun y hy => hole?_eq_none_iff.mpr (first y hy)⟩
      rw [hw.preOrder_eq subtree, hfind]

/-- A node with a fault is none, or a hole is below it. -/
theorem Fault.not_holeFreeBelow (hw : a.WellFormed) {e : TreeError} (h : a.Fault n e) : ¬a.HoleFreeBelow n := by
  rintro ⟨hn, hfree⟩
  cases h with
  | unknown absent => exact absent hn
  | @hole before after x node earlier later slot subtree _ get slots =>
    have hx := (subtree.mem_iff_isAncestor hw x).mp (by simp)
    exact hfree x hx node slot get (by simp [slots])

theorem Listing.holeFreeBelow (hw : a.WellFormed) {xs : List Handle} (h : a.Listing [n] xs) : a.HoleFreeBelow n := by
  refine ⟨h.mem (h.subset List.mem_cons_self), fun x hx => ?_⟩
  exact hole?_eq_none_iff.mp (h.hole?_eq_none ((h.subtrees.mem_iff_isAncestor hw x).mpr hx))

end Holes

/-! ### Exports that fail -/

section Export

variable {a : Arena} {provider : AnalysisProvider}

/-- The tasks of some siblings fail at the first hole below them; what was finished before does not matter. -/
theorem Subtrees.runTasks_enter_error {form : Handle → Json} {hs xs : List Handle} (h : a.Subtrees hs xs)
    (hnd : xs.Nodup)
    (hform : ∀ x zs, a.Listing [x] zs → ∀ node, a.node? x = some node → form x = a.nodeForm provider form x node)
    {e : TreeError} (he : xs.findSome? a.hole? = some e) (depth : Nat) (hd : xs.length ≤ depth)
    (rest : List ExportTask) (done : Finished) :
    a.runTasks provider (hs.map (.enter depth) ++ rest) done = .error e := by
  induction h generalizing depth rest done with
  | nil => cases he
  | @cons h hs xs ys mem below siblings ihb ihr =>
    simp only [List.length_cons, List.length_append] at hd
    obtain ⟨depth, rfl⟩ : ∃ k, depth = k + 1 := ⟨depth - 1, by omega⟩
    obtain ⟨hndb, hndr, -⟩ := List.nodup_append.mp (List.nodup_cons.mp hnd).2
    rw [List.findSome?_cons, List.findSome?_append] at he
    rw [List.map_cons, List.cons_append]
    cases hh : a.hole? h with
    | some e' =>
      rw [hh] at he
      obtain rfl := Option.some.inj he
      rw [Arena.runTasks_enter, children_eq mem, hh]
    | none =>
    rw [hh] at he
    cases hxs : xs.findSome? a.hole? with
    | some e' =>
      -- the hole is below the first sibling
      rw [hxs] at he
      obtain rfl := Option.some.inj he
      rw [Arena.runTasks_enter, children_eq mem, hh]
      exact ihb hndb hxs depth (by omega) _ done
    | none =>
      -- the first sibling is finished, and the hole is behind it
      rw [hxs, Option.none_or] at he
      have hlisting : a.Listing [h] (h :: xs) := by
        refine (Subtrees.single mem below).listing fun x hx => ?_
        rcases List.mem_cons.mp hx with rfl | hx
        · exact hh
        · exact List.findSome?_eq_none_iff.mp hxs x hx
      have hndf : (h :: xs).Nodup := hnd.sublist ((List.sublist_append_left xs ys).cons_cons h)
      have hforms : ∀ x ∈ h :: xs, ∀ node, a.node? x = some node → form x = a.nodeForm provider form x node := by
        intro x hx
        obtain ⟨zs, hz⟩ := hlisting.exists_listing hx
        exact hform x zs hz
      obtain ⟨done', hrun, -⟩ := hlisting.runTasks_enter hndf hforms (depth + 1) (by rw [List.length_cons]; omega)
        (hs.map (.enter (depth + 1)) ++ rest) done
      rw [List.map_singleton, List.singleton_append] at hrun
      rw [hrun]
      exact ihr hndr he (depth + 1) (by omega) rest done'

theorem toExternal_eq_error_of_runTasks {r : Handle} {e : TreeError}
    (h : a.runTasks provider [.enter (a.size + 1) r] ∅ = .error e) : a.toExternal provider r = .error e := by
  rw [toExternal, h]
  rfl

/-- An export fails as the walk fails. -/
theorem WellFormed.toExternal_eq_error (hw : a.WellFormed) {r : Handle} {e : TreeError} (h : a.preOrder r = .error e) :
    a.toExternal provider r = .error e := by
  refine toExternal_eq_error_of_runTasks ?_
  rcases hw.preOrder_error_cases h with ⟨hr, rfl⟩ | ⟨xs, hxs, hfind⟩
  · rw [Arena.runTasks_enter, children_eq_error hr]
  · have hlen := hxs.length_le hw
    exact hxs.runTasks_enter_error (hxs.nodup hw) (fun x zs hz node hn => hw.render_eq hz hn) hfind (a.size + 1)
      (by omega) [] ∅

end Export

end Arena

/-! ### Reachable arenas -/

namespace Workspace

/-- A walk, a copy into any arena, a clone as a new tree and an export of one node all succeed, just if no hole is below
the node, or they all fail with its fault. -/
theorem walk_copy_export_agree {w : Workspace} (reachable : w.Reachable) {i j : Nat} {a dest : Arena}
    (ha : w.arena? i = some a) (hdest : w.arena? j = some dest) (n : Handle) (provider : AnalysisProvider) :
    (a.HoleFreeBelow n ∧ (∃ order, a.preOrder n = .ok order) ∧ (∃ map w', w.copyInto? i n j = some (.ok map, w')) ∧
      (∃ map w', w.edit? i (Edit.cloneSubtree n none) = some (.ok map, w')) ∧
        ∃ form, a.toExternal provider n = .ok form) ∨
    (¬a.HoleFreeBelow n ∧ ∃ e, a.Fault n e ∧ a.preOrder n = .error e ∧ w.copyInto? i n j = some (.error e, w) ∧
      w.edit? i (Edit.cloneSubtree n none) = some (.error e, w) ∧ a.toExternal provider n = .error e) := by
  have hw := reachable.wellFormed.arena ha
  cases h : a.preOrder n with
  | ok order =>
    left
    have hl := Arena.listing_of_preOrder h
    obtain ⟨b, hcopy, -⟩ := Edit.run_copyFrom dest hw h
    obtain ⟨c, hclone, -⟩ := Edit.run_cloneSubtree_none hw h
    rw [copyInto?_eq_edit? ha]
    exact ⟨hl.holeFreeBelow hw, ⟨order, rfl⟩, ⟨_, _, edit?_of_ok hdest hcopy⟩, ⟨_, _, edit?_of_ok ha hclone⟩, _,
      hw.toExternal_eq hl⟩
  | error e =>
    right
    have hfault := hw.preOrder_eq_error_iff.mp h
    refine ⟨hfault.not_holeFreeBelow hw, e, hfault, rfl, ?_, ?_, hw.toExternal_eq_error h⟩
    · rw [copyInto?_eq_edit? ha, edit?_of_error hdest (Edit.run_copyFrom_error h), put_self hdest]
    · rw [edit?_of_error ha (Edit.run_cloneSubtree_error h none), put_self ha]

/-- A block with two statements, a loop without parts and one whose expression is taken away. -/
def holeRun : List Action :=
  [.addArena {}, .command 0 (.alloc .empty { position := 3, length := 1 }),
    .command 0 (.alloc (.expressionStatement (some ⟨0⟩)) { position := 3, length := 2 }),
    .command 0 (.alloc (.whileLoop none none {}) { position := 6, length := 9 }),
    .command 0 (.alloc (.block [⟨1⟩, ⟨2⟩]) { position := 0, length := 16 }), .command 0 (.detach ⟨0⟩)]

theorem walk_copy_export_agree_holeRun :
    ∃ a e, (({} : Workspace).performAll holeRun).arena? 0 = some a ∧
      e = .malformed .expressionStatement ⟨1⟩ .expression ∧ a.preOrder ⟨3⟩ = .error e ∧
        (({} : Workspace).performAll holeRun).copyInto? 0 ⟨3⟩ 0 =
          some (.error e, ({} : Workspace).performAll holeRun) ∧
        a.toExternal .none ⟨3⟩ = .error e := by
  have hreach : (({} : Workspace).performAll holeRun).Reachable := ⟨holeRun, by decide, rfl⟩
  obtain ⟨a, node, ha, hmem, h₁, h₂, h₃, hfirst, hget, hslots, hvariant⟩ : ∃ a node,
      (({} : Workspace).performAll holeRun).arena? 0 = some a ∧ (∀ k < 4, ⟨k⟩ ∈ a) ∧ a.handlesAt ⟨1⟩ = [] ∧
        a.handlesAt ⟨2⟩ = [] ∧ a.handlesAt ⟨3⟩ = [⟨1⟩, ⟨2⟩] ∧ a.hole? ⟨3⟩ = none ∧ a.get ⟨1⟩ = .ok node ∧
        node.payload.childSlots = [] ++ ChildSlot.required .expression none :: [] ∧
        node.payload.variant = .expressionStatement :=
    ⟨_, _, rfl, fun _ hk => hk, rfl, rfl, rfl, rfl, rfl, rfl, rfl⟩
  have hsub : a.Subtrees [⟨3⟩] ([⟨3⟩] ++ ⟨1⟩ :: [⟨2⟩]) := by
    have hleaf : ∀ k, a.handlesAt k = [] → a.Subtrees (a.handlesAt k) [] := by
      intro k hk
      rw [hk]
      exact .nil
    have hbelow : a.Subtrees [⟨1⟩, ⟨2⟩] [⟨1⟩, ⟨2⟩] :=
      .cons (hmem 1 (by decide)) (hleaf ⟨1⟩ h₁) (.single (hmem 2 (by decide)) (hleaf ⟨2⟩ h₂))
    exact .single (hmem 3 (by decide)) (h₃ ▸ hbelow)
  have hfault : a.Fault ⟨3⟩ (.malformed node.payload.variant ⟨1⟩ .expression) :=
    .hole hsub (by simpa using Arena.hole?_eq_none_iff.mp hfirst) hget hslots (by simp)
  rw [hvariant] at hfault
  have herror := (hreach.wellFormed.arena ha).preOrder_eq_error_iff.mpr hfault
  rcases walk_copy_export_agree hreach ha ha ⟨3⟩ .none with ⟨-, ⟨order, hok⟩, -⟩ | ⟨-, e, -, hwalk, hcopy, -, hexport⟩
  · rw [herror] at hok
    cases hok
  · obtain rfl := Except.error.inj (herror.symm.trans hwalk)
    exact ⟨a, _, ha, rfl, hwalk, hcopy, hexport⟩

end Workspace

end ScriptTree
