import ScriptTree.Proofs.External.Assembly
import ScriptTree.Proofs.Workspace

/-!
# The export is the recursive form

A list of tasks that enters some siblings leaves behind the forms of those siblings, and the table is as before outside
their subtrees (`Listing.runTasks_enter`).  The induction is on the listing: when a node is finished, the forms of its
children are in the table, since no other node of the listing has taken them, and its own form is put there for the
parent.  Forms that nobody takes stay in the table, and forms that are taken and left out are missed by nobody.

The recursive form has a bound on depth, which is reached in no well-formed arena: there the form of a node is its object
around the forms of its children (`WellFormed.render_eq`).
-/

namespace ScriptTree

namespace Arena

variable {a : Arena} {provider : AnalysisProvider}

/-! ### The recursive form without its bound -/

/-- Nodes with a listing have the same form under all bounds that are not shorter than the listing. -/
theorem Listing.renderWithin_eq {hs xs : List Handle} (h : a.Listing hs xs) {d e : Nat} (hd : xs.length ≤ d)
    (he : xs.length ≤ e) : ∀ x ∈ hs, a.renderWithin provider d x = a.renderWithin provider e x := by
  induction h generalizing d e with
  | nil => exact fun x hx => absurd hx List.not_mem_nil
  | @cons h hs cs xs ys hc below rest ihb ihr =>
    simp only [List.length_cons, List.length_append] at hd he
    intro x hx
    rcases List.mem_cons.mp hx with rfl | hx
    · obtain ⟨d, rfl⟩ : ∃ k, d = k + 1 := ⟨d - 1, by omega⟩
      obtain ⟨e, rfl⟩ : ∃ k, e = k + 1 := ⟨e - 1, by omega⟩
      obtain ⟨node, hn, -, rfl⟩ := exists_node?_of_children hc
      have hn' : a.nodes[x.index]? = some node := hn
      rw [renderWithin, renderWithin, hn']
      exact Subject.nodeForm_congr (s := { arena := a, provider, handle := x, node }) (ihb (by omega) (by omega))
    · exact ihr (by omega) (by omega) x hx

/-- The recursive form of a subtree without holes is the object of its root around the recursive forms of the children. -/
theorem WellFormed.render_eq (hw : a.WellFormed) {x : Handle} {zs : List Handle} (h : a.Listing [x] zs) {node : Node}
    (hn : a.node? x = some node) : a.render provider x = a.nodeForm provider (a.render provider) x node := by
  have hlen := h.length_le hw
  cases h with
  | @cons _ _ cs xs ys hc below rest =>
    simp only [List.length_cons, List.length_append] at hlen
    obtain ⟨node', hnode, -, rfl⟩ := exists_node?_of_children hc
    obtain rfl : node' = node := Option.some.inj (hnode.symm.trans hn)
    have hn' : a.nodes[x.index]? = some node' := hn
    rw [render, renderWithin, hn']
    refine Subject.nodeForm_congr (s := { arena := a, provider, handle := x, node := node' }) fun c hcs => ?_
    exact below.renderWithin_eq (by omega) (by omega) c hcs

/-! ### The list of tasks -/

theorem finishNode_eq (provider : AnalysisProvider) {h : Handle} {node : Node} (hn : a.node? h = some node)
    (hole : node.payload.firstHole? = none) (hnd : node.payload.handles.Nodup)
    (hmem : ∀ c ∈ node.payload.handles, c ∈ a) {form : Handle → Json} {done : Finished}
    (hdone : ∀ c ∈ node.payload.handles, done[c]? = some (form c)) :
    ∃ done', (a.finishNode provider h).run done = .ok ((), done') ∧
      done'[h]? = some (a.nodeForm provider form h node) ∧
      ∀ x, x ≠ h → x ∉ node.payload.handles → done'[x]? = done[x]? := by
  let s : Subject := { arena := a, provider, handle := h, node }
  have hsub := (Payload.sublist_taken node.payload).subset
  obtain ⟨done', hrun, hkeep⟩ := Subject.takes_assemble (s := s) hole hnd hmem done fun c hc => hdone c (hsub hc)
  refine ⟨done'.insert h (a.nodeForm provider form h node), ?_, ?_, ?_⟩
  · show (a.finishNode provider h) done = _
    rw [finishNode, get_eq hn]
    show (s.assemble Finished.take done >>= fun r => _) = _
    rw [hrun]
    rfl
  · exact Std.HashMap.getElem?_insert_self
  · intro x hx hxs
    rw [Std.HashMap.getElem?_insert, if_neg (by simpa using fun hne => hx hne.symm)]
    exact hkeep x fun hm => hxs (hsub hm)

/-- The tasks of some siblings leave the forms of the siblings in the table, and change it only below the siblings. -/
theorem Listing.runTasks_enter {form : Handle → Json} {hs xs : List Handle} (h : a.Listing hs xs) (hnd : xs.Nodup)
    (hform : ∀ x ∈ xs, ∀ node, a.node? x = some node → form x = a.nodeForm provider form x node) (depth : Nat)
    (hd : xs.length ≤ depth) (rest : List ExportTask) (done : Finished) :
    ∃ done', a.runTasks provider (hs.map (.enter depth) ++ rest) done = a.runTasks provider rest done' ∧
      (∀ x ∈ hs, done'[x]? = some (form x)) ∧ ∀ x, x ∉ xs → done'[x]? = done[x]? := by
  induction h generalizing depth rest done with
  | nil => exact ⟨done, rfl, fun x hx => absurd hx List.not_mem_nil, fun _ _ => rfl⟩
  | @cons h hs cs xs ys hc below siblings ihb ihr =>
    simp only [List.length_cons, List.length_append] at hd
    obtain ⟨depth, rfl⟩ : ∃ k, depth = k + 1 := ⟨depth - 1, by omega⟩
    obtain ⟨hh, hnds⟩ := List.nodup_cons.mp hnd
    obtain ⟨hndb, hndr, hdisjoint⟩ := List.nodup_append.mp hnds
    obtain ⟨node, hn, hole, rfl⟩ := exists_node?_of_children hc
    -- the children are finished, then the node, then the siblings behind it
    obtain ⟨done₁, hrun₁, hforms₁, hkeep₁⟩ := ihb hndb
      (fun x hx => hform x (List.mem_cons_of_mem _ (List.mem_append_left _ hx))) depth (by omega)
      (.finish h :: (hs.map (.enter (depth + 1)) ++ rest)) done
    obtain ⟨done₂, hrun₂, hown₂, hkeep₂⟩ := finishNode_eq provider hn hole
      (below.sublist.nodup hndb) (fun c hcs => below.mem (below.subset hcs)) hforms₁
    obtain ⟨done₃, hrun₃, hforms₃, hkeep₃⟩ := ihr hndr
      (fun x hx => hform x (List.mem_cons_of_mem _ (List.mem_append_right _ hx))) (depth + 1) (by omega)
      rest done₂
    refine ⟨done₃, ?_, ?_, ?_⟩
    · rw [List.map_cons, List.cons_append, Arena.runTasks_enter, hc]
      show a.runTasks provider (node.payload.handles.map (.enter depth) ++ _) done = _
      rw [hrun₁, runTasks_finish, hrun₂]
      exact hrun₃
    · intro x hx
      rcases List.mem_cons.mp hx with rfl | hx
      · rw [hkeep₃ x fun hy => hh (List.mem_append_right _ hy), hown₂, hform x List.mem_cons_self node hn]
      · exact hforms₃ x hx
    · intro x hx
      rw [List.mem_cons, List.mem_append, not_or, not_or] at hx
      rw [hkeep₃ x hx.2.2, hkeep₂ x hx.1 fun hm => hx.2.1 (below.subset hm), hkeep₁ x hx.2.1]

theorem WellFormed.toExternal_eq (hw : a.WellFormed) {r : Handle} {xs : List Handle} (h : a.Listing [r] xs) :
    a.toExternal provider r = .ok (a.render provider r) := by
  have hform : ∀ x ∈ xs, ∀ node, a.node? x = some node →
      a.render provider x = a.nodeForm provider (a.render provider) x node := by
    intro x hx node hn
    obtain ⟨zs, hz⟩ := h.exists_listing hx
    exact hw.render_eq hz hn
  have hlen := h.length_le hw
  obtain ⟨done, hrun, hforms, -⟩ := h.runTasks_enter (h.nodup hw) hform (a.size + 1) (by omega) [] ∅
  have hr : a.runTasks provider [.enter (a.size + 1) r] ∅ = .ok done := by
    rw [runTasks] at hrun
    exact hrun
  have htake : (Finished.take r).run done = .ok (a.render provider r, done.erase r) := by
    show Finished.take r done = _
    rw [Finished.take, hforms r List.mem_cons_self]
  rw [toExternal, hr]
  simp only [bind, Except.bind, htake]
  rfl

end Arena

/-! ### Reachable arenas -/

namespace Workspace

/-- The export of a subtree is its recursive form: it never fails when the walk does not, and in each object of the form
the children stand with their own recursive forms. -/
theorem toExternal_eq_render {w : Workspace} (reachable : w.Reachable) {i : Nat} {a : Arena} (ha : w.arena? i = some a)
    {n : Handle} {order : List Handle} (horder : a.preOrder n = .ok order) (provider : AnalysisProvider) :
    a.toExternal provider n = .ok (a.render provider n) ∧
      ∀ x ∈ order, ∃ node, a.get x = .ok node ∧
        a.render provider x = a.nodeForm provider (a.render provider) x node := by
  have hw := reachable.wellFormed.arena ha
  have hlisting := Arena.listing_of_preOrder horder
  refine ⟨hw.toExternal_eq hlisting, fun x hx => ?_⟩
  obtain ⟨node, hn⟩ := Arena.mem_iff_node?.mp (hlisting.mem hx)
  obtain ⟨zs, hz⟩ := hlisting.exists_listing hx
  exact ⟨node, Arena.get_eq hn, hw.render_eq hz hn⟩

/-- The block of the run and its statement, with an analysis that answers with the number of the node. -/
theorem toExternal_eq_render_blockRun :
    ∃ a, (({} : Workspace).performAll blockRun).arena? 0 = some a ∧
      a.toExternal { criteria := fun _ h => .array [.integer h.index], dependencies := fun _ _ => .null } ⟨1⟩ =
        .ok (.object
          [("type", .string "BlockStatement"),
            ("body", .array
              [.object
                [("type", .string "EmptyStatement"), ("change", .string "UNKNOWN"), ("moved", .string "false")]]),
            ("criteria", .array [.integer 1]), ("dependencies", .array []), ("change", .string "UNKNOWN"),
            ("change-noprop", .string "UNKNOWN")]) := by
  have hreach : (({} : Workspace).performAll blockRun).Reachable := ⟨blockRun, by decide, rfl⟩
  obtain ⟨a, ha, hlisting⟩ : ∃ a, (({} : Workspace).performAll blockRun).arena? 0 = some a ∧ a.Listing [⟨1⟩] [⟨1⟩, ⟨0⟩] :=
    ⟨_, rfl, .cons rfl (.cons rfl .nil .nil) .nil⟩
  have horder := (hreach.wellFormed.arena ha).preOrder_eq_ok_iff.mpr hlisting
  refine ⟨a, ha, (toExternal_eq_render hreach ha horder _).1.trans ?_⟩
  cases ha
  rfl

end Workspace

end ScriptTree
