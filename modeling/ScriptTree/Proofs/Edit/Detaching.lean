import ScriptTree.Proofs.Edit.Places
import ScriptTree.Proofs.Edit.Relisting

/-!
# Detaching several nodes

Detaching nodes one after the other comes to the same in whatever order it is done (`detach_order_independent`).  A node
may be detached before or after a node above it: its place in the source is counted through other links then, but it is
the same place.  So the arena that is left can be read off the one at the start, from the set of the detached nodes
alone (`WellFormed.node?_severedEach`), and a node is found where it stood at the start as long as it was not detached
itself (`WellFormed.standing?_severed`).
-/

namespace ScriptTree

namespace Payload

/-- The payload without some children, wherever they stand. -/
def withoutEach (p : Payload) (cs : List Handle) : Payload :=
  p.overwrite (fun _ d => d.filter (· ∉ cs)) fun _ ds => ds.filter (· ∉ cs)

section WithoutEach

variable {p : Payload} {cs : List Handle}

theorem withoutEach_of_not_mem (h : ∀ c ∈ cs, c ∉ p.handles) : p.withoutEach cs = p := by
  refine Eq.trans ?_ p.overwrite_self
  refine overwrite_congr (fun s d hd => ?_) fun s ds hds => ?_
  · cases d with
    | none => rfl
    | some q =>
      have hq : q ∉ cs := fun hq => h q hq (mem_handles_of_single? hd)
      simp [Option.filter, hq]
  · refine List.filter_eq_self.mpr fun q hq => ?_
    have hqcs : q ∉ cs := fun hqcs => h q hqcs (mem_handles_of_list? hds hq)
    simpa using hqcs

theorem withoutEach_congr {cs' : List Handle} (h : ∀ c, c ∈ cs ↔ c ∈ cs') : p.withoutEach cs = p.withoutEach cs' := by
  simp only [withoutEach, h]

theorem withoutEach_withoutEach (c : Handle) : (p.withoutEach [c]).withoutEach cs = p.withoutEach (c :: cs) := by
  rw [withoutEach, withoutEach, overwrite_overwrite]
  refine overwrite_congr (fun s d _ => ?_) fun s ds _ => ?_
  · cases d with
    | none => rfl
    | some q => by_cases hq : q = c <;> simp [Option.filter, hq]
  · rw [List.filter_filter]
    refine List.filter_congr fun q _ => ?_
    by_cases hq : q = c <;> simp [hq]

/-- A child that occurs once is taken out of the one slot that holds it. -/
theorem without_eq_withoutEach (hnd : p.handles.Nodup) (c : Handle) : p.without c = p.withoutEach [c] := by
  have hcount := List.nodup_iff_count_le_one.mp hnd c
  refine (ext_slots ?_ (fun s d hd => ?_) fun s ds hds => ?_).symm
  · rw [withoutEach, emptied_overwrite, emptied_without]
  · rw [withoutEach, single?_overwrite] at hd
    obtain ⟨e, he, rfl⟩ := Option.map_eq_some_iff.mp hd
    cases e with
    | none => exact single?_without he (by simp)
    | some q =>
      by_cases hq : q = c
      · subst hq
        rw [single?_without_self he hcount]
        simp [Option.filter]
      · rw [single?_without he (by simpa using hq)]
        simp [Option.filter, hq]
  · rw [withoutEach, list?_overwrite] at hds
    obtain ⟨es, hes, rfl⟩ := Option.map_eq_some_iff.mp hds
    rw [list?_without hes hcount, (hnd.sublist (sublist_handles_of_list? hes)).erase_eq_filter, Option.some.injEq]
    refine List.filter_congr fun q _ => ?_
    by_cases hq : q = c <;> simp [hq]

end WithoutEach

end Payload

namespace Arena

/-- What detaching a node answers. -/
def detachAnswer (a : Arena) (h : Handle) : Except TreeError (Option (Handle × Slot)) :=
  if h ∈ a then .ok (a.standing? h) else .error (.unknownNode h)

section Severed

variable {a : Arena} (hw : a.WellFormed)

include hw

/-! ### What is left -/

theorem WellFormed.node?_severed_eq (c x : Handle) :
    (a.severed c).node? x = (a.node? x).map fun node =>
      (if x = c then node.rehome none (a.place c) else node).mapPayload (·.withoutEach [c]) := by
  by_cases hx : x ∈ a
  · obtain ⟨node, hn⟩ := mem_iff_node?.mp hx
    have hhandles : a.parent? c ≠ some x → ∀ q ∈ [c], q ∉ node.payload.handles := by
      intro hp q hq hmem
      rw [List.mem_singleton.mp hq, ← handlesAt_eq hn] at hmem
      exact hp (hw.mem_handlesAt_iff.mp hmem)
    by_cases hxc : x = c
    · subst hxc
      have hself : a.parent? x ≠ some x := fun hp => hw.rooted.ne_of_parent? hp rfl
      have hkeep := Payload.withoutEach_of_not_mem (hhandles hself)
      cases hp : a.parent? x with
      | none =>
        have hparent : node.parent = none := (parent?_eq hn).symm.trans hp
        have hplace : a.place x = node.span.position := by simp [place_of_root hx hp, offset, hn]
        rw [severed_of_root hp, hn, Option.map_some, Option.some.injEq, if_pos rfl]
        simp [Node.mapPayload, Node.rehome, hkeep, hplace, ← hparent]
      | some p =>
        rw [node?_severed_self hp (hw.rooted.ne_of_parent? hp), hn, Option.map_some, Option.map_some, if_pos rfl]
        simp [Node.mapPayload, Node.rehome, hkeep]
    · rw [node?_severed hxc, hn, Option.map_some, Option.map_some, if_neg hxc]
      split
      · have hnd := hw.nodup_handlesAt x
        rw [handlesAt_eq hn] at hnd
        simp [Node.mapPayload, Payload.without_eq_withoutEach hnd]
      · rename_i hp
        simp [Node.mapPayload, Payload.withoutEach_of_not_mem (hhandles hp)]
  · rw [node?_eq_none hx, node?_eq_none (mt mem_severed.mp hx), Option.map_none]

/-- The detached nodes are roots at the places where they stood, and no node has one of them as a child. -/
theorem WellFormed.node?_severedEach (hs : List Handle) (x : Handle) :
    (a.severedEach hs).node? x = (a.node? x).map fun node =>
      (if x ∈ hs then node.rehome none (a.place x) else node).mapPayload (·.withoutEach hs) := by
  induction hs generalizing a with
  | nil => simp [Arena.severedEach, Node.mapPayload, Payload.withoutEach_of_not_mem]
  | cons c hs ih =>
    rw [Arena.severedEach, List.foldl_cons, ← Arena.severedEach, ih (hw.severed c), hw.node?_severed_eq, Option.map_map]
    refine Option.map_congr fun node hn => ?_
    -- the second cut finds the node where the first one left it
    have htext : SameText (fun _ => False) (fun _ => False) a (a.severed c) := sameText_severed hw.rooted c
    have hplace := htext.place_eq x (mem_of_node? hn) not_false
    rw [Function.comp_apply, hplace]
    by_cases hxc : x = c <;> by_cases hxs : x ∈ hs <;>
      simp [hxc, hxs, Node.mapPayload, Node.rehome, Payload.withoutEach_withoutEach]

/-- What is left depends on which nodes are detached only. -/
theorem WellFormed.severedEach_congr {hs hs' : List Handle} (h : ∀ c, c ∈ hs ↔ c ∈ hs') :
    a.severedEach hs = a.severedEach hs' := by
  refine ext_node? (by rw [ids_severedEach, ids_severedEach]) fun x => ?_
  simp only [hw.node?_severedEach, h x, Payload.withoutEach_congr h]

/-! ### Where the others stand -/

/-- Detaching a node leaves every other one in its slot. -/
theorem WellFormed.standing?_severed {c h : Handle} (hne : h ≠ c) : (a.severed c).standing? h = a.standing? h := by
  cases hp : a.parent? h with
  | none => rw [standing?, standing?, parent?_severed, if_neg hne, hp, Option.bind_none, Option.bind_none]
  | some p =>
    rcases hw.exists_slot hp with ⟨s, hs⟩ | ⟨s, cs, hs, hmem⟩
    · have hs' := hs.severed_eq hw c
      rw [if_neg (by simpa using hne)] at hs'
      rw [hs.standing?_eq hw, hs'.standing?_eq (hw.severed c)]
    · have hmem' : h ∈ cs.erase c := (List.mem_erase_of_ne hne).mpr hmem
      rw [hs.standing?_eq hw hmem, (hs.severed_eq hw c).standing?_eq (hw.severed c) hmem']

theorem WellFormed.detachAnswer_severed {c h : Handle} (hne : h ≠ c) :
    (a.severed c).detachAnswer h = a.detachAnswer h := by
  simp only [detachAnswer, mem_severed, hw.standing?_severed hne]

end Severed

end Arena

namespace Workspace

open Arena

/-- Detaches some nodes of arena `i` one after the other, also after a call that fails, and keeps what every call
answers. -/
def detachEach? (w : Workspace) (i : Nat) :
    List Handle → Option (List (Handle × Except TreeError (Option (Handle × Slot))) × Workspace)
  | [] => some ([], w)
  | h :: rest => do
    let (answer, w) ← w.edit? i (Edit.detach h)
    let (answers, w) ← w.detachEach? i rest
    return ((h, answer) :: answers, w)

section Detaching

variable {w : Workspace} {i : Nat} {a : Arena}

/-- A handle without a node is refused, and severing it changes nothing. -/
theorem edit?_detach (hi : w.arena? i = some a) (hw : a.WellFormed) (h : Handle) :
    w.edit? i (Edit.detach h) = some (a.detachAnswer h, w.put i (a.severed h)) := by
  by_cases hh : h ∈ a
  · rw [edit?_of_ok hi (Edit.run_detach hw hh), detachAnswer, if_pos hh]
  · have hroot : a.parent? h = none := by rw [parent?, node?_eq_none hh, Option.bind_none]
    rw [edit?_of_error hi (Edit.run_detach_error hh), detachAnswer, if_neg hh, severed_of_root hroot]

/-- The first call for a node answers as if no other one had come before it. -/
theorem exists_detachEach? (hi : w.arena? i = some a) (hw : a.WellFormed) (hs : List Handle) :
    ∃ answers, w.detachEach? i hs = some (answers, w.put i (a.severedEach hs)) ∧
      ∀ h, answers.lookup h = if h ∈ hs then some (a.detachAnswer h) else none := by
  induction hs generalizing w a with
  | nil => exact ⟨[], by rw [severedEach, List.foldl_nil, put_self hi]; rfl, fun h => rfl⟩
  | cons c hs ih =>
    obtain ⟨answers, hrest, hlookup⟩ := ih (arena?_put_self hi (a.severed c)) (hw.severed c)
    refine ⟨(c, a.detachAnswer c) :: answers, ?_, fun h => ?_⟩
    · rw [put_put] at hrest
      simp [detachEach?, edit?_detach hi hw, hrest, severedEach]
    · by_cases hc : h = c
      · subst hc
        simp
      · rw [List.lookup_cons, beq_false_of_ne hc, hlookup, hw.detachAnswer_severed hc]
        simp [hc]

/-- Detaching is independent of the order: every order of the calls leaves the same behind, and the first call for a
node answers the same in all of them, which is what it would answer if it was the only one. -/
theorem detach_order_independent (reachable : w.Reachable) (hi : w.arena? i = some a) {hs hs' : List Handle}
    (perm : hs'.Perm hs) :
    ∃ answers answers' w', w.detachEach? i hs = some (answers, w') ∧ w.detachEach? i hs' = some (answers', w') ∧
      ∀ h ∈ hs, ∃ answer, answers.lookup h = some answer ∧ answers'.lookup h = some answer ∧
        (w.edit? i (Edit.detach h)).map Prod.fst = some answer ∧ (h ∈ a → ∃ standing, answer = .ok standing) := by
  have hw := reachable.wellFormed.arena hi
  obtain ⟨answers, hrun, hlookup⟩ := exists_detachEach? hi hw hs
  obtain ⟨answers', hrun', hlookup'⟩ := exists_detachEach? hi hw hs'
  rw [hw.severedEach_congr fun _ => perm.mem_iff] at hrun'
  refine ⟨answers, answers', _, hrun, hrun', fun h hh => ⟨a.detachAnswer h, ?_, ?_, ?_, fun hmem => ?_⟩⟩
  · rw [hlookup, if_pos hh]
  · rw [hlookup', if_pos (perm.mem_iff.mpr hh)]
  · rw [edit?_detach hi hw, Option.map_some]
  · exact ⟨a.standing? h, if_pos hmem⟩

/-- A block with two entries: a statement that returns a name, and another name. -/
def returnBlockRun : List Action :=
  [.addArena {}, .command 0 (.alloc (.name "x") { position := 24, length := 1 }),
    .command 0 (.alloc (.returnStatement (some ⟨0⟩)) { position := 17, length := 8 }),
    .command 0 (.alloc (.name "y") { position := 26, length := 1 }),
    .command 0 (.alloc (.block [⟨1⟩, ⟨2⟩]) { position := 10, length := 20 })]

/-- The name and the statement that returns it come out in either order, before and after the other entry. -/
theorem detach_order_independent_returnBlockRun :
    ∃ answers answers' w' b,
      (({} : Workspace).performAll returnBlockRun).detachEach? 0 [⟨1⟩, ⟨0⟩, ⟨2⟩] = some (answers, w') ∧
      (({} : Workspace).performAll returnBlockRun).detachEach? 0 [⟨2⟩, ⟨0⟩, ⟨1⟩] = some (answers', w') ∧
      answers.lookup ⟨0⟩ = some (.ok (some (⟨1⟩, .value))) ∧ answers'.lookup ⟨0⟩ = some (.ok (some (⟨1⟩, .value))) ∧
      w'.arena? 0 = some b ∧ b.parent ⟨0⟩ = .ok none ∧ b.absolutePosition ⟨0⟩ = .ok 24 ∧
      b.childList ⟨3⟩ .statements = .ok [] := by
  have hreach : (({} : Workspace).performAll returnBlockRun).Reachable := ⟨returnBlockRun, by decide, rfl⟩
  obtain ⟨a, u, w₀, b, harena, hdetach, hfirst, hb, hparent, hposition, hlist⟩ :
      ∃ a u w₀ b, (({} : Workspace).performAll returnBlockRun).arena? 0 = some a ∧
        (({} : Workspace).performAll returnBlockRun).edit? 0 (Edit.detach ⟨0⟩) =
          some (.ok (some (⟨1⟩, .value)), u) ∧
        (({} : Workspace).performAll returnBlockRun).detachEach? 0 [⟨1⟩, ⟨0⟩, ⟨2⟩] = some w₀ ∧
        w₀.2.arena? 0 = some b ∧ b.parent ⟨0⟩ = .ok none ∧ b.absolutePosition ⟨0⟩ = .ok 24 ∧
        b.childList ⟨3⟩ .statements = .ok [] :=
    ⟨_, _, _, _, rfl, rfl, rfl, rfl, rfl, rfl, rfl⟩
  obtain ⟨answers, answers', w', hrun, hrun', hanswer⟩ :=
    detach_order_independent hreach harena (show [⟨2⟩, ⟨0⟩, ⟨1⟩].Perm [⟨1⟩, ⟨0⟩, ⟨2⟩] by decide)
  obtain ⟨answer, hlookup, hlookup', honly, -⟩ := hanswer ⟨0⟩ (by decide)
  rw [hdetach, Option.map_some, Option.some.injEq] at honly
  rw [hrun, Option.some.injEq] at hfirst
  subst hfirst honly
  exact ⟨answers, answers', w', b, hrun, hrun', hlookup, hlookup', hb, hparent, hposition, hlist⟩

end Detaching

end Workspace

end ScriptTree
