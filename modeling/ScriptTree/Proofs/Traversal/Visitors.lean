import ScriptTree.Proofs.Traversal.Holes

/-!
# What a visitor sees

A walk from a node is the visit of the node and, if the visitor wants to go down, the walks from its children in a row
(`walkStep`).  In a well-formed arena walks follow this equation (`WellFormed.walk_eq_walkStep`), and nothing else does
(`WellFormed.eq_walk`): the bound on depth is not reached there.  The reason is one statement about siblings, by
induction on their subtrees (`Subtrees.visitSiblings_eq_walkEach`).

`Visited` says what a walk past some siblings may leave in a record of the nodes and the answers of the visitor, whatever
the visitor decides by.  Induction on it shows that the record is part of the subtrees in their order, that each node
in it is below one whose children were wanted, and how it ends.
-/

namespace ScriptTree

namespace Arena

variable {σ : Type}

/-! ### The recursive definition of a walk -/

/-- The walks `W` from some nodes in a row, up to the first that does not run to its end. -/
def walkEach (W : Handle → σ → Except TreeError Bool × σ) : List Handle → σ → Except TreeError Bool × σ
  | [], s => (.ok true, s)
  | h :: hs, s =>
    match W h s with
    | (.ok true, s) => walkEach W hs s
    | r => r

/-- The visit of a node, and the walks `W` from its children if the visitor wants them. -/
def walkStep (a : Arena) (visit : Visitor σ) (W : Handle → σ → Except TreeError Bool × σ) (h : Handle) (s : σ) :
    Except TreeError Bool × σ :=
  match visit s h with
  | (.halt, s) => (.ok false, s)
  | (.skip, s) => (.ok true, s)
  | (.descend, s) =>
    match a.children h with
    | .error e => (.error e, s)
    | .ok cs => walkEach W cs s

theorem walkEach_singleton (W : Handle → σ → Except TreeError Bool × σ) (h : Handle) (s : σ) :
    walkEach W [h] s = W h s := by
  rw [walkEach]
  split
  · rename_i hW
    rw [walkEach, hW]
  · rfl

section Equation

variable {a : Arena} {visit : Visitor σ} {W : Handle → σ → Except TreeError Bool × σ} {hs xs : List Handle}

/-- The subtrees of siblings are walked as any solution of the equation says. -/
theorem Subtrees.visitSiblings_eq_walkEach (h : a.Subtrees hs xs) (depth : Nat) (hd : xs.length ≤ depth)
    (hW : ∀ x ∈ xs, ∀ s, W x s = a.walkStep visit W x s) (s : σ) :
    a.visitSiblings visit depth hs s = walkEach W hs s := by
  induction h generalizing depth s with
  | nil => simp [visitSiblings, walkEach]
  | @cons h hs xs ys mem below rest ihb ihr =>
    simp only [List.length_cons, List.length_append] at hd
    obtain ⟨depth, rfl⟩ : ∃ k, depth = k + 1 := ⟨depth - 1, by omega⟩
    have hbelow := ihb depth (by omega) fun x hx => hW x (List.mem_cons_of_mem _ (List.mem_append_left _ hx))
    have hrest := ihr (depth + 1) (by omega) fun x hx => hW x (List.mem_cons_of_mem _ (List.mem_append_right _ hx))
    rw [visitSiblings, walkEach, hW h List.mem_cons_self, walkStep]
    rcases visit s h with ⟨_ | _ | _, s'⟩ <;> dsimp only
    · cases hc : a.children h with
      | error e => rfl
      | ok cs =>
        obtain rfl := handlesAt_of_children hc
        simp only [hbelow]
        rcases walkEach W (a.handlesAt h) s' with ⟨_ | _ | _, s''⟩
        · rfl
        · rfl
        · exact hrest s''
    · exact hrest s'

theorem walk_eq_visitSiblings {h : Handle} (hh : h ∈ a) (s : σ) :
    a.walk visit h s = a.visitSiblings visit (a.size + 1) [h] s := by
  obtain ⟨node, hn⟩ := mem_iff_node?.mp hh
  rw [walk_eq_visit, Arena.visit, get_eq hn]

theorem visitSiblings_singleton (depth : Nat) (h : Handle) (s : σ) :
    a.visitSiblings visit (depth + 1) [h] s =
      match visit s h with
      | (.halt, s) => (.ok false, s)
      | (.skip, s) => (.ok true, s)
      | (.descend, s) =>
        match a.children h with
        | .error e => (.error e, s)
        | .ok cs => a.visitSiblings visit depth cs s := by
  rw [visitSiblings]
  rcases visit s h with ⟨_ | _ | _, s'⟩ <;> dsimp only
  · cases a.children h with
    | error e => rfl
    | ok cs =>
      dsimp only
      split
      · rename_i hrun
        rw [visitSiblings, hrun]
      · rfl
  · rw [visitSiblings]

theorem Subtrees.walk_eq_walkStep (hw : a.WellFormed) (h : a.Subtrees hs xs) :
    ∀ x ∈ xs, ∀ s, a.walk visit x s = a.walkStep visit (a.walk visit) x s := by
  induction h with
  | nil => exact fun x hx => absurd hx List.not_mem_nil
  | @cons h hs xs ys mem below _ ihb ihr =>
    intro x hx s
    rcases List.mem_cons.mp hx with rfl | hx
    · have hlen := (Subtrees.single mem below).length_le hw
      rw [List.length_cons] at hlen
      have hbelow := below.visitSiblings_eq_walkEach a.size (by omega) ihb
      rw [walk_eq_visitSiblings mem, visitSiblings_singleton, walkStep, children_eq mem]
      cases a.hole? x <;> simp only [hbelow]
    · exact (List.mem_append.mp hx).elim (fun hx => ihb x hx s) (fun hx => ihr x hx s)

/-- Walks follow the equation of a walk. -/
theorem WellFormed.walk_eq_walkStep (hw : a.WellFormed) {x : Handle} (hx : x ∈ a) (s : σ) :
    a.walk visit x s = a.walkStep visit (a.walk visit) x s := by
  obtain ⟨xs, hxs⟩ := hw.exists_subtree hx
  exact hxs.walk_eq_walkStep hw x (hxs.subset List.mem_cons_self) s

/-- Nothing but walks follows the equation of a walk. -/
theorem WellFormed.eq_walk (hw : a.WellFormed) (hW : ∀ x ∈ a, ∀ s, W x s = a.walkStep visit W x s) {x : Handle}
    (hx : x ∈ a) (s : σ) : W x s = a.walk visit x s := by
  obtain ⟨xs, hxs⟩ := hw.exists_subtree hx
  have hlen := hxs.length_le hw
  rw [walk_eq_visitSiblings hx, hxs.visitSiblings_eq_walkEach (a.size + 1) (by omega) fun y hy => hW y (hxs.mem hy),
    walkEach_singleton]

end Equation

/-! ### The record of a walk -/

/-- The visitor that also keeps a record of the nodes it has seen and of its answers, in this order. -/
def recording (visit : Visitor σ) : Visitor (σ × List (Handle × Signal)) := fun state h =>
  let (signal, s) := visit state.1 h
  (signal, s, state.2 ++ [(h, signal)])

/-- The records that a walk past some siblings may leave, and how it ends with them. -/
inductive Visited (a : Arena) : List Handle → List (Handle × Signal) → Except TreeError Bool → Prop
  | done : Visited a [] [] (.ok true)
  | halt {h : Handle} {hs : List Handle} : Visited a (h :: hs) [(h, .halt)] (.ok false)
  | skip {h : Handle} {hs : List Handle} {seen : List (Handle × Signal)} {r : Except TreeError Bool}
      (rest : Visited a hs seen r) : Visited a (h :: hs) ((h, .skip) :: seen) r
  | hole {h : Handle} {hs : List Handle} {e : TreeError} (children : a.children h = .error e) :
      Visited a (h :: hs) [(h, .descend)] (.error e)
  | descend {h : Handle} {hs : List Handle} {below seen : List (Handle × Signal)} {r : Except TreeError Bool}
      (children : a.children h = .ok (a.handlesAt h)) (inner : Visited a (a.handlesAt h) below (.ok true))
      (rest : Visited a hs seen r) : Visited a (h :: hs) ((h, .descend) :: (below ++ seen)) r
  | stop {h : Handle} {hs : List Handle} {below : List (Handle × Signal)} {r : Except TreeError Bool}
      (children : a.children h = .ok (a.handlesAt h)) (inner : Visited a (a.handlesAt h) below r) (ended : r ≠ .ok true) :
      Visited a (h :: hs) ((h, .descend) :: below) r

/-- A visit after which the walk goes on: the children of the node are left out, or there is no hole among them. -/
def GoesOn (a : Arena) : Handle × Signal → Prop
  | (_, .skip) => True
  | (h, .descend) => ∃ cs, a.children h = .ok cs
  | (_, .halt) => False

/-- How a walk ends with a record: after a visit that lets it go on like all before, with a halt, or with a node that has
a hole and whose children were wanted. -/
inductive Ends (a : Arena) : List (Handle × Signal) → Except TreeError Bool → Prop
  | finished {seen : List (Handle × Signal)} (before : ∀ v ∈ seen, a.GoesOn v) : Ends a seen (.ok true)
  | halted {seen : List (Handle × Signal)} {h : Handle} (before : ∀ v ∈ seen, a.GoesOn v) :
      Ends a (seen ++ [(h, .halt)]) (.ok false)
  | failed {seen : List (Handle × Signal)} {h : Handle} {e : TreeError} (before : ∀ v ∈ seen, a.GoesOn v)
      (children : a.children h = .error e) : Ends a (seen ++ [(h, .descend)]) (.error e)

theorem Ends.append {a : Arena} {before seen : List (Handle × Signal)} {r : Except TreeError Bool}
    (hbefore : ∀ v ∈ before, a.GoesOn v) (h : a.Ends seen r) : a.Ends (before ++ seen) r := by
  cases h with
  | finished hseen => exact .finished fun v hv => (List.mem_append.mp hv).elim (hbefore v) (hseen v)
  | halted hseen =>
    rw [← List.append_assoc]
    exact .halted fun v hv => (List.mem_append.mp hv).elim (hbefore v) (hseen v)
  | failed hseen hole =>
    rw [← List.append_assoc]
    exact .failed (fun v hv => (List.mem_append.mp hv).elim (hbefore v) (hseen v)) hole

section Record

variable {a : Arena} {hs xs : List Handle} {seen : List (Handle × Signal)} {r : Except TreeError Bool}

/-- A walk that is recorded is the walk without the record, and leaves a record. -/
theorem Subtrees.exists_visited (visit : Visitor σ) (h : a.Subtrees hs xs) (depth : Nat) (hd : xs.length ≤ depth) (s : σ)
    (before : List (Handle × Signal)) :
    ∃ r s' seen, a.visitSiblings visit depth hs s = (r, s') ∧
      a.visitSiblings (recording visit) depth hs (s, before) = (r, s', before ++ seen) ∧ a.Visited hs seen r := by
  induction h generalizing depth s before with
  | nil => exact ⟨.ok true, s, [], by simp [visitSiblings], by simp [visitSiblings], .done⟩
  | @cons h hs xs ys mem below rest ihb ihr =>
    simp only [List.length_cons, List.length_append] at hd
    obtain ⟨depth, rfl⟩ : ∃ k, depth = k + 1 := ⟨depth - 1, by omega⟩
    simp only [visitSiblings, recording]
    rcases visit s h with ⟨_ | _ | _, s₁⟩ <;> dsimp only
    · cases hc : a.children h with
      | error e => exact ⟨_, _, _, rfl, rfl, .hole hc⟩
      | ok cs =>
        obtain rfl := handlesAt_of_children hc
        obtain ⟨r, s₂, below, hrun, hrecord, hbelow⟩ := ihb depth (by omega) s₁ (before ++ [(h, .descend)])
        simp only [hrun, hrecord]
        rcases r with e | _ | _
        · exact ⟨_, s₂, _, rfl, by rw [List.append_assoc]; rfl, .stop hc hbelow (by simp)⟩
        · exact ⟨_, s₂, _, rfl, by rw [List.append_assoc]; rfl, .stop hc hbelow (by simp)⟩
        · obtain ⟨r, s₃, seen, hrun', hrecord', hseen⟩ :=
            ihr (depth + 1) (by omega) s₂ (before ++ [(h, .descend)] ++ below)
          refine ⟨r, s₃, _, hrun', ?_, .descend hc hbelow hseen⟩
          simpa only [List.append_assoc, List.cons_append, List.nil_append] using hrecord'
    · obtain ⟨r, s', seen, hrun, hrecord, hseen⟩ := ihr (depth + 1) (by omega) s₁ (before ++ [(h, .skip)])
      refine ⟨r, s', _, hrun, ?_, .skip hseen⟩
      rw [List.append_assoc] at hrecord
      exact hrecord
    · exact ⟨_, _, _, rfl, rfl, .halt⟩

theorem Visited.ends (h : a.Visited hs seen r) : a.Ends seen r := by
  induction h with
  | done => exact .finished fun v hv => absurd hv List.not_mem_nil
  | @halt h =>
    have hends : a.Ends ([] ++ [(h, .halt)]) (.ok false) := .halted fun v hv => absurd hv List.not_mem_nil
    exact hends
  | @skip h _ _ _ _ ih =>
    have hon : ∀ v ∈ [(h, Signal.skip)], a.GoesOn v := by simp [GoesOn]
    exact ih.append hon
  | @hole h _ e hc =>
    have hends : a.Ends ([] ++ [(h, .descend)]) (.error e) := .failed (fun v hv => absurd hv List.not_mem_nil) hc
    exact hends
  | @descend h _ below _ _ hc _ _ ihb ihr =>
    have hon : ∀ v ∈ (h, Signal.descend) :: below, a.GoesOn v := by
      cases ihb with
      | finished hbelow => exact List.forall_mem_cons.mpr ⟨⟨_, hc⟩, hbelow⟩
    exact ihr.append hon
  | @stop h _ _ _ hc _ _ ih =>
    have hon : ∀ v ∈ [(h, Signal.descend)], a.GoesOn v := by simp [GoesOn, hc]
    exact ih.append hon

/-- The nodes of a record stand in the order of the subtrees. -/
theorem Visited.sublist (h : a.Visited hs seen r) (hsub : a.Subtrees hs xs) : (seen.map Prod.fst).Sublist xs := by
  induction h generalizing xs with
  | done => exact List.nil_sublist _
  | halt | hole =>
    cases hsub
    exact (List.nil_sublist _).cons_cons _
  | skip _ ih =>
    cases hsub with
    | cons _ _ rest => exact ((ih rest).trans (List.sublist_append_right _ _)).cons_cons _
  | descend _ _ _ ihb ihr =>
    cases hsub with
    | cons _ below rest =>
      rw [List.map_cons, List.map_append]
      exact ((ihb below).append (ihr rest)).cons_cons _
  | stop _ _ _ ih =>
    cases hsub with
    | cons _ below _ => exact ((ih below).trans (List.sublist_append_left _ _)).cons_cons _

/-- A node is seen as one of the siblings, or since the children of its parent were wanted. -/
theorem Visited.mem_or_exists_parent (h : a.Visited hs seen r) {x : Handle} (hx : x ∈ seen.map Prod.fst) :
    x ∈ hs ∨ ∃ p, (p, .descend) ∈ seen ∧ x ∈ a.handlesAt p := by
  induction h with
  | done => cases hx
  | halt | hole => exact .inl (List.mem_cons.mpr (.inl (List.mem_singleton.mp hx)))
  | skip _ ih =>
    rcases List.mem_cons.mp hx with rfl | hx
    · exact .inl List.mem_cons_self
    · rcases ih hx with hx | ⟨p, hp, hx⟩
      · exact .inl (List.mem_cons_of_mem _ hx)
      · exact .inr ⟨p, List.mem_cons_of_mem _ hp, hx⟩
  | @descend h _ below seen _ _ _ _ ihb ihr =>
    rw [List.map_cons, List.map_append] at hx
    rcases List.mem_cons.mp hx with rfl | hx
    · exact .inl List.mem_cons_self
    rcases List.mem_append.mp hx with hx | hx
    · rcases ihb hx with hx | ⟨p, hp, hx⟩
      · exact .inr ⟨h, List.mem_cons_self, hx⟩
      · exact .inr ⟨p, List.mem_cons_of_mem _ (List.mem_append_left _ hp), hx⟩
    · rcases ihr hx with hx | ⟨p, hp, hx⟩
      · exact .inl (List.mem_cons_of_mem _ hx)
      · exact .inr ⟨p, List.mem_cons_of_mem _ (List.mem_append_right _ hp), hx⟩
  | @stop h _ _ _ _ _ _ ih =>
    rcases List.mem_cons.mp hx with rfl | hx
    · exact .inl List.mem_cons_self
    · rcases ih hx with hx | ⟨p, hp, hx⟩
      · exact .inr ⟨h, List.mem_cons_self, hx⟩
      · exact .inr ⟨p, List.mem_cons_of_mem _ hp, hx⟩

section WellFormed

variable (hw : a.WellFormed)

include hw

/-- Of every node that is seen above another one the children were wanted. -/
theorem Visited.descend_of_mem {root x y : Handle} {path : List Handle} (h : a.Visited [root] seen r)
    (hsub : a.Subtrees [root] xs) (hx : x ∈ seen.map Prod.fst) (hy : y ∈ seen.map Prod.fst) (hp : a.Ascent y path)
    (hxp : x ∈ path) (hxy : x ≠ y) : (x, .descend) ∈ seen := by
  induction hp with
  | root => exact absurd (List.mem_singleton.mp hxp) hxy
  | @step y p path link rest ih =>
    have hxp : x ∈ path := (List.mem_cons.mp hxp).resolve_left hxy
    rcases h.mem_or_exists_parent hy with hy | ⟨q, hq, hyq⟩
    · -- above the root nothing is seen
      obtain rfl := List.mem_singleton.mp hy
      obtain ⟨pathx, hpx, hsuffix⟩ := rest.suffix hxp
      have hroot := (hsub.mem_iff hw hpx).mp ((h.sublist hsub).subset hx)
      exact absurd (hsuffix.subset hroot) (rest.not_mem_of_parent? link)
    · obtain rfl : p = q := Option.some.inj (link.symm.trans (hw.mem_handlesAt_iff.mp hyq))
      by_cases hxq : x = p
      · exact hxq ▸ hq
      · exact ih (List.mem_map_of_mem hq) hxp hxq

theorem Visited.nodup {root : Handle} (h : a.Visited [root] seen r) (hsub : a.Subtrees [root] xs) :
    (seen.map Prod.fst).Nodup :=
  (h.sublist hsub).nodup (hsub.nodup hw)

/-- Nothing below a node is seen whose children were left out. -/
theorem Visited.not_mem_of_skip {root x y : Handle} (h : a.Visited [root] seen r) (hsub : a.Subtrees [root] xs)
    (hx : (x, .skip) ∈ seen) (hxy : a.isAncestor x y = .ok true) (hne : y ≠ x) : y ∉ seen.map Prod.fst := by
  intro hy
  obtain ⟨path, hp⟩ := hw.rooted y (hsub.mem ((h.sublist hsub).subset hy))
  have hxp : x ∈ path := by simpa [hp.isAncestor_eq] using hxy
  have hdescend := h.descend_of_mem hw hsub (List.mem_map_of_mem hx) hy hp hxp (Ne.symm hne)
  have hsame := List.inj_on_of_nodup_map (h.nodup hw hsub) hx hdescend rfl
  simp at hsame

/-- A walk and its record. -/
theorem WellFormed.walk_recording (visit : Visitor σ) {root : Handle} (hroot : root ∈ a) (s : σ) :
    ∃ r s' seen, a.walk visit root s = (r, s') ∧ a.walk (recording visit) root (s, []) = (r, s', seen) ∧
      a.Visited [root] seen r := by
  obtain ⟨xs, hxs⟩ := hw.exists_subtree hroot
  have hlen := hxs.length_le hw
  rw [walk_eq_visitSiblings hroot, walk_eq_visitSiblings hroot]
  exact hxs.exists_visited visit (a.size + 1) (by omega) s []

end WellFormed

end Record

end Arena

/-! ### Reachable arenas -/

namespace Workspace

/-- A walk does what the equation says, and nothing else does, whatever the visitor keeps and decides by.  It sees no
node twice and nothing below a node whose children were left out; and the only hole that it fails for is in the last node
that it has seen, if the children of that node were wanted. -/
theorem walk_visits {w : Workspace} (reachable : w.Reachable) {i : Nat} {a : Arena} (ha : w.arena? i = some a) {σ : Type}
    (visit : σ → Arena → Handle → Signal × σ) :
    (∀ x ∈ a, ∀ s, a.walk (visit · a) x s = a.walkStep (visit · a) (a.walk (visit · a)) x s) ∧
    (∀ W : Handle → σ → Except TreeError Bool × σ, (∀ x ∈ a, ∀ s, W x s = a.walkStep (visit · a) W x s) →
      ∀ x ∈ a, ∀ s, W x s = a.walk (visit · a) x s) ∧
    ∀ root ∈ a, ∀ s, ∃ r s' seen, a.walk (visit · a) root s = (r, s') ∧
      a.walk (Arena.recording (visit · a)) root (s, []) = (r, s', seen) ∧ (seen.map Prod.fst).Nodup ∧
        (∀ x y, (x, .skip) ∈ seen → a.isAncestor x y = .ok true → y ≠ x → y ∉ seen.map Prod.fst) ∧ a.Ends seen r := by
  have hw := reachable.wellFormed.arena ha
  refine ⟨fun x hx s => hw.walk_eq_walkStep hx s, fun W hW x hx s => hw.eq_walk hW hx s, fun root hroot s => ?_⟩
  obtain ⟨r, s', seen, hrun, hrecord, hvisited⟩ := hw.walk_recording (visit · a) hroot s
  obtain ⟨xs, hxs⟩ := hw.exists_subtree hroot
  exact ⟨r, s', seen, hrun, hrecord, hvisited.nodup hw hxs,
    fun x y hx hxy hne => hvisited.not_mem_of_skip hw hxs hx hxy hne, hvisited.ends⟩

/-- A visitor that counts what it sees, leaves out what is below the statement with the hole, and ends at the loop. -/
def holeRunVisitor : Nat → Arena → Handle → Signal × Nat := fun n _ h =>
  (if h = ⟨1⟩ then .skip else if h = ⟨2⟩ then .halt else .descend, n + 1)

theorem walk_visits_holeRun :
    ∃ a, (({} : Workspace).performAll holeRun).arena? 0 = some a ∧
      a.children ⟨1⟩ = .error (.malformed .expressionStatement ⟨1⟩ .expression) ∧
        a.walk (holeRunVisitor · a) ⟨3⟩ 0 = (.ok false, 3) := by
  have hreach : (({} : Workspace).performAll holeRun).Reachable := ⟨holeRun, by decide, rfl⟩
  obtain ⟨a, ha, hmem, hhole, hc⟩ : ∃ a, (({} : Workspace).performAll holeRun).arena? 0 = some a ∧ (∀ k < 4, ⟨k⟩ ∈ a) ∧
      a.children ⟨1⟩ = .error (.malformed .expressionStatement ⟨1⟩ .expression) ∧ a.children ⟨3⟩ = .ok [⟨1⟩, ⟨2⟩] :=
    ⟨_, rfl, fun _ hk => hk, rfl, rfl⟩
  obtain ⟨hstep, -⟩ := walk_visits hreach ha holeRunVisitor
  have hskip : a.walk (holeRunVisitor · a) ⟨1⟩ 1 = (.ok true, 2) := hstep ⟨1⟩ (hmem 1 (by decide)) 1
  have hhalt : a.walk (holeRunVisitor · a) ⟨2⟩ 2 = (.ok false, 3) := hstep ⟨2⟩ (hmem 2 (by decide)) 2
  have hvisit : holeRunVisitor 0 a ⟨3⟩ = (.descend, 1) := rfl
  refine ⟨a, ha, hhole, (hstep ⟨3⟩ (hmem 3 (by decide)) 0).trans ?_⟩
  simp only [Arena.walkStep, hvisit, hc, Arena.walkEach, hskip, hhalt]

end Workspace

end ScriptTree
