import ScriptTree.Proofs.Command
import ScriptTree.Workspace.Action

/-!
# Runs on a workspace

Every arena that checked actions lead to is well formed, after each of the actions and whether it failed or not
(`wellFormed_of_run`).  Hence no step of a later edit can fail once its checks have passed, and a call that fails has
changed nothing (`unchanged_of_failure`).
-/

namespace ScriptTree

namespace Workspace

/-! ### Reading and writing arenas -/

private theorem setIfInBounds_self {α : Type} {xs : Array α} {i : Nat} {x : α} (h : xs[i]? = some x) :
    xs.setIfInBounds i x = xs := by
  obtain ⟨hi, rfl⟩ := Array.getElem?_eq_some_iff.mp h
  rw [Array.setIfInBounds, dif_pos hi, Array.set_getElem_self]

section Arenas

variable {w : Workspace} {i : Nat} {a : Arena}

theorem arena?_eq_some_iff : w.arena? i = some a ↔
    ∃ shelf, w.shelves[i]? = some shelf ∧ shelf.nodes = a.nodes ∧ w.generators[shelf.generator]? = some a.ids := by
  obtain ⟨nodes, ids⟩ := a
  simp only [arena?, Option.bind_eq_bind, Option.bind_eq_some_iff, Option.pure_def, Option.some.injEq, Arena.mk.injEq]
  constructor
  · rintro ⟨shelf, hs, ids', hg, hnodes, rfl⟩
    exact ⟨shelf, hs, hnodes, hg⟩
  · rintro ⟨shelf, hs, hnodes, hg⟩
    exact ⟨shelf, hs, ids, hg, hnodes, rfl⟩

/-- Putting an arena back with the same nodes changes its generator at most. -/
theorem put_of_nodes_eq (h : w.arena? i = some a) {b : Arena} (hb : b.nodes = a.nodes) {shelf : Shelf}
    (hs : w.shelves[i]? = some shelf) :
    w.put i b = { w with generators := w.generators.setIfInBounds shelf.generator b.ids } := by
  obtain ⟨shelf', hs', hnodes, -⟩ := arena?_eq_some_iff.mp h
  obtain rfl : shelf = shelf' := Option.some.inj (hs.symm.trans hs')
  have hshelf : ({ shelf with nodes := b.nodes } : Shelf) = shelf := by rw [hb, ← hnodes]
  simp only [put, hs, hshelf, setIfInBounds_self hs]

theorem put_self (h : w.arena? i = some a) : w.put i a = w := by
  obtain ⟨shelf, hs, -, hg⟩ := arena?_eq_some_iff.mp h
  rw [put_of_nodes_eq h rfl hs, setIfInBounds_self hg]

@[simp] theorem put_put (w : Workspace) (i : Nat) (a b : Arena) : (w.put i a).put i b = w.put i b := by
  cases hs : w.shelves[i]? with
  | none => simp only [put, hs]
  | some shelf =>
    have hlt := (Array.getElem?_eq_some_iff.mp hs).1
    simp [put, hlt]

theorem arena?_put_self (h : w.arena? i = some a) (b : Arena) : (w.put i b).arena? i = some b := by
  obtain ⟨shelf, hs, -, hg⟩ := arena?_eq_some_iff.mp h
  refine arena?_eq_some_iff.mpr ⟨{ shelf with nodes := b.nodes }, ?_, rfl, ?_⟩
  · simp only [put, hs, Array.getElem?_setIfInBounds_self_of_lt (Array.getElem?_eq_some_iff.mp hs).1]
  · simp only [put, hs, Array.getElem?_setIfInBounds_self_of_lt (Array.getElem?_eq_some_iff.mp hg).1]

/-- Putting an arena back with the same generator changes no other arena. -/
theorem put_of_ids_eq (h : w.arena? i = some a) {b : Arena} (hb : b.ids = a.ids) :
    (w.put i b).generators = w.generators ∧ (w.put i b).arena? i = some b ∧
      ∀ k, k ≠ i → (w.put i b).arena? k = w.arena? k := by
  obtain ⟨shelf, hs, -, hg⟩ := arena?_eq_some_iff.mp h
  have hgen : (w.put i b).generators = w.generators := by
    simp only [put, hs, hb]
    exact setIfInBounds_self hg
  refine ⟨hgen, arena?_put_self h b, fun k hk => ?_⟩
  have hshelf : (w.put i b).shelves[k]? = w.shelves[k]? := by
    simp only [put, hs, Array.getElem?_setIfInBounds_ne (Ne.symm hk)]
  simp only [arena?, hshelf, hgen]

/-- Putting an arena back changes the nodes of no other one. -/
theorem exists_arena?_put {k : Nat} (hk : w.arena? k = some a) (i : Nat) (b : Arena) :
    ∃ b', (w.put i b).arena? k = some b' ∧ b'.nodes = if k = i then b.nodes else a.nodes := by
  obtain ⟨shelf, hs, hnodes, hg⟩ := arena?_eq_some_iff.mp hk
  cases hi : w.shelves[i]? with
  | none =>
    have hki : k ≠ i := by
      rintro rfl
      rw [hs] at hi
      cases hi
    refine ⟨a, ?_, by rw [if_neg hki]⟩
    simpa only [put, hi] using hk
  | some other =>
    -- the generator of the arena is still there, if with other identities to draw
    obtain ⟨ids, hids⟩ : ∃ ids, (w.generators.setIfInBounds other.generator b.ids)[shelf.generator]? = some ids := by
      refine ⟨_, Array.getElem?_eq_getElem ?_⟩
      rw [Array.size_setIfInBounds]
      exact (Array.getElem?_eq_some_iff.mp hg).1
    by_cases hki : k = i
    · subst hki
      obtain rfl : shelf = other := Option.some.inj (hs.symm.trans hi)
      refine ⟨{ nodes := b.nodes, ids }, arena?_eq_some_iff.mpr ⟨{ shelf with nodes := b.nodes }, ?_, rfl, ?_⟩, ?_⟩
      · simp only [put, hi]
        exact Array.getElem?_setIfInBounds_self_of_lt (Array.getElem?_eq_some_iff.mp hi).1
      · simp only [put, hi]
        exact hids
      · rw [if_pos rfl]
    · refine ⟨{ nodes := a.nodes, ids }, arena?_eq_some_iff.mpr ⟨shelf, ?_, hnodes, ?_⟩, ?_⟩
      · simp only [put, hi]
        rw [Array.getElem?_setIfInBounds_ne (Ne.symm hki), hs]
      · simp only [put, hi]
        exact hids
      · rw [if_neg hki]

theorem edit?_of_ok {α : Type} (h : w.arena? i = some a) {e : Edit α} {x : α} {b : Arena} (hrun : e a = .ok x b) :
    w.edit? i e = some (.ok x, w.put i b) := by
  have hrun' : e.run a = .ok x b := hrun
  simp only [edit?, h, Option.bind_eq_bind, Option.bind_some, hrun']
  rfl

theorem edit?_of_error {α : Type} (h : w.arena? i = some a) {e : Edit α} {err : TreeError} {b : Arena}
    (hrun : e a = .error err b) : w.edit? i e = some (.error err, w.put i b) := by
  have hrun' : e.run a = .error err b := hrun
  simp only [edit?, h, Option.bind_eq_bind, Option.bind_some, hrun']
  rfl

/-- An edit succeeds on a workspace if it does on the arena, and then the arena is put back. -/
theorem edit?_eq_ok_iff {α : Type} (h : w.arena? i = some a) {e : Edit α} {x : α} {w' : Workspace} :
    w.edit? i e = some (.ok x, w') ↔ ∃ b, e a = .ok x b ∧ w' = w.put i b := by
  constructor
  · intro hrun
    cases he : e a with
    | ok y b =>
      rw [edit?_of_ok h he] at hrun
      cases hrun
      exact ⟨b, rfl, rfl⟩
    | error err b =>
      rw [edit?_of_error h he] at hrun
      cases hrun
  · rintro ⟨b, he, rfl⟩
    exact edit?_of_ok h he

theorem edit?_eq_none {α : Type} (h : w.arena? i = none) (e : Edit α) : w.edit? i e = none := by
  simp [edit?, h]

theorem arena?_addShelf (h : i ≠ w.size) (nodes : Array Node) (g : Nat) :
    (w.addShelf nodes g).arena? i = w.arena? i := by
  have hkeep : (w.addShelf nodes g).shelves[i]? = w.shelves[i]? := by
    rw [addShelf, Array.getElem?_push]
    exact if_neg h
  simp only [arena?, hkeep]
  rfl

theorem arena?_addShelf_size {g : Nat} {ids : IdGenerator} (hg : w.generators[g]? = some ids) :
    (w.addShelf #[] g).arena? w.size = some (.ofGenerator ids) := by
  refine arena?_eq_some_iff.mpr ⟨{ nodes := #[], generator := g }, ?_, rfl, hg⟩
  simp [addShelf, size]

theorem ne_size_of_shelf {shelf : Shelf} (hs : w.shelves[i]? = some shelf) : i ≠ w.size :=
  Nat.ne_of_lt (Array.getElem?_eq_some_iff.mp hs).1

theorem ne_size_of_arena? (h : w.arena? i = some a) : i ≠ w.size := by
  obtain ⟨shelf, hs, -⟩ := arena?_eq_some_iff.mp h
  exact ne_size_of_shelf hs

theorem arena?_addArena (h : w.arena? i = some a) (policy : IdPolicy) : (w.addArena policy).arena? i = some a := by
  obtain ⟨shelf, hs, hnodes, hg⟩ := arena?_eq_some_iff.mp h
  have hlt := (Array.getElem?_eq_some_iff.mp hg).1
  have hne : i ≠ ({ w with generators := w.generators.push (.ofPolicy policy) } : Workspace).size := ne_size_of_shelf hs
  rw [addArena, arena?_addShelf hne]
  refine arena?_eq_some_iff.mpr ⟨shelf, hs, hnodes, ?_⟩
  rw [Array.getElem?_push, if_neg (Nat.ne_of_lt hlt), hg]

theorem copyInto?_eq_edit? (h : w.arena? i = some a) (n : Handle) (j : Nat) :
    w.copyInto? i n j = w.edit? j (Edit.copyFrom a n) := by
  simp [copyInto?, h]

theorem copyInto?_eq_none (h : w.arena? i = none) (n : Handle) (j : Nat) : w.copyInto? i n j = none := by
  simp [copyInto?, h]

theorem cloneIntoNewArena?_eq_none (h : w.arena? i = none) (n : Handle) : w.cloneIntoNewArena? i n = none := by
  cases hs : w.shelves[i]? with
  | none => simp [cloneIntoNewArena?, addSharing?, hs]
  | some shelf =>
    have h' := (arena?_addShelf (ne_size_of_shelf hs) #[] shelf.generator).trans h
    simp [cloneIntoNewArena?, addSharing?, hs, copyInto?_eq_none h']

end Arenas

/-! ### Properties of all arenas -/

/-- The nodes of every arena have a property. -/
def AllNodes (P : Array Node → Prop) (w : Workspace) : Prop :=
  ∀ (i : Nat) (shelf : Shelf), w.shelves[i]? = some shelf → P shelf.nodes

namespace AllNodes

variable {P : Array Node → Prop} {w : Workspace} (hw : w.AllNodes P)

include hw

theorem put {a : Arena} (ha : P a.nodes) (i : Nat) : (w.put i a).AllNodes P := by
  intro j shelf hs
  unfold Workspace.put at hs
  split at hs
  · simp only [Array.getElem?_setIfInBounds] at hs
    split at hs
    · split at hs
      · obtain rfl := Option.some.inj hs
        exact ha
      · cases hs
    · exact hw j shelf hs
  · exact hw j shelf hs

theorem addShelf {nodes : Array Node} (hn : P nodes) (g : Nat) : (w.addShelf nodes g).AllNodes P := by
  intro j shelf hs
  simp only [Workspace.addShelf, Array.getElem?_push] at hs
  split at hs
  · obtain rfl := Option.some.inj hs
    exact hn
  · exact hw j shelf hs

end AllNodes

/-! ### Well-formed workspaces -/

/-- The nodes of every arena are well formed, whatever generator they have. -/
def WellFormed (w : Workspace) : Prop :=
  ∀ (i : Nat) (shelf : Shelf), w.shelves[i]? = some shelf → ∀ ids, ({ nodes := shelf.nodes, ids } : Arena).WellFormed

namespace WellFormed

variable {w : Workspace} (hw : w.WellFormed)

include hw

theorem arena {i : Nat} {a : Arena} (h : w.arena? i = some a) : a.WellFormed := by
  obtain ⟨shelf, hs, hnodes, -⟩ := arena?_eq_some_iff.mp h
  exact (hw i shelf hs a.ids).of_nodes_eq hnodes.symm

theorem put {a : Arena} (ha : a.WellFormed) (i : Nat) : (w.put i a).WellFormed :=
  AllNodes.put (P := fun nodes => ∀ ids, ({ nodes, ids } : Arena).WellFormed) hw (fun _ => ha.of_nodes_eq rfl) i

theorem addShelf {nodes : Array Node} (hn : ∀ ids, ({ nodes, ids } : Arena).WellFormed) (g : Nat) :
    (w.addShelf nodes g).WellFormed :=
  AllNodes.addShelf (P := fun nodes => ∀ ids, ({ nodes, ids } : Arena).WellFormed) hw hn g

/-! ### Copies between arenas -/

/-- A copy into another arena is refused with nothing changed, or the copies were put behind the nodes there. -/
theorem copyInto?_cases {i j : Nat} {source dest : Arena} (hi : w.arena? i = some source) (hj : w.arena? j = some dest)
    (n : Handle) :
    (∃ e, source.preOrder n = .error e ∧ w.copyInto? i n j = some (.error e, w)) ∨
      ∃ order b, source.preOrder n = .ok order ∧ source.CopyOf dest n order b ∧ b.WellFormed ∧
        w.copyInto? i n j = some (.ok (.ofOrder dest.size order), w.put j b) := by
  rw [copyInto?_eq_edit? hi]
  cases h : source.preOrder n with
  | error e =>
    left
    refine ⟨e, rfl, ?_⟩
    rw [edit?_of_error hj (Edit.run_copyFrom_error h), put_self hj]
  | ok order =>
    right
    have hs := hw.arena hi
    obtain ⟨b, hrun, hb⟩ := Edit.run_copyFrom dest hs h
    exact ⟨order, b, rfl, hb, hb.wellFormed hs (Arena.listing_of_preOrder h) (hw.arena hj), edit?_of_ok hj hrun⟩

/-- A clone in a new arena is refused with no arena added, or the copies are the nodes of the new arena. -/
theorem cloneIntoNewArena?_cases {i : Nat} {source : Arena} (hi : w.arena? i = some source) (n : Handle) :
    (∃ e, source.preOrder n = .error e ∧ w.cloneIntoNewArena? i n = some (.error e, w)) ∨
      ∃ order b g, source.preOrder n = .ok order ∧ source.CopyOf (.ofGenerator source.ids) n order b ∧
        b.WellFormed ∧ w.generators[g]? = some source.ids ∧
          w.cloneIntoNewArena? i n = some (.ok (.ofOrder 0 order), (w.addShelf #[] g).put w.size b) := by
  obtain ⟨shelf, hs, -, hg⟩ := arena?_eq_some_iff.mp hi
  have hw' : (w.addShelf #[] shelf.generator).WellFormed :=
    hw.addShelf (fun ids => Arena.wellFormed_ofGenerator ids) shelf.generator
  have hi' := (arena?_addShelf (ne_size_of_shelf hs) #[] shelf.generator).trans hi
  have hj := arena?_addShelf_size hg
  rcases hw'.copyInto?_cases hi' hj n with ⟨e, horder, h⟩ | ⟨order, b, horder, hb, hwb, h⟩
  · left
    refine ⟨e, horder, ?_⟩
    rw [cloneIntoNewArena?, addSharing?, hs]
    show ((w.addShelf #[] shelf.generator).copyInto? i n w.size >>= _) = _
    rw [h]
    rfl
  · right
    refine ⟨order, b, shelf.generator, horder, hb, hwb, hg, ?_⟩
    rw [cloneIntoNewArena?, addSharing?, hs]
    show ((w.addShelf #[] shelf.generator).copyInto? i n w.size >>= _) = _
    rw [h]
    rfl

/-- A copy that was made has come from one arena and is in another one. -/
theorem exists_of_copyInto? {i j : Nat} {n : Handle} {map : CloneMap} {w' : Workspace}
    (h : w.copyInto? i n j = some (.ok map, w')) :
    ∃ source dest order b, w.arena? i = some source ∧ w.arena? j = some dest ∧ source.preOrder n = .ok order ∧
      source.CopyOf dest n order b ∧ b.WellFormed ∧ map = .ofOrder dest.size order ∧ w' = w.put j b := by
  cases hi : w.arena? i with
  | none =>
    rw [copyInto?_eq_none hi] at h
    cases h
  | some source =>
    cases hj : w.arena? j with
    | none =>
      rw [copyInto?_eq_edit? hi, edit?_eq_none hj] at h
      cases h
    | some dest =>
      rcases hw.copyInto?_cases hi hj n with ⟨e, -, herror⟩ | ⟨order, b, horder, hcopy, hb, hok⟩
      · rw [herror] at h
        cases h
      · rw [hok] at h
        cases h
        exact ⟨source, dest, order, b, rfl, rfl, horder, hcopy, hb, rfl, rfl⟩

theorem exists_of_cloneIntoNewArena? {i : Nat} {n : Handle} {map : CloneMap} {w' : Workspace}
    (h : w.cloneIntoNewArena? i n = some (.ok map, w')) :
    ∃ source order b g, w.arena? i = some source ∧ source.preOrder n = .ok order ∧
      source.CopyOf (.ofGenerator source.ids) n order b ∧ w.generators[g]? = some source.ids ∧
        map = .ofOrder 0 order ∧ w' = (w.addShelf #[] g).put w.size b := by
  cases hi : w.arena? i with
  | none =>
    rw [cloneIntoNewArena?_eq_none hi] at h
    cases h
  | some source =>
    rcases hw.cloneIntoNewArena?_cases hi n with ⟨e, -, herror⟩ | ⟨order, b, g, horder, hcopy, -, hg, hok⟩
    · rw [herror] at h
      cases h
    · rw [hok] at h
      cases h
      exact ⟨source, order, b, g, rfl, horder, hcopy, hg, rfl, rfl⟩

/-! ### Steps and runs -/

theorem perform {x : Action} (hx : x.isChecked) : (w.perform x).WellFormed := by
  cases x with
  | command i c =>
    show (perform.after w (w.edit? i c.run)).WellFormed
    cases hi : w.arena? i with
    | none => rwa [edit?_eq_none hi]
    | some a =>
      have ha := hw.arena hi
      rcases Command.run_cases ha hx with ⟨e, h⟩ | ⟨r, b, hb, h⟩
      · -- a failure may draw an identity, but it keeps the nodes
        rw [edit?_of_error hi h]
        refine hw.put (ha.of_nodes_eq ?_) i
        unfold Command.afterFailure
        split <;> rfl
      · rw [edit?_of_ok hi h]
        exact hw.put hb i
  | drawId i =>
    show (perform.after w (w.drawId? i)).WellFormed
    cases hi : w.arena? i with
    | none => rwa [drawId?, edit?_eq_none hi]
    | some a =>
      have hrun : Edit.drawId a = .ok a.ids.draw.1 a.drawn := rfl
      rw [drawId?, edit?_of_ok hi hrun]
      exact hw.put ((hw.arena hi).of_nodes_eq (b := a.drawn) rfl) i
  | addArena policy => exact addShelf (fun i shelf hs => hw i shelf hs) (fun ids => Arena.wellFormed_ofGenerator ids) _
  | addSharing i =>
    show ((w.addSharing? i).getD w).WellFormed
    cases hs : w.shelves[i]? with
    | none => simpa [addSharing?, hs] using hw
    | some shelf =>
      have hadd := hw.addShelf (fun ids => Arena.wellFormed_ofGenerator ids) shelf.generator
      simpa [addSharing?, hs] using hadd
  | duplicate i =>
    show ((w.duplicate? i).getD w).WellFormed
    cases hs : w.shelves[i]? with
    | none => simpa [duplicate?, hs] using hw
    | some shelf =>
      have hadd := hw.addShelf (hw i shelf hs) shelf.generator
      simpa [duplicate?, hs] using hadd
  | copyInto i n j =>
    show (perform.after w (w.copyInto? i n j)).WellFormed
    cases hi : w.arena? i with
    | none => rwa [copyInto?_eq_none hi]
    | some source =>
      cases hj : w.arena? j with
      | none => rwa [copyInto?_eq_edit? hi, edit?_eq_none hj]
      | some dest =>
        rcases hw.copyInto?_cases hi hj n with ⟨e, -, h⟩ | ⟨order, b, -, -, hb, h⟩
        · rwa [h]
        · rw [h]
          exact hw.put hb j
  | cloneIntoNewArena i n =>
    show (perform.after w (w.cloneIntoNewArena? i n)).WellFormed
    cases hi : w.arena? i with
    | none => rwa [cloneIntoNewArena?_eq_none hi]
    | some source =>
      rcases hw.cloneIntoNewArena?_cases hi n with ⟨e, -, h⟩ | ⟨order, b, g, -, -, hb, -, h⟩
      · rwa [h]
      · rw [h]
        exact (hw.addShelf (fun ids => Arena.wellFormed_ofGenerator ids) g).put hb w.size

theorem performAll {actions : List Action} (h : ∀ x ∈ actions, x.isChecked) : (w.performAll actions).WellFormed := by
  induction actions generalizing w with
  | nil => exact hw
  | cons x actions ih =>
    exact ih (hw.perform (h x List.mem_cons_self)) fun y hy => h y (List.mem_cons_of_mem _ hy)

end WellFormed

theorem wellFormed_empty : ({} : Workspace).WellFormed := fun i shelf hs => by simp at hs

/-- A workspace that checked actions lead to from the one without arenas. -/
def Reachable (w : Workspace) : Prop :=
  ∃ actions : List Action, (∀ x ∈ actions, x.isChecked) ∧ w = ({} : Workspace).performAll actions

theorem Reachable.wellFormed {w : Workspace} (h : w.Reachable) : w.WellFormed := by
  obtain ⟨actions, hchecked, rfl⟩ := h
  exact wellFormed_empty.performAll hchecked

/-- Whatever checked actions are done to empty arenas, with whatever arguments and outcomes, every arena is well formed
after each of them. -/
theorem wellFormed_of_run (actions : List Action) (h : ∀ x ∈ actions, x.isChecked) (n i : Nat) (a : Arena)
    (ha : (({} : Workspace).performAll (actions.take n)).arena? i = some a) : a.WellFormed :=
  (wellFormed_empty.performAll fun x hx => h x (List.mem_of_mem_take hx)).arena ha

/-- A block with one statement, which is then put into a function that does not exist. -/
def blockRun : List Action :=
  [.addArena {}, .command 0 (.alloc .empty { position := 3, length := 1 }),
    .command 0 (.alloc (.block [⟨0⟩]) { position := 0, length := 9 }), .command 0 (.setChild ⟨7⟩ .body (some ⟨1⟩))]

theorem wellFormed_of_blockRun :
    ∃ a, (({} : Workspace).performAll (blockRun.take 3)).arena? 0 = some a ∧ a.parent? ⟨0⟩ = some ⟨1⟩ ∧ a.WellFormed :=
  ⟨_, rfl, rfl, wellFormed_of_run blockRun (by decide) 3 0 _ rfl⟩

/-! ### Failures -/

section Failures

variable {w w' : Workspace} (hw : w.WellFormed) {e : TreeError}

include hw

/-- A failed command leaves the shelves alone, and of the generators it may have drawn from its own. -/
theorem edit?_eq_error {i : Nat} {c : Command} (hc : c.isChecked) (h : w.edit? i c.run = some (.error e, w')) :
    ∃ a shelf, w.arena? i = some a ∧ w.shelves[i]? = some shelf ∧ w'.shelves = w.shelves ∧
      w'.generators = if c.failsInChildCheck a then w.generators.setIfInBounds shelf.generator a.ids.draw.2
        else w.generators := by
  cases hi : w.arena? i with
  | none =>
    rw [edit?_eq_none hi] at h
    cases h
  | some a =>
    obtain ⟨shelf, hs, -, -⟩ := arena?_eq_some_iff.mp hi
    rcases Command.run_cases (hw.arena hi) hc with ⟨err, hrun⟩ | ⟨r, b, -, hrun⟩
    · rw [edit?_of_error hi hrun] at h
      obtain rfl : w.put i (c.afterFailure a) = w' := congrArg Prod.snd (Option.some.inj h)
      refine ⟨a, shelf, rfl, hs, ?_⟩
      unfold Command.afterFailure
      split
      · rw [put_of_nodes_eq hi (b := a.drawn) rfl hs]
        exact ⟨rfl, rfl⟩
      · rw [put_self hi]
        exact ⟨rfl, rfl⟩
    · rw [edit?_of_ok hi hrun] at h
      cases h

theorem copyInto?_eq_error {i j : Nat} {n : Handle} (h : w.copyInto? i n j = some (.error e, w')) : w' = w := by
  cases hi : w.arena? i with
  | none =>
    rw [copyInto?_eq_none hi] at h
    cases h
  | some source =>
    cases hj : w.arena? j with
    | none =>
      rw [copyInto?_eq_edit? hi, edit?_eq_none hj] at h
      cases h
    | some dest =>
      rcases hw.copyInto?_cases hi hj n with ⟨err, -, hrun⟩ | ⟨order, b, -, -, -, hrun⟩
      · rw [hrun] at h
        exact (congrArg Prod.snd (Option.some.inj h)).symm
      · rw [hrun] at h
        cases h

theorem cloneIntoNewArena?_eq_error {i : Nat} {n : Handle} (h : w.cloneIntoNewArena? i n = some (.error e, w')) :
    w' = w := by
  cases hi : w.arena? i with
  | none =>
    rw [cloneIntoNewArena?_eq_none hi] at h
    cases h
  | some source =>
    rcases hw.cloneIntoNewArena?_cases hi n with ⟨err, -, hrun⟩ | ⟨order, b, g, -, -, -, -, hrun⟩
    · rw [hrun] at h
      exact (congrArg Prod.snd (Option.some.inj h)).symm
    · rw [hrun] at h
      cases h

end Failures

/-- A call that fails has changed no node of any arena.  It has drawn no identity either, unless it failed in the check
of the children of a new node: then it has drawn one. -/
theorem unchanged_of_failure {w : Workspace} (hw : w.Reachable) :
    (∀ (i : Nat) (c : Command) (e : TreeError) (w' : Workspace), c.isChecked →
      w.edit? i c.run = some (.error e, w') →
      ∃ a shelf, w.arena? i = some a ∧ w.shelves[i]? = some shelf ∧ w'.shelves = w.shelves ∧
        w'.generators = if c.failsInChildCheck a then w.generators.setIfInBounds shelf.generator a.ids.draw.2
          else w.generators) ∧
    (∀ (i : Nat) (n : Handle) (j : Nat) (e : TreeError) (w' : Workspace),
      w.copyInto? i n j = some (.error e, w') → w' = w) ∧
    ∀ (i : Nat) (n : Handle) (e : TreeError) (w' : Workspace),
      w.cloneIntoNewArena? i n = some (.error e, w') → w' = w :=
  ⟨fun _ _ _ _ hc h => edit?_eq_error hw.wellFormed hc h, fun _ _ _ _ _ h => copyInto?_eq_error hw.wellFormed h,
    fun _ _ _ _ h => cloneIntoNewArena?_eq_error hw.wellFormed h⟩

/-- A block that is to hold one node twice is refused, and draws an identity. -/
theorem unchanged_of_failure_blockRun :
    ∃ w', (({} : Workspace).performAll blockRun).edit? 0 (Command.alloc (.block [⟨0⟩, ⟨0⟩]) {}).run =
        some (.error (.invalidChild .block .statements .repeated), w') ∧
      w'.shelves = (({} : Workspace).performAll blockRun).shelves ∧ (w'.arena? 0).map (·.ids.peek) = some 4 := by
  have hreach : (({} : Workspace).performAll blockRun).Reachable := ⟨blockRun, by decide, rfl⟩
  refine ⟨_, rfl, ?_, rfl⟩
  obtain ⟨a, shelf, -, -, hshelves, -⟩ :=
    (unchanged_of_failure hreach).1 0 (.alloc (.block [⟨0⟩, ⟨0⟩]) {}) _ _ rfl rfl
  exact hshelves

end Workspace

end ScriptTree
