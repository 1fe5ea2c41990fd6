import ScriptTree.Proofs.Command.Effect
import ScriptTree.Proofs.Workspace

/-!
# Steps of a workspace

What a checked action can do to a well-formed workspace: nothing, or it puts back an arena that an effect of a command has
changed or that got copies, or it adds an arena (`Step`).  Every action does one of these (`WellFormed.step`), so what
each of them keeps is kept by every run (`WellFormed.keeps_performAll`).
-/

namespace ScriptTree

open Arena

namespace Workspace

/-- The number of identities that an action draws, also if it fails. -/
def drawsIn (w : Workspace) : Action → Nat
  | .command i c => if (w.arena? i).any fun a => (c.allocates? a).isSome then 1 else 0
  | .drawId i => if (w.arena? i).isSome then 1 else 0
  | _ => 0

/-! ### Actions with their answers -/

section Answers

variable {w w' : Workspace} {i j : Nat} {n : Handle}

theorem edit?_of_result {a b : Arena} (hi : w.arena? i = some a) {e : Edit Reply}
    {r : Except TreeError Reply} (h : e a = Command.result r b) : w.edit? i e = some (r, w.put i b) := by
  cases r with
  | ok r => exact edit?_of_ok hi h
  | error err => exact edit?_of_error hi h

theorem perform_command {c : Command} {r : Except TreeError Reply} (h : w.edit? i c.run = some (r, w')) :
    w.perform (.command i c) = w' := by
  show perform.after w (w.edit? i c.run) = w'
  rw [h]
  rfl

theorem perform_copyInto {r : Except TreeError CloneMap} (h : w.copyInto? i n j = some (r, w')) :
    w.perform (.copyInto i n j) = w' := by
  show perform.after w (w.copyInto? i n j) = w'
  rw [h]
  rfl

theorem perform_cloneIntoNewArena {r : Except TreeError CloneMap} (h : w.cloneIntoNewArena? i n = some (r, w')) :
    w.perform (.cloneIntoNewArena i n) = w' := by
  show perform.after w (w.cloneIntoNewArena? i n) = w'
  rw [h]
  rfl

theorem perform_duplicate {shelf : Shelf} (h : w.shelves[i]? = some shelf) :
    w.perform (.duplicate i) = w.addShelf shelf.nodes shelf.generator := by
  show (w.duplicate? i).getD w = _
  simp only [duplicate?, h, Option.bind_eq_bind, Option.bind_some, Option.pure_def, Option.getD_some]

/-- A command that was executed had its effect on an arena. -/
theorem WellFormed.exists_effect (hw : w.WellFormed) {c : Command} (hc : c.isChecked) {r : Except TreeError Reply}
    (h : w.edit? i c.run = some (r, w')) : ∃ a b, w.arena? i = some a ∧ c.Effect a r b ∧ w' = w.put i b := by
  cases hi : w.arena? i with
  | none =>
    rw [edit?_eq_none hi] at h
    cases h
  | some a =>
    obtain ⟨r', b, hrun, heffect⟩ := Command.effect_run (hw.arena hi) hc
    rw [edit?_of_result hi hrun] at h
    cases h
    exact ⟨a, b, rfl, heffect, rfl⟩

end Answers

/-! ### What an action does -/

/-- An action with the workspace after it. -/
inductive Step (w : Workspace) : Action → Workspace → Prop
  /-- There is no such arena, or a copy was refused. -/
  | idle {x : Action} (drawsIn_eq : w.drawsIn x = 0) : Step w x w
  | command {i : Nat} {c : Command} {a b : Arena} {r : Except TreeError Reply} (arena : w.arena? i = some a)
    (effect : c.Effect a r b) (run : c.run a = Command.result r b) : Step w (.command i c) (w.put i b)
  | drawn {i : Nat} {a : Arena} (arena : w.arena? i = some a) : Step w (.drawId i) (w.put i a.drawn)
  | added {policy : IdPolicy} : Step w (.addArena policy) (w.addArena policy)
  | shared {i : Nat} {shelf : Shelf} (shelf_eq : w.shelves[i]? = some shelf) :
    Step w (.addSharing i) (w.addShelf #[] shelf.generator)
  | duplicated {i : Nat} {shelf : Shelf} (shelf_eq : w.shelves[i]? = some shelf) :
    Step w (.duplicate i) (w.addShelf shelf.nodes shelf.generator)
  | copied {i j : Nat} {n : Handle} {source dest b : Arena} {order : List Handle} (from_eq : w.arena? i = some source)
    (into_eq : w.arena? j = some dest) (listed : source.preOrder n = .ok order) (copy : source.CopyOf dest n order b)
    (run : w.copyInto? i n j = some (.ok (.ofOrder dest.size order), w.put j b)) :
    Step w (.copyInto i n j) (w.put j b)
  | cloned {i : Nat} {n : Handle} {source b : Arena} {order : List Handle} {g : Nat} (from_eq : w.arena? i = some source)
    (generator_eq : w.generators[g]? = some source.ids) (listed : source.preOrder n = .ok order)
    (copy : source.CopyOf (.ofGenerator source.ids) n order b)
    (run : w.cloneIntoNewArena? i n = some (.ok (.ofOrder 0 order), (w.addShelf #[] g).put w.size b)) :
    Step w (.cloneIntoNewArena i n) ((w.addShelf #[] g).put w.size b)

theorem WellFormed.step {w : Workspace} (hw : w.WellFormed) {x : Action} (hx : x.isChecked) : w.Step x (w.perform x) := by
  cases x with
  | command i c =>
    cases hi : w.arena? i with
    | none =>
      show w.Step _ (perform.after w (w.edit? i c.run))
      rw [edit?_eq_none hi]
      exact .idle (by simp [drawsIn, hi])
    | some a =>
      obtain ⟨r, b, hrun, heffect⟩ := Command.effect_run (hw.arena hi) hx
      rw [perform_command (edit?_of_result hi hrun)]
      exact .command hi heffect hrun
  | drawId i =>
    show w.Step _ (perform.after w (w.drawId? i))
    cases hi : w.arena? i with
    | none =>
      rw [drawId?, edit?_eq_none hi]
      exact .idle (by simp [drawsIn, hi])
    | some a =>
      have hrun : Edit.drawId a = .ok a.ids.draw.1 a.drawn := rfl
      rw [drawId?, edit?_of_ok hi hrun]
      exact .drawn hi
  | addArena policy => exact .added
  | addSharing i =>
    show w.Step _ ((w.addSharing? i).getD w)
    cases hs : w.shelves[i]? with
    | none =>
      simp only [addSharing?, hs, Option.bind_eq_bind, Option.bind_none, Option.getD_none]
      exact .idle rfl
    | some shelf =>
      simp only [addSharing?, hs, Option.bind_eq_bind, Option.bind_some, Option.pure_def, Option.getD_some]
      exact .shared hs
  | duplicate i =>
    cases hs : w.shelves[i]? with
    | none =>
      show w.Step _ ((w.duplicate? i).getD w)
      simp only [duplicate?, hs, Option.bind_eq_bind, Option.bind_none, Option.getD_none]
      exact .idle rfl
    | some shelf =>
      rw [perform_duplicate hs]
      exact .duplicated hs
  | copyInto i n j =>
    cases hi : w.arena? i with
    | none =>
      show w.Step _ (perform.after w (w.copyInto? i n j))
      rw [copyInto?_eq_none hi]
      exact .idle rfl
    | some source =>
      cases hj : w.arena? j with
      | none =>
        show w.Step _ (perform.after w (w.copyInto? i n j))
        rw [copyInto?_eq_edit? hi, edit?_eq_none hj]
        exact .idle rfl
      | some dest =>
        rcases hw.copyInto?_cases hi hj n with ⟨e, -, h⟩ | ⟨order, b, horder, hcopy, -, h⟩
        · rw [perform_copyInto h]
          exact .idle rfl
        · rw [perform_copyInto h]
          exact .copied hi hj horder hcopy h
  | cloneIntoNewArena i n =>
    cases hi : w.arena? i with
    | none =>
      show w.Step _ (perform.after w (w.cloneIntoNewArena? i n))
      rw [cloneIntoNewArena?_eq_none hi]
      exact .idle rfl
    | some source =>
      rcases hw.cloneIntoNewArena?_cases hi n with ⟨e, -, h⟩ | ⟨order, b, g, horder, hcopy, -, hg, h⟩
      · rw [perform_cloneIntoNewArena h]
        exact .idle rfl
      · rw [perform_cloneIntoNewArena h]
        exact .cloned hi hg horder hcopy h

/-- What every step of a run keeps is kept by the run. -/
theorem WellFormed.keeps_performAll {P : Workspace → Prop} {w : Workspace} (hw : w.WellFormed) {actions : List Action}
    (checked : ∀ x ∈ actions, x.isChecked)
    (keeps : ∀ w x w', x ∈ actions → w.WellFormed → w.Step x w' → P w → P w') (h : P w) : P (w.performAll actions) := by
  induction actions generalizing w with
  | nil => exact h
  | cons x actions ih =>
    have hx := checked x List.mem_cons_self
    exact ih (hw.perform hx) (fun y hy => checked y (List.mem_cons_of_mem _ hy))
      (fun w y w' hy => keeps w y w' (List.mem_cons_of_mem _ hy)) (keeps w x _ List.mem_cons_self hw (hw.step hx) h)

end Workspace

end ScriptTree
