import ScriptTree.Command
import ScriptTree.Proofs.Clone.Outcome
import ScriptTree.Proofs.Edit.Allocation

/-!
# Outcomes of commands

On a well-formed arena a checked command either fails and leaves the arena as it was, or succeeds and leaves a well-formed
one (`Command.run_cases`).  One failure leaves a trace: an allocation draws an identity before it looks at the children.
-/

namespace ScriptTree

open Arena Edit

namespace Edit

variable {a : Arena} (hw : a.WellFormed)

include hw

/-! ### Edits that move no nodes -/

omit hw in
theorem modifyNode_cases (h : Handle) (f : Node → Node) :
    (∃ e, modifyNode h f a = .error e a) ∨ h ∈ a ∧ modifyNode h f a = .ok () (a.update h f) := by
  by_cases hh : h ∈ a
  · right
    exact ⟨hh, run_modifyNode hh f⟩
  · left
    exact ⟨_, if_neg hh⟩

theorem mark_cases (h : Handle) (m : Mark) :
    (∃ e, mark h m a = .error e a) ∨ ∃ b, b.WellFormed ∧ mark h m a = .ok () b := by
  rcases modifyNode_cases (a := a) h m.apply with herror | ⟨-, hok⟩
  · exact .inl herror
  · right
    have hsame : a.SameTrees (a.update h m.apply) := .update (by cases m <;> exact fun _ => rfl)
      (by cases m <;> exact fun _ _ => rfl)
    exact ⟨_, hsame.wellFormed hw, hok⟩

theorem setSpan_cases (h : Handle) (span : Span) :
    (∃ e, setSpan h span a = .error e a) ∨ ∃ b, b.WellFormed ∧ setSpan h span a = .ok () b := by
  rcases modifyNode_cases (a := a) h fun node => { node with span } with herror | ⟨-, hok⟩
  · exact .inl herror
  · exact .inr ⟨_, (sameTrees_spanned a h span).wellFormed hw, hok⟩

theorem refine_cases (h : Handle) (r : Refinement) :
    (∃ e, refine h r a = .error e a) ∨ ∃ b, b.WellFormed ∧ refine h r a = .ok () b := by
  by_cases hh : h ∈ a
  · obtain ⟨node, hn⟩ := mem_iff_node?.mp hh
    rw [refine, run_inspect_bind (payload_eq hn)]
    cases hr : r.apply node.payload with
    | error fault =>
      left
      exact ⟨_, rfl⟩
    | ok q =>
      right
      have hsame : a.SameTrees (a.update h (Node.mapPayload fun _ => q)) := by
        refine .update (fun _ => rfl) fun node' hn' => ?_
        obtain rfl : node = node' := Option.some.inj (hn.symm.trans hn')
        simp only [Node.mapPayload, Payload.handles, (Refinement.childSlots_apply hr).2]
      exact ⟨_, hsame.wellFormed hw, run_modifyPayload hh _⟩
  · left
    exact ⟨_, run_inspect_bind_error (payload_eq_error hh) _⟩

theorem recomputeBounds_cases (h : Handle) :
    (∃ e, recomputeBounds h a = .error e a) ∨ ∃ b, b.WellFormed ∧ recomputeBounds h a = .ok () b := by
  by_cases hh : h ∈ a
  · right
    exact ⟨_, (sameTrees_recomputed a h).wellFormed hw, run_recomputeBounds hw hh⟩
  · left
    exact ⟨_, run_inspect_bind_error (get_eq_error hh) _⟩

theorem detach_cases (h : Handle) :
    (∃ e, detach h a = .error e a) ∨ ∃ former b, b.WellFormed ∧ detach h a = .ok former b := by
  by_cases hh : h ∈ a
  · right
    exact ⟨_, _, hw.severed h, run_detach hw hh⟩
  · left
    exact ⟨_, run_detach_error hh⟩

theorem setChild_cases (o : Handle) (s : Slot) (c : Option Handle) :
    (∃ e, setChild o s c a = .error e a) ∨ ∃ old b, b.WellFormed ∧ setChild o s c a = .ok old b := by
  cases c with
  | none =>
    rcases setChild_none_cases hw with herror | ⟨old, -, hok⟩
    · exact .inl herror
    · exact .inr ⟨_, _, hw.severedEach _, hok⟩
  | some c =>
    rcases setChild_some_cases hw with herror | ⟨-, hok⟩ | ⟨old, _, -, -, -, -, -, hwb, hok⟩
    · exact .inl herror
    · exact .inr ⟨_, _, hw, hok⟩
    · exact .inr ⟨_, _, hwb, hok⟩

theorem cloneSubtree_cases (n : Handle) (target : Option (Handle × Slot)) :
    (∃ e, cloneSubtree n target a = .error e a) ∨ ∃ map b, b.WellFormed ∧ cloneSubtree n target a = .ok map b := by
  cases target with
  | none =>
    rcases cloneSubtree_none_cases hw n with ⟨e, -, herror⟩ | ⟨order, b, horder, hcopy, hok⟩
    · exact .inl ⟨e, herror⟩
    · exact .inr ⟨_, _, hcopy.wellFormed hw (listing_of_preOrder horder) hw, hok⟩
  | some target =>
    obtain ⟨o, s⟩ := target
    rcases cloneSubtree_some_cases hw n o s with
      herror | ⟨order, b, node, -, -, -, ⟨cs, -, hwb, hok⟩ | ⟨old, -, hwb, hok⟩⟩
    · exact .inl herror
    · exact .inr ⟨_, _, (sameTrees_spanned _ _ _).wellFormed hwb, hok⟩
    · exact .inr ⟨_, _, (sameTrees_spanned _ _ _).wellFormed hwb, hok⟩

end Edit

namespace Command

theorem after_eq_leaves (a : Arena) (c : Command) : after a c = c.run.leaves a := by
  have hrun : c.run.run a = c.run a := rfl
  rw [after, leaves, hrun]
  cases c.run a <;> rfl

/-- The payload that a command allocates, if it comes to that. -/
def allocates? (a : Arena) : Command → Option Payload
  | alloc p _ => some p
  | construct c => (c.plan a).toOption.map (·.1)
  | _ => none

/-- The command comes to allocate a node and is refused for the children of that node. -/
def failsInChildCheck (c : Command) (a : Arena) : Bool :=
  (c.allocates? a).any fun p => !(a.checkChildren p.variant [] p.placedHandles).isOk

/-- What a command leaves of an arena if it fails. -/
def afterFailure (c : Command) (a : Arena) : Arena := if c.failsInChildCheck a then a.drawn else a

/-- A checked command fails and leaves no trace but perhaps a drawn identity, or it leaves a well-formed arena. -/
theorem run_cases {a : Arena} (hw : a.WellFormed) {c : Command} (hc : c.isChecked) :
    (∃ e, c.run a = .error e (c.afterFailure a)) ∨ ∃ r b, b.WellFormed ∧ c.run a = .ok r b := by
  -- only the two that allocate can fail after a change, so the others share what follows from an unchanged arena
  have map {α : Type} {e : Edit α} (f : α → Reply)
      (h : (∃ err, e a = .error err a) ∨ ∃ x b, b.WellFormed ∧ e a = .ok x b) :
      (∃ err, (f <$> e) a = .error err a) ∨ ∃ r b, b.WellFormed ∧ (f <$> e) a = .ok r b := by
    rcases h with ⟨err, h⟩ | ⟨x, b, hwb, h⟩
    · exact .inl ⟨err, run_map_of_error h f⟩
    · exact .inr ⟨f x, b, hwb, run_map_of_ok h f⟩
  cases c with
  | alloc p span =>
    rcases alloc_cases hw p span with ⟨e, hcheck, herror⟩ | ⟨-, hwb, hok⟩
    · left
      have hfails : (alloc p span).failsInChildCheck a = true := by
        simp [failsInChildCheck, allocates?, hcheck, Except.isOk, Except.toBool]
      rw [afterFailure, if_pos hfails]
      exact ⟨e, run_map_of_error herror _⟩
    · exact .inr ⟨_, _, hwb, run_map_of_ok hok _⟩
  | construct c =>
    rcases construct_cases hw c with ⟨e, hplan, herror⟩ | ⟨p, span, hplan, ⟨e, hcheck, herror⟩ | ⟨-, hwb, hok⟩⟩
    · -- no payload was planned, so no identity is drawn
      left
      have hfails : (construct c).failsInChildCheck a = false := by
        simp [failsInChildCheck, allocates?, hplan, Except.toOption]
      rw [afterFailure, hfails]
      exact ⟨e, run_map_of_error herror _⟩
    · left
      have hfails : (construct c).failsInChildCheck a = true := by
        simp [failsInChildCheck, allocates?, hplan, hcheck, Except.toOption, Except.isOk, Except.toBool]
      rw [afterFailure, if_pos hfails]
      exact ⟨e, run_map_of_error herror _⟩
    · exact .inr ⟨_, _, hwb, run_map_of_ok hok _⟩
  | setChild o s c => exact map _ (setChild_cases hw o s c)
  | pushChild o s c =>
    refine map _ ?_
    rcases pushChild_cases hw (o := o) (s := s) (c := c) with herror | ⟨_, -, -, -, hwb, hok⟩
    · exact .inl herror
    · exact .inr ⟨_, _, hwb, hok⟩
  | setChildList o s cs =>
    refine map _ ?_
    rcases setChildList_cases hw (o := o) (s := s) cs with herror | ⟨_, _, -, -, -, hwb, hok⟩
    · exact .inl herror
    · exact .inr ⟨_, _, hwb, hok⟩
  | detach h => exact map _ (detach_cases hw h)
  | recomputeBounds h => exact map _ ((recomputeBounds_cases hw h).imp_right fun h => ⟨(), h⟩)
  | cloneSubtree n target => exact map _ (cloneSubtree_cases hw n target)
  | mark h m => exact map _ ((mark_cases hw h m).imp_right fun h => ⟨(), h⟩)
  | setSpan h span => exact map _ ((setSpan_cases hw h span).imp_right fun h => ⟨(), h⟩)
  | refine h r => exact map _ ((refine_cases hw h r).imp_right fun h => ⟨(), h⟩)
  | overwritePayload => cases hc

end Command

end ScriptTree
