import ScriptTree.Edit.Structure
import ScriptTree.Proofs.Ownership

/-!
# Running edits

What the steps of edits do, as equations.  A check either lets an edit go on in the same arena or ends it there
(`run_inspect_bind`, `run_inspect_bind_error`).  In a rooted arena the steps that move nodes cannot fail on nodes of the
arena: `orphan`, `unlink` and `link` are the updates that `severed` and `grafted` are made of.

Where an edit may fail half way, what counts is the arena that it leaves behind in either case (`leaves`); `Leads` follows
a property of arenas through the steps of an edit.
-/

namespace ScriptTree

namespace Edit

/-! ### Sequencing -/

section Sequencing

variable {α β : Type} {a b : Arena}

theorem run_bind_of_ok {e : Edit α} {x : α} (h : e a = .ok x b) (f : α → Edit β) : (e >>= f) a = f x b := by
  rw [run_bind, h]

theorem run_bind_of_error {e : Edit α} {err : TreeError} (h : e a = .error err b) (f : α → Edit β) :
    (e >>= f) a = .error err b := by
  rw [run_bind, h]

theorem run_inspect_bind {query : Arena → Except TreeError α} {x : α} (h : query a = .ok x) (f : α → Edit β) :
    (inspect query >>= f) a = f x a :=
  run_bind_of_ok (run_inspect_of_ok h) f

theorem run_inspect_bind_error {query : Arena → Except TreeError α} {err : TreeError} (h : query a = .error err)
    (f : α → Edit β) : (inspect query >>= f) a = .error err a :=
  run_bind_of_error (run_inspect_of_error h) f

theorem run_map_of_ok {e : Edit α} {x : α} (h : e a = .ok x b) (f : α → β) : (f <$> e) a = .ok (f x) b := by
  simp only [Functor.map, EStateM.map, h]

theorem run_map_of_error {e : Edit α} {err : TreeError} (h : e a = .error err b) (f : α → β) :
    (f <$> e) a = .error err b := by
  simp only [Functor.map, EStateM.map, h]

theorem exists_of_run_map {e : Edit α} {f : α → β} {y : β} (h : (f <$> e) a = .ok y b) : ∃ x, e a = .ok x b := by
  cases hrun : e a with
  | ok x a' =>
    rw [run_map_of_ok hrun] at h
    cases h
    exact ⟨x, rfl⟩
  | error err a' =>
    rw [run_map_of_error hrun] at h
    cases h

theorem run_pure (x : α) : (pure x : Edit α) a = .ok x a := rfl

theorem run_modifyPayload {h : Handle} (hh : h ∈ a) (f : Payload → Payload) :
    modifyPayload h f a = .ok () (a.update h (Node.mapPayload f)) :=
  run_modifyNode hh _

end Sequencing

/-! ### What an edit leaves behind -/

/-- The arena that an edit leaves behind, whether it succeeds or fails half way. -/
def leaves {α : Type} (e : Edit α) (a : Arena) : Arena :=
  match e a with
  | .ok _ b => b
  | .error _ b => b

theorem leaves_of_ok {α : Type} {e : Edit α} {a b : Arena} {x : α} (h : e a = .ok x b) : e.leaves a = b := by
  simp only [leaves, h]

theorem leaves_of_error {α : Type} {e : Edit α} {a b : Arena} {err : TreeError} (h : e a = .error err b) :
    e.leaves a = b := by
  simp only [leaves, h]

theorem leaves_bind_of_ok {α β : Type} {e : Edit α} {a b : Arena} {x : α} (h : e a = .ok x b) (f : α → Edit β) :
    (e >>= f).leaves a = (f x).leaves b := by
  rw [leaves, run_bind_of_ok h, leaves]

theorem leaves_map {α β : Type} (f : α → β) (e : Edit α) (a : Arena) : (f <$> e).leaves a = e.leaves a := by
  cases hrun : e a with
  | ok x b => rw [leaves_of_ok (run_map_of_ok hrun f), leaves_of_ok hrun]
  | error err b => rw [leaves_of_error (run_map_of_error hrun f), leaves_of_error hrun]

/-- On an arena with `P` an edit leaves one with `Q` behind, whether it succeeds or fails half way. -/
def Leads {α : Type} (P : Arena → Prop) (e : Edit α) (Q : Arena → Prop) : Prop := ∀ a, P a → Q (e.leaves a)

section Rules

variable {α β : Type} {P Q R : Arena → Prop} {a : Arena}

theorem leads_pure (x : α) : Leads P (pure x : Edit α) P := fun _ h => h

theorem leads_throw (e : TreeError) : Leads P (throw e : Edit α) P := fun _ h => h

theorem leads_inspect (query : Arena → Except TreeError α) : Leads P (inspect query) P := by
  intro a ha
  cases hquery : query a with
  | ok x => rwa [leaves_of_ok (run_inspect_of_ok hquery)]
  | error e => rwa [leaves_of_error (run_inspect_of_error hquery)]

/-- What holds after the first edit has to be enough if it fails, and to lead on if it succeeds. -/
theorem Leads.bind {e : Edit α} {f : α → Edit β} (he : Leads P e R) (hf : ∀ x, Leads R (f x) Q)
    (hfail : ∀ b, R b → Q b) : Leads P (e >>= f) Q := by
  intro a ha
  have hleaves := he a ha
  cases hrun : e a with
  | ok x b =>
    rw [leaves_of_ok hrun] at hleaves
    rw [leaves_bind_of_ok hrun]
    exact hf x b hleaves
  | error err b =>
    rw [leaves_of_error hrun] at hleaves
    rw [leaves_of_error (run_bind_of_error hrun f)]
    exact hfail b hleaves

theorem Leads.keep {e : Edit α} {f : α → Edit β} (he : Leads P e P) (hf : ∀ x, Leads P (f x) P) :
    Leads P (e >>= f) P :=
  he.bind hf fun _ h => h

theorem Leads.map {e : Edit α} (he : Leads P e Q) (f : α → β) : Leads P (f <$> e) Q := by
  intro a ha
  rw [leaves_map]
  exact he a ha

/-- After a check the edit goes on in the same arena, of which the outcome of the check is known. -/
theorem leaves_inspect_bind {query : Arena → Except TreeError α} {f : α → Edit β} (ha : Q a)
    (hf : ∀ x, query a = .ok x → Q ((f x).leaves a)) : Q ((inspect query >>= f).leaves a) := by
  cases hquery : query a with
  | ok x =>
    rw [leaves_bind_of_ok (run_inspect_of_ok hquery)]
    exact hf x hquery
  | error e => rwa [leaves_of_error (run_inspect_bind_error hquery f)]

theorem leads_modifyNode {h : Handle} {f : Node → Node} (hf : ∀ a, P a → P (a.update h f)) :
    Leads P (modifyNode h f) P := by
  intro a ha
  by_cases hh : h.index < a.size
  · rw [leaves_of_ok (run_modifyNode hh f)]
    exact hf a ha
  · rwa [leaves_of_error (if_neg hh)]

end Rules

end Edit

namespace Arena

/-! ### Reading single nodes -/

section Reading

variable {a : Arena} {h : Handle}

theorem parent_eq (hh : h ∈ a) : a.parent h = .ok (a.parent? h) := by
  obtain ⟨node, hn⟩ := mem_iff_node?.mp hh
  simp only [parent, get_eq hn, parent?, hn]
  rfl

theorem parent_eq_error (hh : h ∉ a) : a.parent h = .error (.unknownNode h) := by
  simp only [parent, get_eq_error hh]
  rfl

theorem parent_eq_ok_iff {p : Option Handle} : a.parent h = .ok p ↔ h ∈ a ∧ a.parent? h = p := by
  by_cases hh : h ∈ a
  · simp [parent_eq hh, hh]
  · simp [parent_eq_error hh, hh]

theorem payload_eq {node : Node} (hn : a.node? h = some node) : a.payload h = .ok node.payload := by
  simp only [payload, get_eq hn]
  rfl

theorem payload_eq_error (hh : h ∉ a) : a.payload h = .error (.unknownNode h) := by
  simp only [payload, get_eq_error hh]
  rfl

theorem payload_eq_ok_iff {p : Payload} : a.payload h = .ok p ↔ ∃ node, a.node? h = some node ∧ node.payload = p := by
  by_cases hh : h ∈ a
  · obtain ⟨node, hn⟩ := mem_iff_node?.mp hh
    simp [payload_eq hn, hn]
  · simp [payload_eq_error hh, node?_eq_none hh]

theorem variant_eq {node : Node} (hn : a.node? h = some node) : a.variant h = .ok node.payload.variant := by
  simp only [variant, payload_eq hn]
  rfl

theorem child_eq_ok_iff {s : Slot} {c : Option Handle} :
    a.child h s = .ok c ↔ ∃ node, a.node? h = some node ∧ node.payload.single? s = some c := by
  unfold child
  by_cases hh : h ∈ a
  · obtain ⟨node, hn⟩ := mem_iff_node?.mp hh
    cases hs : node.payload.single? s <;>
      simp [payload_eq hn, hn, hs, bind, Except.bind, pure, Except.pure, throw, throwThe, MonadExceptOf.throw]
  · simp [payload_eq_error hh, node?_eq_none hh, bind, Except.bind]

theorem childList_eq_ok_iff {s : Slot} {cs : List Handle} :
    a.childList h s = .ok cs ↔ ∃ node, a.node? h = some node ∧ node.payload.list? s = some cs := by
  unfold childList
  by_cases hh : h ∈ a
  · obtain ⟨node, hn⟩ := mem_iff_node?.mp hh
    cases hs : node.payload.list? s <;>
      simp [payload_eq hn, hn, hs, bind, Except.bind, pure, Except.pure, throw, throwThe, MonadExceptOf.throw]
  · simp [payload_eq_error hh, node?_eq_none hh, bind, Except.bind]

theorem isRequired_eq_ok_iff {s : Slot} {r : Bool} :
    a.isRequired h s = .ok r ↔ ∃ node, a.node? h = some node ∧ node.payload.isRequired? s = some r := by
  unfold isRequired
  by_cases hh : h ∈ a
  · obtain ⟨node, hn⟩ := mem_iff_node?.mp hh
    cases hs : node.payload.isRequired? s <;>
      simp [payload_eq hn, hn, hs, bind, Except.bind, pure, Except.pure, throw, throwThe, MonadExceptOf.throw]
  · simp [payload_eq_error hh, node?_eq_none hh, bind, Except.bind]

end Reading

/-! ### The check before attaching a node -/

theorem Ascent.checkAttachable_eq {a : Arena} {o c : Handle} {s : Slot} {node : Node} {path : List Handle}
    (hp : a.Ascent o path) (hn : a.node? o = some node) :
    a.checkAttachable o s c =
      if c ∈ a then
        if c ∈ path then .error (.invalidChild node.payload.variant s .cycle) else .ok ()
      else .error (.invalidChild node.payload.variant s .notInArena) := by
  have hcontains : a.contains c = decide (c ∈ a) := by
    rw [Bool.eq_iff_iff, contains_iff_mem, decide_eq_true_iff]
  by_cases hc : c ∈ a <;> by_cases hpath : c ∈ path <;>
    simp [checkAttachable, variant_eq hn, hcontains, hp.isAncestor_eq, hc, hpath, bind, Except.bind, pure, Except.pure,
      throw, throwThe, MonadExceptOf.throw]

/-- A node may be attached if both nodes exist and it is not on the ascent of its new owner. -/
theorem Rooted.checkAttachable_eq_ok_iff {a : Arena} (hr : a.Rooted) {o c : Handle} {s : Slot} :
    a.checkAttachable o s c = .ok () ↔ c ∈ a ∧ ∃ path, a.Ascent o path ∧ c ∉ path := by
  by_cases ho : o ∈ a
  · obtain ⟨node, hn⟩ := mem_iff_node?.mp ho
    obtain ⟨path, hp⟩ := hr o ho
    rw [hp.checkAttachable_eq hn]
    constructor
    · intro h
      split at h
      · split at h
        · cases h
        · exact ⟨‹_›, path, hp, ‹_›⟩
      · cases h
    · rintro ⟨hc, path', hp', hpath⟩
      rw [if_pos hc, if_neg (hp.unique hp' ▸ hpath)]
  · constructor
    · intro h
      simp [checkAttachable, variant, payload_eq_error ho, bind, Except.bind] at h
    · rintro ⟨-, path, hp, -⟩
      exact absurd hp.mem ho

theorem Rooted.place_update_mapPayload {a : Arena} (hr : a.Rooted) {p h : Handle} (f : Payload → Payload) (hh : h ∈ a) :
    (a.update p (Node.mapPayload f)).place h = a.place h := by
  obtain ⟨path, hp⟩ := hr h hh
  exact hp.place_congr (fun x hx => mem_update.mpr (mem_handles.mp (hp.subset_handles hx)))
    (fun x _ => parent?_update_mapPayload f x) fun x _ => offset_update_mapPayload f x

end Arena

namespace Edit

open Arena

section Moves

variable {a : Arena} (hr : a.Rooted) {o c : Handle}

include hr

/-! ### The steps that move nodes -/

theorem run_orphan (hc : c ∈ a) : orphan c a = .ok () (a.update c (·.rehome none (a.place c))) := by
  rw [orphan, run_inspect_bind (hr.absolutePosition_eq hc)]
  exact run_modifyNode hc _

theorem run_link (ho : o ∈ a) (hc : c ∈ a) :
    link o c a = .ok () (a.update c fun node => node.rehome (some o) (node.span.position - a.place o)) := by
  rw [link, run_inspect_bind (hr.absolutePosition_eq ho)]
  exact run_modifyNode hc _

/-- Unlinking a node severs it, and answers with the slot of its parent that held it. -/
theorem run_unlink (hc : c ∈ a) :
    unlink c a = .ok ((a.parent? c).bind fun p => (a.node? p).bind fun node => node.payload.slotOf? c) (a.severed c) := by
  rw [unlink, run_inspect_bind (parent_eq hc)]
  cases hp : a.parent? c with
  | none => rw [severed_of_root hp]; rfl
  | some p =>
    have hpa := hr.mem_of_parent?_eq hp
    obtain ⟨node, hn⟩ := mem_iff_node?.mp hpa
    have hcut : (a.update p (Node.mapPayload (·.without c))).Rooted :=
      hr.of_cut (fun _ => mem_update) (fun x => .inl (parent?_update_mapPayload _ x))
    have horphan := run_orphan hcut (mem_update.mpr hc)
    rw [hr.place_update_mapPayload _ hc] at horphan
    have hsevered : a.severed c = (a.update p (Node.mapPayload (·.without c))).update c (·.rehome none (a.place c)) := by
      simp only [severed, hp]
    show (inspect (·.payload p) >>= _) a = _
    rw [run_inspect_bind (payload_eq hn), hsevered]
    cases hs : node.payload.slotOf? c with
    | none =>
      have hkeep : a.update p (Node.mapPayload (·.without c)) = a :=
        update_eq_self hn (by simp only [Node.mapPayload, Payload.without, hs])
      rw [hkeep] at horphan ⊢
      simp only [run_bind_of_ok horphan, Option.bind_some, hn, hs]
      rfl
    | some s =>
      have hcongr : a.update p (Node.mapPayload (·.eraseChild s c)) = a.update p (Node.mapPayload (·.without c)) :=
        update_congr hn (by simp only [Node.mapPayload, Payload.without, hs])
      simp only [run_bind_of_ok (run_modifyPayload hpa _), hcongr, run_bind_of_ok horphan, Option.bind_some, hn, hs]
      rfl

end Moves

end Edit

end ScriptTree
