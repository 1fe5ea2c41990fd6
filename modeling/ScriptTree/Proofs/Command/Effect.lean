import ScriptTree.Proofs.Command

/-!
# Effects of commands

What a checked command can do to a well-formed arena, with what its checks have made sure of: it is refused, or it draws
an identity in vain, or it does one of a few moves (`Command.Effect`).  Every command has an effect (`Command.effect_run`),
so what holds of all effects holds of all commands.
-/

namespace ScriptTree

open Arena Edit

namespace Command

/-- A command with its answer, and the arena that it leaves behind. -/
inductive Effect (a : Arena) : Command → Except TreeError Reply → Arena → Prop
  | refused {c : Command} {e : TreeError} (idle : c.allocates? a = none) : Effect a c (.error e) a
  /-- The new node was refused for its children when it had its identity already. -/
  | drawn {c : Command} {e : TreeError} {p : Payload} (planned : c.allocates? a = some p) : Effect a c (.error e) a.drawn
  | allocated {p : Payload} {span : Span} (check : a.checkChildren p.variant [] p.placedHandles = .ok ()) :
    Effect a (.alloc p span) (.ok (.node ⟨a.size⟩)) (a.allocated p span)
  | constructed {k : Construction} {p : Payload} {span : Span} (planned : k.plan a = .ok (p, span))
    (check : a.checkChildren p.variant [] p.placedHandles = .ok ()) :
    Effect a (.construct k) (.ok (.node ⟨a.size⟩)) (a.constructed k p span)
  | emptied {o : Handle} {s : Slot} {old : Option Handle} (held : a.HasSingle o s old) :
    Effect a (.setChild o s none) (.ok (.displaced old)) (a.severedEach old.toList)
  /-- The child was in the slot already. -/
  | found {o c : Handle} {s : Slot} (held : a.HasSingle o s (some c)) :
    Effect a (.setChild o s (some c)) (.ok (.displaced none)) a
  | filled {o c : Handle} {s : Slot} {old : Option Handle} {path : List Handle} (held : a.HasSingle o s old)
    (other : old ≠ some c) (mem : c ∈ a) (ascent : a.Ascent o path) (outside : c ∉ path) :
    Effect a (.setChild o s (some c)) (.ok (.displaced old)) (a.filled o s c old)
  | pushed {o c : Handle} {s : Slot} {path : List Handle} (mem : c ∈ a) (ascent : a.Ascent o path) (outside : c ∉ path) :
    Effect a (.pushChild o s c) (.ok .done) (a.moved o s c)
  | listed {o : Handle} {s : Slot} {cs xs path : List Handle} (held : a.HasList o s cs)
    (ascent : (a.severedEach cs).Ascent o path) (outside : ∀ c ∈ xs, c ∈ a.severedEach cs ∧ c ∉ path) :
    Effect a (.setChildList o s xs) (.ok .done) ((a.severedEach cs).movedEach o (xs.map (s, ·)))
  | detached {h : Handle} (mem : h ∈ a) : Effect a (.detach h) (.ok (.place (a.standing? h))) (a.severed h)
  | recomputed {h : Handle} (mem : h ∈ a) : Effect a (.recomputeBounds h) (.ok .done) (a.recomputed h)
  | cloned {n : Handle} {order : List Handle} {b : Arena} (listed : a.preOrder n = .ok order)
    (copy : a.CopyOf a n order b) : Effect a (.cloneSubtree n none) (.ok (.clone (.ofOrder a.size order))) b
  | clonedIntoList {n o : Handle} {s : Slot} {order cs : List Handle} {b : Arena} {node : Node}
    (listed : a.preOrder n = .ok order) (copy : a.CopyOf a n order b) (held : a.HasList o s cs) :
    Effect a (.cloneSubtree n (some (o, s))) (.ok (.clone (.ofOrder a.size order)))
      ((b.moved o s ⟨a.size⟩).spanned ⟨a.size⟩ node.span)
  | clonedIntoSlot {n o : Handle} {s : Slot} {order : List Handle} {old : Option Handle} {b : Arena} {node : Node}
    (listed : a.preOrder n = .ok order) (copy : a.CopyOf a n order b) (held : a.HasSingle o s old)
    (wellFormed : (b.filled o s ⟨a.size⟩ old).WellFormed) :
    Effect a (.cloneSubtree n (some (o, s))) (.ok (.clone (.ofOrder a.size order)))
      ((b.filled o s ⟨a.size⟩ old).spanned ⟨a.size⟩ node.span)
  | marked {h : Handle} {m : Mark} (mem : h ∈ a) : Effect a (.mark h m) (.ok .done) (a.update h m.apply)
  | spanned {h : Handle} {span : Span} (mem : h ∈ a) : Effect a (.setSpan h span) (.ok .done) (a.spanned h span)
  | refined {h : Handle} {r : Refinement} {node : Node} {q : Payload} (get : a.node? h = some node)
    (apply : r.apply node.payload = .ok q) :
    Effect a (.refine h r) (.ok .done) (a.update h (Node.mapPayload fun _ => q))

/-- A result of an edit as the answer and the arena left behind. -/
def result : Except TreeError Reply → Arena → EStateM.Result TreeError Arena Reply
  | .ok r, b => .ok r b
  | .error e, b => .error e b

theorem leaves_of_result {e : Edit Reply} {a b : Arena} {r : Except TreeError Reply} (h : e a = result r b) :
    e.leaves a = b := by
  cases r with
  | ok r => exact leaves_of_ok h
  | error err => exact leaves_of_error h

section Runs

variable {a : Arena} (hw : a.WellFormed)

/-- What a command does is an effect if its edit either is refused with the arena as it was, or has an effect. -/
private theorem exists_effect_of_cases {α : Type} {c : Command} {e : Edit α} {f : α → Reply} (hrun : c.run = f <$> e)
    (idle : c.allocates? a = none)
    (h : (∃ err, e a = .error err a) ∨ ∃ x b, e a = .ok x b ∧ Effect a c (.ok (f x)) b) :
    ∃ r b, c.run a = result r b ∧ Effect a c r b := by
  rw [hrun]
  rcases h with ⟨err, h⟩ | ⟨x, b, h, heffect⟩
  · exact ⟨.error err, a, run_map_of_error h f, .refused idle⟩
  · exact ⟨.ok (f x), b, run_map_of_ok h f, heffect⟩

include hw

/-- Every checked command on a well-formed arena has an effect. -/
theorem effect_run {c : Command} (hc : c.isChecked) : ∃ r b, c.run a = result r b ∧ Effect a c r b := by
  cases c with
  | alloc p span =>
    rcases alloc_cases hw p span with ⟨e, -, herror⟩ | ⟨hcheck, -, hok⟩
    · exact ⟨.error e, _, run_map_of_error herror _, .drawn rfl⟩
    · exact ⟨.ok (.node ⟨a.size⟩), _, run_map_of_ok hok _, .allocated hcheck⟩
  | construct k =>
    rcases construct_cases hw k with ⟨e, hplan, herror⟩ | ⟨p, span, hplan, ⟨e, -, herror⟩ | ⟨hcheck, -, hok⟩⟩
    · refine ⟨.error e, a, run_map_of_error herror _, .refused ?_⟩
      rw [allocates?, hplan]
      rfl
    · refine ⟨.error e, _, run_map_of_error herror _, .drawn (p := p) ?_⟩
      rw [allocates?, hplan]
      rfl
    · exact ⟨.ok (.node ⟨a.size⟩), _, run_map_of_ok hok _, .constructed hplan hcheck⟩
  | setChild o s c =>
    refine exists_effect_of_cases (e := Edit.setChild o s c) rfl rfl ?_
    cases c with
    | none =>
      rcases setChild_none_cases hw (o := o) (s := s) with herror | ⟨old, hs, hok⟩
      · exact .inl herror
      · exact .inr ⟨_, _, hok, .emptied hs⟩
    | some c =>
      rcases setChild_some_cases hw (o := o) (s := s) (c := c) with
        herror | ⟨hs, hok⟩ | ⟨old, path, hs, hold, hc, hpath, hcpath, -, hok⟩
      · exact .inl herror
      · exact .inr ⟨_, _, hok, .found hs⟩
      · exact .inr ⟨_, _, hok, .filled hs hold hc hpath hcpath⟩
  | pushChild o s c =>
    refine exists_effect_of_cases (e := Edit.pushChild o s c) rfl rfl ?_
    rcases pushChild_cases hw (o := o) (s := s) (c := c) with herror | ⟨path, hc, hpath, hcpath, -, hok⟩
    · exact .inl herror
    · exact .inr ⟨_, _, hok, .pushed hc hpath hcpath⟩
  | setChildList o s xs =>
    refine exists_effect_of_cases (e := Edit.setChildList o s xs) rfl rfl ?_
    rcases setChildList_cases hw (o := o) (s := s) xs with herror | ⟨cs, path, hs, hpath, hxs, -, hok⟩
    · exact .inl herror
    · exact .inr ⟨_, _, hok, .listed hs hpath hxs⟩
  | detach h =>
    refine exists_effect_of_cases (e := Edit.detach h) rfl rfl ?_
    by_cases hh : h ∈ a
    · exact .inr ⟨_, _, run_detach hw hh, .detached hh⟩
    · exact .inl ⟨_, run_detach_error hh⟩
  | recomputeBounds h =>
    refine exists_effect_of_cases (e := Edit.recomputeBounds h) rfl rfl ?_
    by_cases hh : h ∈ a
    · exact .inr ⟨_, _, run_recomputeBounds hw hh, .recomputed hh⟩
    · exact .inl ⟨_, run_inspect_bind_error (get_eq_error hh) _⟩
  | cloneSubtree n target =>
    refine exists_effect_of_cases (e := Edit.cloneSubtree n target) rfl rfl ?_
    cases target with
    | none =>
      rcases cloneSubtree_none_cases hw n with ⟨e, -, herror⟩ | ⟨order, b, horder, hcopy, hok⟩
      · exact .inl ⟨e, herror⟩
      · exact .inr ⟨_, _, hok, .cloned horder hcopy⟩
    | some target =>
      obtain ⟨o, s⟩ := target
      rcases cloneSubtree_some_cases hw n o s with
        herror | ⟨order, b, node, horder, hcopy, -, ⟨cs, hs, -, hok⟩ | ⟨old, hs, hwb, hok⟩⟩
      · exact .inl herror
      · exact .inr ⟨_, _, hok, .clonedIntoList horder hcopy hs⟩
      · exact .inr ⟨_, _, hok, .clonedIntoSlot horder hcopy hs hwb⟩
  | mark h m =>
    refine exists_effect_of_cases (e := Edit.mark h m) rfl rfl ?_
    rcases modifyNode_cases h m.apply with herror | ⟨hh, hok⟩
    · exact .inl herror
    · exact .inr ⟨_, _, hok, .marked hh⟩
  | setSpan h span =>
    refine exists_effect_of_cases (e := Edit.setSpan h span) rfl rfl ?_
    rcases modifyNode_cases h fun node => { node with span } with herror | ⟨hh, hok⟩
    · exact .inl herror
    · exact .inr ⟨_, _, hok, .spanned hh⟩
  | refine h r =>
    refine exists_effect_of_cases (e := Edit.refine h r) rfl rfl ?_
    by_cases hh : h ∈ a
    · obtain ⟨node, hn⟩ := mem_iff_node?.mp hh
      rw [Edit.refine, run_inspect_bind (payload_eq hn)]
      cases hr : r.apply node.payload with
      | error fault => exact .inl ⟨_, rfl⟩
      | ok q => exact .inr ⟨_, _, run_modifyPayload hh _, .refined hn hr⟩
    · exact .inl ⟨_, run_inspect_bind_error (payload_eq_error hh) _⟩
  | overwritePayload => cases hc

/-- What a command leaves behind is what its effect says. -/
theorem effect_leaves {c : Command} (hc : c.isChecked) : ∃ r, c.run a = result r (c.run.leaves a) ∧
    Effect a c r (c.run.leaves a) := by
  obtain ⟨r, b, hrun, heffect⟩ := effect_run hw hc
  rw [leaves_of_result hrun]
  exact ⟨r, hrun, heffect⟩

end Runs

end Command

end ScriptTree
