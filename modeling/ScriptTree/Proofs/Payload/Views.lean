import ScriptTree.Proofs.Clone.Copies
import ScriptTree.Proofs.Edit.Moves
import ScriptTree.Proofs.Payload.Opening

/-!
# The two views of a payload

A payload is read through `childSlots` and written through `openSlots`.  Both show the same slots (`slots_openSlots`), and
no slot depends on what another one takes (`independent_openSlots`), so writing slot by slot comes to the writes of whole
payloads that edits are made of.

What a payload holds besides its children is its variant and its attributes; together with what it shows to a reader they
are all of it (`ext_views`).  No write touches them, nor the names, the shapes and the order of the slots (`Refilled`),
and a write at one slot leaves the contents of the others alone (`WritesAt`).  The laws are put together in
`views_agree`.
-/

namespace ScriptTree

attribute [ext] Operation FunctionParts

/-! ### What a payload holds besides its children -/

inductive Attribute
  | operator (token : Token)
  | offset (offset : Int)
  | brackets (brackets : Brackets)
  | functionType (type : FunctionType)
  | functionForm (form : FunctionForm)
  | declarationKind (kind : DeclarationKind)
  | keyword (keyword : Keyword)
  | flag (value : Bool)
  | text (text : String)
  | quote (quote : Char)
  | number (value : Binary64)
deriving DecidableEq, Repr

namespace ChildSlot

/-- The slot without its content: the name and the shape. -/
def blank : ChildSlot → ChildSlot
  | .required s _ => .required s none
  | .optional s _ => .optional s none
  | .list s _ => .list s []

@[simp] theorem blank_overwrite (f : Slot → Option Handle → Option Handle) (g : Slot → List Handle → List Handle)
    (k : ChildSlot) : (k.overwrite f g).blank = k.blank := by
  cases k <;> rfl

@[simp] theorem slot_blank (k : ChildSlot) : k.blank.slot = k.slot := by
  cases k <;> rfl

theorem map_slot_eq_of_blank {ks ls : List ChildSlot} (h : ks.map blank = ls.map blank) : ks.map slot = ls.map slot := by
  have hslot : slot ∘ blank = slot := funext slot_blank
  simpa only [List.map_map, hslot] using congrArg (List.map slot) h

/-- A slot that takes the content of one of the same name and shape becomes that one. -/
theorem overwrite_eq_of_blank {f : Slot → Option Handle → Option Handle} {g : Slot → List Handle → List Handle}
    {k k' : ChildSlot} (hblank : k.blank = k'.blank) (hf : ∀ c, k.single? = some c → ∀ d, f k.slot d = c)
    (hg : ∀ cs, k.list? = some cs → ∀ ds, g k.slot ds = cs) : k'.overwrite f g = k := by
  cases k <;> cases k' <;> simp_all [blank, overwrite, slot, single?, list?]

/-- Exchanging handles leaves the names and the shapes of slots alone. -/
theorem map_blank_relinkSlots (f : Handle → Option Handle) (ks : List ChildSlot) :
    (relinkSlots f ks).1.map blank = ks.map blank := by
  have hblank : ∀ k : ChildSlot, (k.relink f).1.blank = k.blank := fun k => by cases k <;> rfl
  induction ks with
  | nil => rfl
  | cons k ks ih =>
    have hk := hblank k
    rw [relinkSlots]
    rcases hrelink : k.relink f with ⟨k', _ | missing⟩ <;> rw [hrelink] at hk
    · rw [List.map_cons, List.map_cons, ih, hk]
    · rw [List.map_cons, List.map_cons, hk]

end ChildSlot

namespace Payload

/-- What a payload holds besides its children, field by field. -/
def attributes : Payload → List Attribute
  | assignment o | infixExpression o => [.operator o.operator, .offset o.operatorOffset]
  | conditional _ _ _ questionMark colon => [.offset questionMark, .offset colon]
  | elementGet _ _ b | functionCall _ _ b | newExpression _ _ _ b | switchStatement _ _ b | whileLoop _ _ b
  | withStatement _ _ b => [.brackets b]
  | function f =>
    [.functionType f.type, .functionForm f.form, .flag f.isGenerator, .flag f.isExpressionClosure, .brackets f.parens]
  | variableDeclaration kind _ isStatement => [.declarationKind kind, .flag isStatement]
  | unary operator _ afterOperand => [.operator operator, .flag afterOperand]
  | keywordLiteral k => [.keyword k]
  | name identifier => [.text identifier]
  | numberLiteral value raw => [.number value, .text raw]
  | stringLiteral value quote => [.text value, .quote quote]
  | block _ | script _ | switchCase .. | returnStatement _ | throwStatement _ | yieldExpression _ | variableInitializer ..
  | parenthesized _ | empty | expressionStatement _ | objectLiteral _ | objectProperty .. => []

@[simp] theorem attributes_overwrite (f : Slot → Option Handle → Option Handle) (g : Slot → List Handle → List Handle)
    (p : Payload) : (p.overwrite f g).attributes = p.attributes := by
  cases p <;> rfl

/-- Variant, attributes and slots are all that a payload holds. -/
theorem ext_views {p q : Payload} (hvariant : p.variant = q.variant) (hattributes : p.attributes = q.attributes)
    (hslots : p.childSlots = q.childSlots) : p = q := by
  cases p <;> cases q <;> cases hvariant <;>
    simp_all [attributes, childSlots, Operation.ext_iff, FunctionParts.ext_iff]

/-! ### Both views show the same -/

theorem slots_openSlots (p : Payload) : p.openSlots.slots = p.childSlots := by
  cases p <;> rfl

theorem independent_openSlots (p : Payload) : p.openSlots.Independent := by
  cases p <;> simp [openSlots, OpenSlots.Independent, OpenSlots.slots]

theorem nodup_openSlots (p : Payload) : (p.openSlots.slots.map ChildSlot.slot).Nodup := by
  rw [slots_openSlots]
  exact p.nodup_slots

theorem first?_single?_childSlots (p : Payload) (s : Slot) :
    ChildSlot.first? ChildSlot.single? p.childSlots s = p.single? s :=
  ChildSlot.first?_eq ChildSlot.single? p.nodup_slots s

theorem first?_list?_childSlots (p : Payload) (s : Slot) :
    ChildSlot.first? ChildSlot.list? p.childSlots s = p.list? s :=
  ChildSlot.first?_eq ChildSlot.list? p.nodup_slots s

/-- A slot holds a single child or a list, not both. -/
theorem single?_eq_none_or_list?_eq_none (p : Payload) (s : Slot) : p.single? s = none ∨ p.list? s = none := by
  cases h : p.list? s with
  | none => exact .inr rfl
  | some cs => exact .inl (single?_eq_none_of_list? h)

theorem replaceSingle?_openSlots (p : Payload) (s : Slot) (c : Option Handle) :
    p.openSlots.replaceSingle? s c = (p.single? s).map fun old => (old, p.setSingle s c) := by
  rw [OpenSlots.replaceSingle?_eq p.independent_openSlots p.nodup_openSlots, slots_openSlots, first?_single?_childSlots]
  rfl

theorem takeList?_openSlots (p : Payload) (s : Slot) :
    p.openSlots.takeList? s = (p.list? s).map fun old => (old, p.setList s) := by
  rw [OpenSlots.takeList?_eq p.independent_openSlots p.nodup_openSlots, slots_openSlots, first?_list?_childSlots]
  rfl

theorem relink_openSlots (p : Payload) (f : Handle → Option Handle) :
    p.openSlots.relink f = (p.putSlots (relinkSlots f p.childSlots).1, (relinkSlots f p.childSlots).2) := by
  rw [OpenSlots.relink_eq p.independent_openSlots p.nodup_openSlots, slots_openSlots]
  rfl

/-! ### What a write leaves alone -/

/-- `q` is `p` with other contents in its slots. -/
structure Refilled (p q : Payload) : Prop where
  variant_eq : q.variant = p.variant
  attributes_eq : q.attributes = p.attributes
  /-- The slots have the same names and shapes in the same order. -/
  blank_eq : q.childSlots.map ChildSlot.blank = p.childSlots.map ChildSlot.blank

theorem refilled_overwrite (f : Slot → Option Handle → Option Handle) (g : Slot → List Handle → List Handle)
    (p : Payload) : Refilled p (p.overwrite f g) where
  variant_eq := variant_overwrite f g p
  attributes_eq := attributes_overwrite f g p
  blank_eq := by
    have hblank : ChildSlot.blank ∘ ChildSlot.overwrite f g = ChildSlot.blank := funext (ChildSlot.blank_overwrite f g)
    rw [childSlots_overwrite, List.map_map, hblank]

theorem childSlot?_overwrite_eq {f : Slot → Option Handle → Option Handle} {g : Slot → List Handle → List Handle}
    {s : Slot} (hf : ∀ c, f s c = c) (hg : ∀ cs, g s cs = cs) (p : Payload) :
    (p.overwrite f g).childSlot? s = p.childSlot? s := by
  rw [childSlot?_overwrite]
  cases h : p.childSlot? s with
  | none => rfl
  | some k =>
    obtain ⟨-, rfl⟩ := childSlot?_eq_some_iff.mp h
    rw [Option.map_some, ChildSlot.overwrite_eq_self hf hg]

/-- Slots of the right names and shapes are what a payload shows after they were put into it. -/
theorem childSlots_putSlots {p : Payload} {ks : List ChildSlot}
    (h : ks.map ChildSlot.blank = p.childSlots.map ChildSlot.blank) : (p.putSlots ks).childSlots = ks := by
  have hnd : (ks.map ChildSlot.slot).Nodup := ChildSlot.map_slot_eq_of_blank h ▸ p.nodup_slots
  have hlength : ks.length = p.childSlots.length := by simpa using congrArg List.length h
  rw [putSlots, childSlots_overwrite]
  refine List.ext_getElem (by rw [List.length_map, hlength]) fun i hp hk => ?_
  have hp : i < p.childSlots.length := hlength ▸ hk
  have hblank : ks[i].blank = p.childSlots[i].blank := by
    simpa [hp, hk] using congrArg (·[i]?) h
  have hfind := ChildSlot.find?_slot_of_mem hnd (List.getElem_mem hk)
  rw [List.getElem_map]
  refine ChildSlot.overwrite_eq_of_blank hblank ?_ ?_
  · intro c hc d
    simp only [hfind, Option.bind_some, hc, Option.getD_some]
  · intro cs hcs ds
    simp only [hfind, Option.bind_some, hcs, Option.getD_some]

/-- A payload is restored by the contents that were read before it was written to. -/
theorem Refilled.putSlots_eq {p q : Payload} (h : Refilled p q) : q.putSlots p.childSlots = p := by
  have hback : Refilled q (q.putSlots p.childSlots) := refilled_overwrite _ _ q
  refine ext_views ?_ ?_ ?_
  · rw [hback.variant_eq, h.variant_eq]
  · rw [hback.attributes_eq, h.attributes_eq]
  · exact childSlots_putSlots h.blank_eq.symm

/-! ### Writes at one slot -/

/-- The laws of reading and writing one slot of a payload. -/
structure WritesAt {β : Type} (s : Slot) (p : Payload) (read : Payload → Option β) (write : Payload → β → Payload) :
    Prop where
  refilled : ∀ x, Refilled p (write p x)
  elsewhere : ∀ x t, t ≠ s → (write p x).childSlot? t = p.childSlot? t
  read_write : ∀ x, read (write p x) = some x
  write_read : ∀ old, read p = some old → write p old = p
  restore : ∀ x old, read p = some old → write (write p x) old = p

theorem writesAt_setSingle {p : Payload} {s : Slot} (h : (p.single? s).isSome) :
    WritesAt s p (·.single? s) (·.setSingle s ·) where
  refilled _ := refilled_overwrite _ _ p
  elsewhere _ _ ht := childSlot?_overwrite_eq (fun _ => if_neg ht) (fun _ => rfl) p
  read_write x := by
    obtain ⟨old, hold⟩ := Option.isSome_iff_exists.mp h
    rw [setSingle, single?_overwrite, hold, Option.map_some, if_pos rfl]
  write_read _ hold := setSingle_self hold
  restore x old hold := by rw [setSingle_setSingle, setSingle_self hold]

theorem writesAt_setList {p : Payload} {s : Slot} (h : (p.list? s).isSome) :
    WritesAt s p (·.list? s) (·.setList s ·) where
  refilled _ := refilled_overwrite _ _ p
  elsewhere _ _ ht := childSlot?_overwrite_eq (fun _ => rfl) (fun _ => if_neg ht) p
  read_write x := by
    obtain ⟨old, hold⟩ := Option.isSome_iff_exists.mp h
    rw [setList, list?_overwrite, hold, Option.map_some, if_pos rfl]
  write_read _ hold := setList_self hold
  restore x old hold := by rw [setList_setList, setList_self hold]

/-! ### Exchanging all handles -/

theorem childSlots_relinked (p : Payload) (f : Handle → Option Handle) :
    (p.putSlots (relinkSlots f p.childSlots).1).childSlots = (relinkSlots f p.childSlots).1 :=
  childSlots_putSlots (ChildSlot.map_blank_relinkSlots f p.childSlots)

theorem relink_openSlots_of_total (p : Payload) (f : Handle → Handle) :
    p.openSlots.relink (fun h => some (f h)) = (p.renamed f, none) := by
  rw [relink_openSlots, relinkSlots_eq p.childSlots fun _ _ _ _ => rfl, putSlots_renamed]

end Payload

namespace Edit

open Arena

variable {a : Arena} {o : Handle} {p : Payload}

theorem run_replaceSingle_openSlots (hp : a.payload o = .ok p) (s : Slot) (c : Option Handle) :
    replaceSingle o s c a =
      match p.openSlots.replaceSingle? s c with
      | some (old, q) => .ok old (a.update o (Node.mapPayload fun _ => q))
      | none => .error (Arena.noSuchSlot p s) a := by
  obtain ⟨node, hn, rfl⟩ := payload_eq_ok_iff.mp hp
  rw [Payload.replaceSingle?_openSlots]
  cases hs : node.payload.single? s with
  | none =>
    have hchild : a.child o s = .error (Arena.noSuchSlot node.payload s) := by
      rw [Arena.child, hp]
      simp only [bind, Except.bind, hs]
      rfl
    rw [replaceSingle, run_inspect_bind_error hchild]
    rfl
  | some old =>
    rw [run_replaceSingle ⟨node, hn, hs⟩, Option.map_some]
    exact congrArg (EStateM.Result.ok old) (update_congr hn rfl)

theorem run_relink_openSlots (hp : a.payload o = .ok p) (map : CloneMap) :
    relink map o a =
      match p.openSlots.relink map.get? with
      | (q, some missing) => .error (.unknownNode missing) (a.update o (Node.mapPayload fun _ => q))
      | (q, none) => setParentEach o q.handles (a.update o (Node.mapPayload fun _ => q)) := by
  obtain ⟨node, hn, rfl⟩ := payload_eq_ok_iff.mp hp
  have hslots := node.payload.childSlots_relinked map.get?
  rw [relink, run_inspect_bind hp, Payload.relink_openSlots]
  generalize relinkSlots map.get? node.payload.childSlots = relinked at hslots ⊢
  obtain ⟨slots, missing⟩ := relinked
  have hupdate : a.update o (Node.mapPayload (·.putSlots slots)) =
      a.update o (Node.mapPayload fun _ => node.payload.putSlots slots) := update_congr hn rfl
  show (modifyPayload o (·.putSlots slots) >>= _) a = _
  rw [run_bind_of_ok (run_modifyPayload (mem_of_node? hn) _), hupdate]
  cases missing with
  | some h => rfl
  | none =>
    simp only [Payload.handles, hslots]

end Edit

namespace Payload

/-! ### All laws -/

/-- The two views of a payload list the same slots and no name twice, and a slot is found by its name and shape.  Writing
slot by slot comes to the writes that edits are made of, and these obey the laws of reading and writing. -/
theorem views_agree (p : Payload) :
    (p.openSlots.slots = p.childSlots ∧ (p.childSlots.map ChildSlot.slot).Nodup) ∧
    (∀ s, ChildSlot.first? ChildSlot.single? p.childSlots s = p.single? s ∧
      ChildSlot.first? ChildSlot.list? p.childSlots s = p.list? s ∧ (p.single? s = none ∨ p.list? s = none)) ∧
    (∀ s c, p.openSlots.replaceSingle? s c = (p.single? s).map fun old => (old, p.setSingle s c)) ∧
    (∀ s, (p.single? s).isSome → WritesAt s p (·.single? s) (·.setSingle s ·)) ∧
    (∀ s, p.openSlots.takeList? s = (p.list? s).map fun old => (old, p.setList s)) ∧
    (∀ s, (p.list? s).isSome → WritesAt s p (·.list? s) (·.setList s ·)) ∧
    (∀ f, Refilled p (p.openSlots.relink f).1 ∧
      ((p.openSlots.relink f).1.childSlots, (p.openSlots.relink f).2) = relinkSlots f p.childSlots) ∧
    (∀ f, p.openSlots.relink (fun h => some (f h)) = (p.renamed f, none) ∧
      (p.renamed f).childSlots = p.childSlots.map (ChildSlot.renamed f)) ∧
    (∀ q, Refilled p q → q.putSlots p.childSlots = p) ∧
    ∀ (a : Arena) (o : Handle), a.payload o = .ok p →
      (∀ s c, Edit.replaceSingle o s c a =
        match p.openSlots.replaceSingle? s c with
        | some (old, q) => .ok old (a.update o (Node.mapPayload fun _ => q))
        | none => .error (Arena.noSuchSlot p s) a) ∧
      ∀ map, Edit.relink map o a =
        match p.openSlots.relink map.get? with
        | (q, some missing) => .error (.unknownNode missing) (a.update o (Node.mapPayload fun _ => q))
        | (q, none) => Edit.setParentEach o q.handles (a.update o (Node.mapPayload fun _ => q)) := by
  refine ⟨⟨p.slots_openSlots, p.nodup_slots⟩, ?_, p.replaceSingle?_openSlots, fun _ => writesAt_setSingle,
    p.takeList?_openSlots, fun _ => writesAt_setList, ?_, ?_, fun _ => Refilled.putSlots_eq, ?_⟩
  · intro s
    exact ⟨p.first?_single?_childSlots s, p.first?_list?_childSlots s, p.single?_eq_none_or_list?_eq_none s⟩
  · intro f
    rw [relink_openSlots]
    exact ⟨refilled_overwrite _ _ p, by rw [childSlots_relinked]⟩
  · intro f
    exact ⟨p.relink_openSlots_of_total f, p.childSlots_renamed f⟩
  · intro a o hp
    exact ⟨Edit.run_replaceSingle_openSlots hp, Edit.run_relink_openSlots hp⟩

theorem views_agree_newExpression :
    let p : Payload := .newExpression (some ⟨1⟩) [⟨2⟩, ⟨3⟩] none {}
    let a := (Arena.ofGenerator (.ofPolicy {})).push { id := 1, span := ⟨0, 9⟩, payload := p }
    ((p.single? .initializer).isSome ∧
      WritesAt .initializer p (·.single? .initializer) (·.setSingle .initializer ·)) ∧
    ((p.list? .arguments).isSome ∧ WritesAt .arguments p (·.list? .arguments) (·.setList .arguments ·)) ∧
    (Refilled p p.emptied ∧ p.emptied.putSlots p.childSlots = p) ∧
    a.payload ⟨0⟩ = .ok p ∧
    Edit.replaceSingle ⟨0⟩ .initializer (some ⟨4⟩) a =
      .ok none (a.update ⟨0⟩ (Node.mapPayload fun _ => .newExpression (some ⟨1⟩) [⟨2⟩, ⟨3⟩] (some ⟨4⟩) {})) := by
  intro p a
  obtain ⟨-, -, -, hsingle, -, hlist, -, -, hrestore, harena⟩ := p.views_agree
  have hempty : Refilled p p.emptied := refilled_overwrite _ _ p
  exact ⟨⟨rfl, hsingle .initializer rfl⟩, ⟨rfl, hlist .arguments rfl⟩, ⟨hempty, hrestore _ hempty⟩, rfl,
    (harena a ⟨0⟩ rfl).1 .initializer (some ⟨4⟩)⟩

end Payload

end ScriptTree
