import ScriptTree.Proofs.External.Export

/-!
# The export depends on the exported content

Offsets of punctuation, the kind of a function and the place of an operator or a declaration are read by no field of an
external object: what a payload exports is `Payload.exported`.  A node whose payload exports the same as that of another
one, up to an exchange of the children, and that has the same labels and the same results of analyses has the same object
around the same forms (`Mirrors.nodeForm_eq`).  So two subtrees that agree node by node in this content have the same
external form, wherever their nodes are kept and whatever stands around them (`toExternal_eq_of_content`).
-/

namespace ScriptTree

namespace Payload

/-! ### What a payload exports -/

/-- The payload with all attributes that the export does not read exchanged for fixed ones. -/
def exported : Payload → Payload
  | assignment o => assignment { o with operatorOffset := unknownOffset }
  | infixExpression o => infixExpression { o with operatorOffset := unknownOffset }
  | conditional test consequent alternate _ _ => conditional test consequent alternate unknownOffset unknownOffset
  | elementGet target element _ => elementGet target element {}
  | function f => function { f with type := .statement, form := .function, parens := {} }
  | functionCall target arguments _ => functionCall target arguments {}
  | newExpression target arguments initializer _ => newExpression target arguments initializer {}
  | switchStatement discriminant cases _ => switchStatement discriminant cases {}
  | whileLoop condition body _ => whileLoop condition body {}
  | withStatement object statement _ => withStatement object statement {}
  | variableDeclaration kind declarators _ => variableDeclaration kind declarators false
  | unary operator operand _ => unary operator operand false
  | p => p

/-- The identifier of a name. -/
def identifier? : Payload → Option String
  | name identifier => some identifier
  | _ => none

variable (p : Payload) (f : Handle → Handle)

@[simp] theorem shape_exported : p.exported.shape = p.shape := by cases p <;> rfl

@[simp] theorem childSlots_exported : p.exported.childSlots = p.childSlots := by cases p <;> rfl

@[simp] theorem identifier?_exported : p.exported.identifier? = p.identifier? := by cases p <;> rfl

@[simp] theorem shape_renamed : (p.renamed f).shape = p.shape := by cases p <;> rfl

@[simp] theorem identifier?_renamed : (p.renamed f).identifier? = p.identifier? := by cases p <;> rfl

theorem single?_renamed (slot : Slot) : (p.renamed f).single? slot = (p.single? slot).map (Option.map f) :=
  single?_overwrite _ _ p slot

theorem list?_renamed (slot : Slot) : (p.renamed f).list? slot = (p.list? slot).map (List.map f) :=
  list?_overwrite _ _ p slot

variable {p f} {q : Payload}

theorem shape_eq_of_exported (h : q.exported = (p.renamed f).exported) : q.shape = p.shape := by
  rw [← q.shape_exported, h, shape_exported, shape_renamed]

theorem childSlots_eq_of_exported (h : q.exported = (p.renamed f).exported) :
    q.childSlots = (p.renamed f).childSlots := by
  rw [← q.childSlots_exported, h, childSlots_exported]

theorem identifier?_eq_of_exported (h : q.exported = (p.renamed f).exported) : q.identifier? = p.identifier? := by
  rw [← q.identifier?_exported, h, identifier?_exported, identifier?_renamed]

theorem single?_eq_of_exported (h : q.exported = (p.renamed f).exported) (slot : Slot) :
    q.single? slot = (p.single? slot).map (Option.map f) := by
  rw [← single?_renamed, single?, childSlot?, childSlots_eq_of_exported h]
  rfl

theorem list?_eq_of_exported (h : q.exported = (p.renamed f).exported) (slot : Slot) :
    q.list? slot = (p.list? slot).map (List.map f) := by
  rw [← list?_renamed, list?, childSlot?, childSlots_eq_of_exported h]
  rfl

theorem slot_of_functionName_mem {key : String} {slot : Slot} (h : .functionName key slot ∈ p.shape.fields) :
    slot = .name := by
  cases p with
  | keywordLiteral k =>
    cases k <;> simp [shape, Keyword.externalFields, Keyword.externalFields.literal, ExternalShape.fields] at h
  | function =>
    simp only [shape, ExternalShape.fields, shape.type, List.mem_cons, ExternalField.functionName.injEq, reduceCtorEq,
      List.not_mem_nil, or_false, false_or] at h
    exact h.2
  | _ => simp [shape, ExternalShape.fields, shape.type] at h

end Payload

namespace Arena

/-- The identifier of a node that is a name. -/
def identifier? (a : Arena) (h : Handle) : Option String := (a.node? h).bind (·.payload.identifier?)

theorem identifier?_eq {a : Arena} {h : Handle} {node : Node} (hn : a.node? h = some node) :
    a.identifier? h = node.payload.identifier? := by
  rw [identifier?, hn, Option.bind_some]

theorem functionId_eq (a : Arena) (function : Node) (name : Option Handle) :
    a.functionId function name =
      match name.bind a.identifier? with
      | some identifier =>
        if identifier.isEmpty then
          .null
        else
          .object
            [("type", .string "Identifier"), ("name", .string identifier),
              ("change", .string function.change.change.label), ("change-noprop", .string function.change.ownChange.label)]
      | none => .null := by
  cases name with
  | none => rfl
  | some c =>
    rw [functionId, Option.bind_some, Option.bind_some, identifier?, node?]
    cases a.nodes[c.index]? with
    | none => rfl
    | some node =>
      rw [Option.map_some, Option.bind_some]
      cases node.payload <;> rfl

/-! ### One node -/

namespace Subject

/-- The node of `t` has in its object what the node of `s` has there, with `f c` for every child `c`. -/
structure Mirrors (s t : Subject) (f : Handle → Handle) : Prop where
  payload : t.node.payload.exported = (s.node.payload.renamed f).exported
  change : t.node.change = s.node.change
  criteria : t.provider.criteria t.arena t.handle = s.provider.criteria s.arena s.handle
  dependencies : t.provider.dependencies t.arena t.handle = s.provider.dependencies s.arena s.handle
  name : ∀ c, s.node.payload.single? .name = some (some c) → t.arena.identifier? (f c) = s.arena.identifier? c

namespace Mirrors

variable {s t : Subject} {f : Handle → Handle} (h : s.Mirrors t f)

include h

theorem content_eq (slot : Slot) : t.content slot = (s.content slot).map f := by
  rw [content, Payload.single?_eq_of_exported h.payload, content]
  cases s.node.payload.single? slot <;> rfl

theorem functionId_eq : t.arena.functionId t.node (t.content .name) = s.arena.functionId s.node (s.content .name) := by
  have hname : (t.content .name).bind t.arena.identifier? = (s.content .name).bind s.arena.identifier? := by
    rw [h.content_eq, Option.bind_map]
    refine Option.bind_congr fun c hc => h.name c ?_
    rw [content, Option.getD_eq_iff] at hc
    exact hc.resolve_right fun hnone => Option.some_ne_none c hnone.2.symm
  rw [Arena.functionId_eq, Arena.functionId_eq, hname, h.change]

theorem trailerEntries_eq (trailer : Trailer) : t.trailerEntries trailer = s.trailerEntries trailer := by
  cases trailer <;> simp only [trailerEntries, h.change]

theorem fieldForms_eq {field : ExternalField} (hfield : field ∈ s.node.payload.shape.fields) (form : Handle → Json) :
    t.fieldForms form field = s.fieldForms (form ∘ f) field := by
  cases field with
  | constant | omitted => rfl
  | required key slot | optional key slot => rw [fieldForms, fieldForms, h.content_eq, Option.map_map]
  | list key slot =>
    rw [fieldForms, fieldForms, Payload.list?_eq_of_exported h.payload]
    cases s.node.payload.list? slot with
    | none => rfl
    | some cs => rw [Option.map_some, Option.getD_some, Option.getD_some, List.map_map]
  | functionName key slot =>
    obtain rfl := Payload.slot_of_functionName_mem hfield
    rw [fieldForms, fieldForms, h.functionId_eq]
  | analysis => rw [fieldForms, fieldForms, h.criteria, h.dependencies]

/-- Two nodes of the same content have the same object around the same forms. -/
theorem nodeForm_eq {form form' : Handle → Json} (hform : ∀ c ∈ s.node.payload.handles, form' (f c) = form c) :
    t.arena.nodeForm t.provider form' t.handle t.node = s.arena.nodeForm s.provider form s.handle s.node := by
  have hforms : s.arena.nodeForm s.provider (form' ∘ f) s.handle s.node =
      s.arena.nodeForm s.provider form s.handle s.node := Subject.nodeForm_congr hform
  have hfields : ∀ field ∈ s.node.payload.shape.fields, t.fieldForms form' field = s.fieldForms (form' ∘ f) field :=
    fun _ hfield => h.fieldForms_eq hfield form'
  rw [← hforms, Subject.nodeForm_eq, Subject.nodeForm_eq, Payload.shape_eq_of_exported h.payload]
  cases hshape : s.node.payload.shape with
  | transparent slot => simp only [h.content_eq, Option.map_map]
  | object fields trailer =>
    rw [hshape, ExternalShape.fields] at hfields
    show Json.object (fields.flatMap (t.fieldForms form') ++ _) = .object (fields.flatMap (s.fieldForms (form' ∘ f)) ++ _)
    rw [List.flatMap_def, List.flatMap_def, List.map_congr_left hfields, h.trailerEntries_eq]

end Mirrors

end Subject

/-! ### Subtrees -/

/-- Along `f` the nodes `xs` of `a` have in `b` the content that the export reads, each with its children in the same
slots and the same order, and with the same labels and the same results of analyses. -/
structure Mirrors (a b : Arena) (p q : AnalysisProvider) (f : Handle → Handle) (xs : List Handle) : Prop where
  content : ∀ x ∈ xs, ∃ node node', a.get x = .ok node ∧ b.get (f x) = .ok node' ∧
    node'.payload.exported = (node.payload.renamed f).exported ∧ node'.change = node.change
  criteria : ∀ x ∈ xs, q.criteria b (f x) = p.criteria a x
  dependencies : ∀ x ∈ xs, q.dependencies b (f x) = p.dependencies a x

namespace Mirrors

variable {a b : Arena} {p q : AnalysisProvider} {f : Handle → Handle} {hs xs : List Handle}
  (h : a.Mirrors b p q f xs)

include h

theorem identifier?_image {x : Handle} (hx : x ∈ xs) : b.identifier? (f x) = a.identifier? x := by
  obtain ⟨node, node', hn, hn', hpayload, -⟩ := h.content x hx
  rw [identifier?_eq (get_eq_ok_iff.mp hn), identifier?_eq (get_eq_ok_iff.mp hn')]
  exact Payload.identifier?_eq_of_exported hpayload

theorem listing (hl : a.Listing hs xs) : b.Listing (hs.map f) (xs.map f) := by
  refine hl.map fun x hx cs hc => ?_
  obtain ⟨node, node', hn, hn', hpayload, -⟩ := h.content x hx
  obtain ⟨node₀, hn₀, hole, rfl⟩ := children_eq_ok_iff.mp hc
  obtain rfl : node₀ = node := Except.ok.inj (hn₀.symm.trans hn)
  have hslots := Payload.childSlots_eq_of_exported hpayload
  refine children_eq_ok_iff.mpr ⟨node', hn', ?_, ?_⟩
  · rw [Payload.firstHole?, hslots, ← Payload.firstHole?, Payload.firstHole?_renamed, hole]
  · rw [← Payload.handles_renamed, Payload.handles, Payload.handles, hslots]

/-- The recursive forms of subtrees of the same content are the same. -/
theorem render_eq (ha : a.WellFormed) (hb : b.WellFormed) (hl : a.Listing hs xs) :
    ∀ x ∈ xs, b.render q (f x) = a.render p x := by
  refine hl.children_induction fun x hx ih => ?_
  obtain ⟨node, node', hn, hn', hpayload, hchange⟩ := h.content x hx
  have hn : a.node? x = some node := get_eq_ok_iff.mp hn
  have hn' : b.node? (f x) = some node' := get_eq_ok_iff.mp hn'
  obtain ⟨zs, hz⟩ := hl.exists_listing hx
  obtain ⟨ys, hy⟩ := (h.listing hl).exists_listing (List.mem_map_of_mem hx)
  rw [handlesAt_eq hn] at ih
  have hmirrors : Subject.Mirrors { arena := a, provider := p, handle := x, node }
      { arena := b, provider := q, handle := f x, node := node' } f := by
    refine ⟨hpayload, hchange, h.criteria x hx, h.dependencies x hx, fun c hc => h.identifier?_image ?_⟩
    refine hl.handlesAt_subset hx ?_
    rw [handlesAt_eq hn]
    exact Payload.mem_handles_of_single? hc
  rw [ha.render_eq hz hn, hb.render_eq hy hn']
  exact hmirrors.nodeForm_eq ih

theorem toExternal_eq (ha : a.WellFormed) (hb : b.WellFormed) (hl : a.Listing hs xs) {x : Handle} (hx : x ∈ xs) :
    ∃ form, a.toExternal p x = .ok form ∧ b.toExternal q (f x) = .ok form := by
  obtain ⟨zs, hz⟩ := hl.exists_listing hx
  obtain ⟨ys, hy⟩ := (h.listing hl).exists_listing (List.mem_map_of_mem hx)
  exact ⟨_, ha.toExternal_eq hz, by rw [hb.toExternal_eq hy, h.render_eq ha hb hl x hx]⟩

end Mirrors

end Arena

/-! ### Reachable arenas -/

namespace Workspace

/-- Subtrees of the same content have the same external form, in one arena or in two, which may be arenas of different
workspaces.  Nothing is asked of what the export does not read, and nothing of nodes outside the subtrees.  As the nodes
of the second subtree are listed in the order of their originals, `f` is one to one between the two. -/
theorem toExternal_eq_of_content {w w' : Workspace} (hw : w.Reachable) (hw' : w'.Reachable) {i j : Nat} {a b : Arena}
    (ha : w.arena? i = some a) (hb : w'.arena? j = some b) {r : Handle} {xs : List Handle}
    (hr : a.preOrder r = .ok xs) {p q : AnalysisProvider} {f : Handle → Handle} (h : a.Mirrors b p q f xs) :
    b.preOrder (f r) = .ok (xs.map f) ∧ ∃ form, a.toExternal p r = .ok form ∧ b.toExternal q (f r) = .ok form := by
  have hwa := hw.wellFormed.arena ha
  have hwb := hw'.wellFormed.arena hb
  have hl := Arena.listing_of_preOrder hr
  exact ⟨hwb.preOrder_eq_ok_iff.mpr (h.listing hl), h.toExternal_eq hwa hwb hl (hl.subset List.mem_cons_self)⟩

/-- A function that stands as a statement, and a getter with the same body elsewhere. -/
def functionsRun : List Action :=
  [.addArena {}, .command 0 (.alloc (.block []) { position := 12, length := 2 }),
    .command 0 (.alloc (.function { body := some ⟨0⟩, parens := { opening := 9, closing := 10 } })
      { position := 0, length := 14 }),
    .command 0 (.alloc (.block []) { position := 26, length := 2 }),
    .command 0 (.alloc (.function { body := some ⟨2⟩, type := .expression, form := .getter })
      { position := 20, length := 8 })]

/-- The two functions of the run, with an analysis that tells nodes apart by their numbers in different ways. -/
theorem toExternal_eq_of_content_functionsRun :
    ∃ a form, (({} : Workspace).performAll functionsRun).arena? 0 = some a ∧
      a.toExternal { criteria := fun _ h => .integer h.index, dependencies := fun _ _ => .null } ⟨1⟩ = .ok form ∧
      a.toExternal { criteria := fun _ h => .integer (h.index - 2), dependencies := fun _ _ => .null } ⟨3⟩ = .ok form := by
  have hreach : (({} : Workspace).performAll functionsRun).Reachable := ⟨functionsRun, by decide, rfl⟩
  obtain ⟨a, ha, hlisting, hmirrors⟩ : ∃ a, (({} : Workspace).performAll functionsRun).arena? 0 = some a ∧
      a.Listing [⟨1⟩] [⟨1⟩, ⟨0⟩] ∧
      a.Mirrors a { criteria := fun _ h => .integer h.index, dependencies := fun _ _ => .null }
        { criteria := fun _ h => .integer (h.index - 2), dependencies := fun _ _ => .null }
        (fun h => ⟨h.index + 2⟩) [⟨1⟩, ⟨0⟩] := by
    refine ⟨_, rfl, .cons rfl (.cons rfl .nil .nil) .nil, ?_, ?_, ?_⟩
    · intro x hx
      rcases List.mem_pair.mp hx with rfl | rfl
      · exact ⟨_, _, rfl, rfl, rfl, rfl⟩
      · exact ⟨_, _, rfl, rfl, rfl, rfl⟩
    · intro x _
      simp
    · exact fun _ _ => rfl
  have horder := (hreach.wellFormed.arena ha).preOrder_eq_ok_iff.mpr hlisting
  obtain ⟨-, form, hform, hform'⟩ := toExternal_eq_of_content hreach hreach ha ha horder hmirrors
  exact ⟨a, form, ha, hform, hform'⟩

end Workspace

end ScriptTree
