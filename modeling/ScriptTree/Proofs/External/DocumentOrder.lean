import ScriptTree.Proofs.External.Content

/-!
# The export in document order

Read from front to back, an exported document has the objects of the nodes in the order of a walk.  What is missing is
said by three slots and one variant: a parenthesized node leaves its place to the node inside, the member expression of a
function and the initializer of a `new` expression are left out with all that is below them, and the name of a function
is replaced by an identifier with the labels of the function, or by nothing (`itemsAt`).

For one node the objects inside its object come from its slots, in the order of the slots (`Subject.objects_nodeForm`).
The walk goes down by the same slots, so both orders agree on subtrees, by induction on the listing
(`Listing.forall₂_itemsAt`).
-/

namespace ScriptTree

/-! ### The objects of a value -/

namespace Json

mutual

/-- The objects of a value as they begin in its text, each before those inside it. -/
def objects : Json → List Json
  | array items => objectsOfItems items
  | object fields => object fields :: objectsOfFields fields
  | _ => []

def objectsOfItems : List Json → List Json
  | [] => []
  | item :: rest => item.objects ++ objectsOfItems rest

def objectsOfFields : List (String × Json) → List Json
  | [] => []
  | (_, value) :: rest => value.objects ++ objectsOfFields rest

end

@[simp] theorem objects_array (items : List Json) : (array items).objects = items.flatMap objects := by
  rw [objects]
  induction items with
  | nil => rfl
  | cons item rest ih => rw [objectsOfItems, ih, List.flatMap_cons]

@[simp] theorem objects_object (fields : List (String × Json)) :
    (object fields).objects = object fields :: fields.flatMap fun f => f.2.objects := by
  rw [objects]
  induction fields with
  | nil => rfl
  | cons f rest ih => rw [objectsOfFields, List.flatMap_cons, ← List.cons.inj ih |>.2]

@[simp] theorem objects_null : null.objects = [] := rfl

@[simp] theorem objects_bool (b : Bool) : (bool b).objects = [] := rfl

@[simp] theorem objects_string (s : String) : (string s).objects = [] := rfl

@[simp] theorem objects_ofString? (s : Option String) : (ofString? s).objects = [] := by cases s <;> rfl

@[simp] theorem objects_ofBinary64 (x : Binary64) : (ofBinary64 x).objects = [] := by
  unfold ofBinary64
  repeat' split
  all_goals rfl

def keys : Json → List String
  | object fields => fields.map Prod.fst
  | _ => []

end Json

/-! ### The object of a node -/

namespace Variant

/-- The mark at the end of the objects of a variant; parenthesized nodes have no objects. -/
def trailer? : Variant → Option Trailer
  | parenthesized => none
  | assignment | elementGet | switchStatement | switchCase | returnStatement | yieldExpression | keywordLiteral | empty
  | name | numberLiteral | stringLiteral | objectLiteral | objectProperty => some .moved
  | infixExpression | conditional | function | functionCall | newExpression | block | script | throwStatement | whileLoop
  | withStatement | variableDeclaration | variableInitializer | unary | expressionStatement => some .ownChange

/-- The slots that no form in the object is taken from: the name and the member expression of a function, and the
initializer of a `new` expression. -/
def leavesOut : Variant → Slot → Bool
  | function, .name | function, .memberExpr | newExpression, .initializer => true
  | _, _ => false

end Variant

namespace Trailer

def key : Trailer → String
  | moved => "moved"
  | ownChange => "change-noprop"

theorem perm_keys {trailer other : Trailer} (h : other ≠ trailer) :
    ["change", "moved", "change-noprop"].Perm ["change", trailer.key, other.key] := by
  cases trailer <;> cases other <;> first | exact absurd rfl h | decide

theorem sublist_keys (trailer : Trailer) : ["change", trailer.key].Sublist ["change", "moved", "change-noprop"] := by
  cases trailer <;> decide

end Trailer

namespace Node

/-- The value of a mark for a node. -/
def markValue (node : Node) : Trailer → String
  | .moved => if node.change.moved then "true" else "false"
  | .ownChange => node.change.ownChange.label

/-- The value is an object with `type` first and the change label of the node and the mark of its variant last.  No key
occurs twice, and the other mark does not occur. -/
def HasObject (node : Node) (object : Json) : Prop :=
  ∃ (type : String) (fields : List (String × Json)) (trailer : Trailer),
    object = .object
      (("type", .string type) :: fields ++
        [("change", .string node.change.change.label), (trailer.key, .string (node.markValue trailer))]) ∧
    node.payload.variant.trailer? = some trailer ∧ object.keys.Nodup ∧
    ∀ other : Trailer, other ≠ trailer → other.key ∉ object.keys

/-- It is enough to know that the keys in front of the marks are distinct, and none of them is a mark. -/
theorem hasObject_of_keys {node : Node} {type : String} {fields : List (String × Json)} (trailer : Trailer)
    (htrailer : node.payload.variant.trailer? = some trailer)
    (hkeys : ("type" :: fields.map Prod.fst ++ ["change", "moved", "change-noprop"]).Nodup) :
    node.HasObject (.object
      (("type", .string type) :: fields ++
        [("change", .string node.change.change.label), (trailer.key, .string (node.markValue trailer))])) := by
  have hobject : (Json.object (("type", .string type) :: fields ++
      [("change", .string node.change.change.label), (trailer.key, .string (node.markValue trailer))])).keys =
        "type" :: fields.map Prod.fst ++ ["change", trailer.key] := by
    simp [Json.keys]
  refine ⟨type, fields, trailer, rfl, htrailer, ?_, fun other hother => ?_⟩
  · rw [hobject]
    exact hkeys.sublist (trailer.sublist_keys.append_left _)
  · rw [hobject]
    -- the two marks are distinct from each other and from all keys in front of them
    have hmarks : ("type" :: fields.map Prod.fst ++ ["change", trailer.key] ++ [other.key]).Nodup := by
      rw [List.append_assoc]
      exact ((Trailer.perm_keys hother).append_left _).nodup hkeys
    exact fun hmem => (List.nodup_append.mp hmarks).2.2 _ hmem _ List.mem_cons_self rfl

end Node

namespace Arena.Subject

variable (s : Subject) (form : Handle → Json)

theorem hasObject_nodeForm (h : s.node.payload.variant ≠ .parenthesized) :
    s.node.HasObject (s.arena.nodeForm s.provider form s.handle s.node) := by
  obtain ⟨a, provider, h, ⟨id, span, parent, payload, change, fixed⟩⟩ := s
  cases payload with
  | parenthesized => exact absurd rfl h
  | keywordLiteral k => cases k <;> exact Node.hasObject_of_keys .moved rfl (by simp)
  | assignment | elementGet | switchStatement | switchCase | returnStatement | yieldExpression | empty | name
  | numberLiteral | stringLiteral | objectLiteral | objectProperty =>
    exact Node.hasObject_of_keys .moved rfl (by simp)
  | _ => exact Node.hasObject_of_keys .ownChange rfl (by simp [nodeForm.analysis])

/-- What the object of a node has in the place of each child in a slot. -/
def partObjects (slot : Slot) : Handle → List Json :=
  if s.node.payload.variant.leavesOut slot then
    if slot = .name then fun c => (s.arena.functionId s.node (some c)).objects else fun _ => []
  else
    fun c => (form c).objects

/-- The objects inside the object of a node are those in the places of its children, slot by slot. -/
theorem objects_nodeForm (h : s.provider = .none) :
    (s.arena.nodeForm s.provider form s.handle s.node).objects =
      (if s.node.payload.variant = .parenthesized then [] else [s.arena.nodeForm s.provider form s.handle s.node]) ++
        s.node.payload.childSlots.flatMap fun k => k.handles.flatMap (s.partObjects form k.slot) := by
  have hchild : ∀ c : Option Handle, (nodeForm.child form c).objects = c.toList.flatMap fun c => (form c).objects := by
    intro c
    cases c <;> simp [nodeForm.child]
  have hname : ∀ c : Option Handle, (s.arena.functionId s.node c).objects =
      c.toList.flatMap fun c => (s.arena.functionId s.node (some c)).objects := by
    intro c
    cases c <;> simp [functionId]
  have hanalysis : (nodeForm.analysis s.arena .none s.handle).flatMap (fun f => f.2.objects) = [] := rfl
  obtain ⟨a, provider, h, ⟨id, span, parent, payload, change, fixed⟩⟩ := s
  obtain rfl : provider = .none := h
  cases payload with
  | keywordLiteral k => cases k <;> simp [nodeForm, nodeForm.moved, Payload.childSlots, Payload.variant]
  | function f =>
    simp [nodeForm, nodeForm.ownChange, nodeForm.list, hchild, hname f.name, hanalysis, Payload.childSlots,
      Payload.variant, ChildSlot.handles, ChildSlot.slot, partObjects, Variant.leavesOut, List.flatMap_map]
  | _ =>
    simp [nodeForm, nodeForm.moved, nodeForm.ownChange, nodeForm.list, hchild, hanalysis, Payload.childSlots,
      Payload.variant, ChildSlot.handles, ChildSlot.slot, partObjects, Variant.leavesOut, List.flatMap_map]

end Arena.Subject

/-- A slot for a name holds one child. -/
theorem Payload.single?_of_name {p : Payload} {k : ChildSlot} (hk : k ∈ p.childSlots) (hslot : k.slot = .name)
    {c : Handle} (hc : c ∈ k.handles) : k.single? = some (some c) := by
  cases k with
  | required _ d | optional _ d => simpa [ChildSlot.handles, ChildSlot.single?] using hc
  | list s cs =>
    obtain rfl : s = .name := hslot
    cases p <;> simp [childSlots] at hk

/-! ### The nodes in document order -/

/-- What has an object of its own in a document. -/
inductive DocumentItem
  | node (h : Handle)
  /-- The name of a function. -/
  | functionName (function : Handle)
deriving DecidableEq, Repr

namespace Arena

section Items

variable (a : Arena) (root : Handle) (order : List Handle)

/-- No form is taken from the slot where the node stands. -/
def isLeftOut (h : Handle) : Bool :=
  (a.standing? h).any fun place => (a.node? place.1).any fun parent => parent.payload.variant.leavesOut place.2

/-- The function that has the node for its name, if the node has an identifier that is not empty. -/
def namedFunction? (h : Handle) : Option Handle := do
  let (function, slot) ← a.standing? h
  let identifier ← a.identifier? h
  if slot = .name ∧ ¬identifier.isEmpty then some function else none

/-- Some node above, other than the root of the subtree that is exported, is left out. -/
def IsBelowLeftOut (h : Handle) : Prop :=
  ∃ y ∈ order, y ≠ root ∧ y ≠ h ∧ a.isLeftOut y ∧ a.isAncestor y h = .ok true

instance (h : Handle) : Decidable (a.IsBelowLeftOut root order h) :=
  inferInstanceAs (Decidable (∃ y ∈ order, y ≠ root ∧ y ≠ h ∧ a.isLeftOut y ∧ a.isAncestor y h = .ok true))

/-- The objects that the document of a subtree has for a node and for what is below it. -/
def objectsAt (h : Handle) : List Json :=
  if h ≠ root ∧ a.isLeftOut h then
    (a.standing? h).toList.flatMap fun place =>
      if place.2 = .name then
        (a.node? place.1).toList.flatMap fun function => (a.functionId function (some h)).objects
      else
        []
  else
    (a.render .none h).objects

/-- What the document of a subtree has in the place of one of its nodes.  `order` are the nodes of the subtree. -/
def itemsAt (h : Handle) : List DocumentItem :=
  if a.IsBelowLeftOut root order h then
    []
  else if h ≠ root ∧ a.isLeftOut h then
    (a.namedFunction? h).toList.map .functionName
  else if (a.node? h).any fun node => node.payload.variant == .parenthesized then
    []
  else
    [.node h]

end Items

/-- The object of an item: of a node its own external form, of a name an identifier with the labels of the function. -/
def Represents (a : Arena) : Json → DocumentItem → Prop
  | object, .node h => a.toExternal .none h = .ok object ∧ ∃ node, a.get h = .ok node ∧ node.HasObject object
  | object, .functionName f =>
    ∃ node name identifier, a.get f = .ok node ∧ a.child f .name = .ok (some name) ∧
      a.identifier? name = some identifier ∧
      object = .object
        [("type", .string "Identifier"), ("name", .string identifier), ("change", .string node.change.change.label),
          ("change-noprop", .string node.change.ownChange.label)]

/-- A node that stands in the slot of a name is the name there. -/
theorem child_of_standing? {a : Arena} {function h : Handle} (hplace : a.standing? h = some (function, .name)) :
    ∃ node, a.node? function = some node ∧ a.child function .name = .ok (some h) := by
  obtain ⟨p, -, hp⟩ := Option.bind_eq_some_iff.mp hplace
  obtain ⟨slot, hslot, heq⟩ := Option.map_eq_some_iff.mp hp
  obtain ⟨node, hn, hslot⟩ := Option.bind_eq_some_iff.mp hslot
  obtain ⟨rfl, rfl⟩ := Prod.mk.inj heq
  obtain ⟨k, hk, hks, hc⟩ := Payload.slotOf?_eq_some hslot
  refine ⟨node, hn, child_eq_ok_iff.mpr ⟨node, hn, Payload.single?_eq_some_iff.mpr ⟨k, hk, hks, ?_⟩⟩⟩
  exact Payload.single?_of_name hk hks hc

/-- A node that is left out has the object of a name, or none. -/
theorem forall₂_of_isLeftOut {a : Arena} {root h : Handle} (hout : h ≠ root ∧ a.isLeftOut h) :
    List.Forall₂ a.Represents (a.objectsAt root h) ((a.namedFunction? h).toList.map .functionName) := by
  rw [objectsAt, if_pos hout, namedFunction?]
  cases hplace : a.standing? h with
  | none => exact .nil
  | some place =>
    obtain ⟨function, slot⟩ := place
    by_cases hslot : slot = .name
    · subst hslot
      obtain ⟨node, hn, hchild⟩ := child_of_standing? hplace
      cases hid : a.identifier? h with
      | none => simp [hn, functionId_eq, hid]
      | some identifier =>
        by_cases hempty : identifier = ""
        · simp [hn, functionId_eq, hid, hempty]
        · simp [hn, functionId_eq, hid, hempty, Represents, get_eq hn, hchild]
    · cases a.identifier? h <;> simp [hslot]

section Nodes

variable {a : Arena} (hw : a.WellFormed)

include hw

theorem isLeftOut_eq {p c : Handle} {node : Node} {k : ChildSlot} (hn : a.node? p = some node)
    (hk : k ∈ node.payload.childSlots) (hc : c ∈ k.handles) :
    a.isLeftOut c = node.payload.variant.leavesOut k.slot := by
  rw [isLeftOut, hw.standing?_eq hn hk hc, Option.any_some, hn, Option.any_some]

variable {root : Handle} {order : List Handle} (hl : a.Listing [root] order)

include hl

theorem not_isBelowLeftOut_root : ¬a.IsBelowLeftOut root order root := by
  rintro ⟨y, hy, hne, -, -, hancestor⟩
  obtain ⟨path, hp⟩ := hw.rooted root (hl.mem (hl.subset List.mem_cons_self))
  obtain ⟨path', hp'⟩ := hw.rooted y (hl.mem hy)
  have hyp : y ∈ path := by simpa [hp.isAncestor_eq] using hancestor
  exact hne (hp'.antisymm hp ((hl.mem_iff hw hp').mp hy) hyp)

/-- A child lies below what its parent lies below, and below its parent. -/
theorem isBelowLeftOut_child {h c : Handle} (hh : h ∈ order) (hc : a.parent? c = some h) :
    a.IsBelowLeftOut root order c ↔ a.IsBelowLeftOut root order h ∨ (h ≠ root ∧ a.isLeftOut h) := by
  obtain ⟨path, hp⟩ := hw.rooted h (hl.mem hh)
  have hcp := hp.not_mem_of_parent? hc
  simp only [IsBelowLeftOut, (Ascent.step hc hp).isAncestor_eq, hp.isAncestor_eq, Except.ok.injEq, decide_eq_true_eq,
    List.mem_cons]
  constructor
  · rintro ⟨y, hy, hyr, hyc, hout, hyp⟩
    have hyp := hyp.resolve_left hyc
    by_cases hyh : y = h
    · exact .inr ⟨hyh ▸ hyr, hyh ▸ hout⟩
    · exact .inl ⟨y, hy, hyr, hyh, hout, hyp⟩
  · rintro (⟨y, hy, hyr, -, hout, hyp⟩ | ⟨hhr, hout⟩)
    · exact ⟨y, hy, hyr, fun hyc => hcp (hyc ▸ hyp), hout, .inr hyp⟩
    · exact ⟨h, hh, hhr, fun hhc => hcp (hhc ▸ hp.self_mem), hout, .inr hp.self_mem⟩

/-- The children of a node have their objects in the places of the children. -/
theorem objectsAt_children {h : Handle} (hh : h ∈ order) {node : Node} (hn : a.node? h = some node) :
    (node.payload.childSlots.flatMap fun k => k.handles.flatMap
      (Subject.partObjects { arena := a, provider := .none, handle := h, node } (a.render .none) k.slot)) =
        node.payload.handles.flatMap (a.objectsAt root) := by
  rw [Payload.handles, List.flatMap_assoc]
  refine List.flatMap_congr fun k hk => List.flatMap_congr fun c hc => ?_
  have hmem : c ∈ a.handlesAt h := by
    rw [handlesAt_eq hn]
    exact List.mem_flatMap.mpr ⟨k, hk, hc⟩
  have hcr : c ≠ root := by
    rintro rfl
    obtain ⟨path, hp⟩ := hw.rooted h (hl.mem hh)
    exact hp.not_mem_of_parent? (hw.mem_handlesAt_iff.mp hmem) ((hl.mem_iff hw hp).mp hh)
  rw [objectsAt, isLeftOut_eq hw hn hk hc, hw.standing?_eq hn hk hc, Subject.partObjects]
  by_cases hout : node.payload.variant.leavesOut k.slot
  · by_cases hslot : k.slot = .name
    · rw [hslot] at hout
      simp [hcr, hout, hslot, hn]
    · simp [hcr, hout, hslot]
  · simp [hout]

/-- What is below a node below one that is left out has no objects. -/
theorem Listing.itemsAt_eq_nil {hs xs : List Handle} (h : a.Listing hs xs) (hsub : xs ⊆ order)
    (hbelow : ∀ x ∈ hs, a.IsBelowLeftOut root order x) : xs.flatMap (a.itemsAt root order) = [] := by
  induction h with
  | nil => rfl
  | @cons h hs cs xs ys hc _ _ ihb ihr =>
    have hh : h ∈ order := hsub List.mem_cons_self
    have hself := hbelow h List.mem_cons_self
    rw [List.flatMap_cons, List.flatMap_append, itemsAt, if_pos hself, ihb, ihr]
    · rfl
    · exact fun x hx => hsub (List.mem_cons_of_mem _ (List.mem_append_right _ hx))
    · exact fun x hx => hbelow x (List.mem_cons_of_mem _ hx)
    · exact fun x hx => hsub (List.mem_cons_of_mem _ (List.mem_append_left _ hx))
    · intro c hcs
      rw [← handlesAt_of_children hc, hw.mem_handlesAt_iff] at hcs
      exact (isBelowLeftOut_child hw hl hh hcs).mpr (.inl hself)

/-- The objects of the forms of some siblings are those of their nodes, in the order of the nodes. -/
theorem Listing.forall₂_itemsAt {hs xs : List Handle} (h : a.Listing hs xs) (hsub : xs ⊆ order)
    (hbelow : ∀ x ∈ hs, ¬a.IsBelowLeftOut root order x) :
    List.Forall₂ a.Represents (hs.flatMap (a.objectsAt root)) (xs.flatMap (a.itemsAt root order)) := by
  induction h with
  | nil => exact .nil
  | @cons h hs cs xs ys hc below _ ihb ihr =>
    have hh : h ∈ order := hsub List.mem_cons_self
    have hself := hbelow h List.mem_cons_self
    have hxs : xs ⊆ order := fun x hx => hsub (List.mem_cons_of_mem _ (List.mem_append_left _ hx))
    have hchild : ∀ c ∈ cs, a.IsBelowLeftOut root order c ↔ h ≠ root ∧ a.isLeftOut h := by
      intro c hcs
      rw [← handlesAt_of_children hc, hw.mem_handlesAt_iff] at hcs
      rw [isBelowLeftOut_child hw hl hh hcs, or_iff_right hself]
    have hrest := ihr (fun x hx => hsub (List.mem_cons_of_mem _ (List.mem_append_right _ hx)))
      fun x hx => hbelow x (List.mem_cons_of_mem _ hx)
    rw [List.flatMap_cons, List.flatMap_cons, List.flatMap_append, ← List.append_assoc]
    refine List.rel_append ?_ hrest
    by_cases hout : h ≠ root ∧ a.isLeftOut h
    · -- below a node that is left out there are no objects
      rw [Listing.itemsAt_eq_nil hw hl below hxs fun c hcs => (hchild c hcs).mpr hout, List.append_nil, itemsAt,
        if_neg hself, if_pos hout]
      exact forall₂_of_isLeftOut hout
    · have hbelow := ihb hxs fun c hcs => mt (hchild c hcs).mp hout
      obtain ⟨node, hn, -, rfl⟩ := exists_node?_of_children hc
      obtain ⟨zs, hz⟩ := hl.exists_listing hh
      have hchildren := objectsAt_children hw hl hh hn
      rw [objectsAt, if_neg hout, itemsAt, if_neg hself, if_neg hout, hn, Option.any_some, hw.render_eq hz hn,
        Subject.objects_nodeForm { arena := a, provider := .none, handle := h, node } _ rfl, hchildren]
      refine List.rel_append ?_ hbelow
      by_cases hvariant : node.payload.variant = .parenthesized
      · rw [if_pos hvariant, if_pos (beq_iff_eq.mpr hvariant)]
        exact .nil
      · rw [if_neg hvariant, if_neg (mt beq_iff_eq.mp hvariant)]
        refine .cons ⟨?_, node, get_eq hn, ?_⟩ .nil
        · rw [hw.toExternal_eq hz, hw.render_eq hz hn]
        · exact Subject.hasObject_nodeForm { arena := a, provider := .none, handle := h, node } _ hvariant

end Nodes

end Arena

/-! ### Reachable arenas -/

namespace Workspace

/-- The objects of an exported subtree, from front to back, are those of the nodes of the subtree in the order of a walk,
without the parenthesized nodes and without what is left out, and with the objects of names in the places of the names.
No object is missing and there is no other one. -/
theorem objects_toExternal {w : Workspace} (reachable : w.Reachable) {i : Nat} {a : Arena} (ha : w.arena? i = some a)
    {n : Handle} {order : List Handle} (horder : a.preOrder n = .ok order) :
    ∃ form, a.toExternal .none n = .ok form ∧
      List.Forall₂ a.Represents form.objects (order.flatMap (a.itemsAt n order)) := by
  have hw := reachable.wellFormed.arena ha
  have hl := Arena.listing_of_preOrder horder
  refine ⟨_, hw.toExternal_eq hl, ?_⟩
  have hobjects := hl.forall₂_itemsAt hw hl (List.Subset.refl _) fun x hx => by
    rw [List.mem_singleton.mp hx]
    exact Arena.not_isBelowLeftOut_root hw hl
  rw [List.flatMap_singleton, Arena.objectsAt, if_neg fun hne => hne.1 rfl] at hobjects
  exact hobjects

/-- A named function that returns a name in parentheses. -/
def namedRun : List Action :=
  [.addArena {}, .command 0 (.alloc (.name "f") { position := 9, length := 1 }),
    .command 0 (.alloc (.name "x") { position := 24, length := 1 }),
    .command 0 (.alloc (.parenthesized (some ⟨1⟩)) { position := 23, length := 3 }),
    .command 0 (.alloc (.returnStatement (some ⟨2⟩)) { position := 16, length := 11 }),
    .command 0 (.alloc (.block [⟨3⟩]) { position := 14, length := 15 }),
    .command 0 (.alloc (.function { name := some ⟨0⟩, body := some ⟨4⟩ }) { position := 0, length := 29 })]

/-- The function of the run: its own object, its name, the body, the statement and the name in the parentheses. -/
theorem objects_toExternal_namedRun :
    ∃ a form, (({} : Workspace).performAll namedRun).arena? 0 = some a ∧ a.toExternal .none ⟨5⟩ = .ok form ∧
      List.Forall₂ a.Represents form.objects
        [.node ⟨5⟩, .functionName ⟨5⟩, .node ⟨4⟩, .node ⟨3⟩, .node ⟨1⟩] := by
  have hreach : (({} : Workspace).performAll namedRun).Reachable := ⟨namedRun, by decide, rfl⟩
  obtain ⟨a, ha, hlisting, hitems⟩ : ∃ a, (({} : Workspace).performAll namedRun).arena? 0 = some a ∧
      a.Listing [⟨5⟩] [⟨5⟩, ⟨0⟩, ⟨4⟩, ⟨3⟩, ⟨2⟩, ⟨1⟩] ∧
      [⟨5⟩, ⟨0⟩, ⟨4⟩, ⟨3⟩, ⟨2⟩, ⟨1⟩].flatMap (a.itemsAt ⟨5⟩ [⟨5⟩, ⟨0⟩, ⟨4⟩, ⟨3⟩, ⟨2⟩, ⟨1⟩]) =
        [.node ⟨5⟩, .functionName ⟨5⟩, .node ⟨4⟩, .node ⟨3⟩, .node ⟨1⟩] :=
    ⟨_, rfl, .cons rfl (.cons rfl .nil (.cons rfl (.cons rfl (.cons rfl (.cons rfl .nil .nil) .nil) .nil) .nil)) .nil,
      rfl⟩
  have horder := (hreach.wellFormed.arena ha).preOrder_eq_ok_iff.mpr hlisting
  obtain ⟨form, hform, hobjects⟩ := objects_toExternal hreach ha horder
  exact ⟨a, form, ha, hform, hitems ▸ hobjects⟩

end Workspace

end ScriptTree
