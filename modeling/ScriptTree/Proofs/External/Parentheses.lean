import Mathlib.Logic.Relation
import ScriptTree.Proofs.Edit.Enclosing
import ScriptTree.Proofs.External.Content

/-!
# Parentheses are erased

The form of a pair of parentheses is the form of what stands in it (`render_parenthesized`).  So the payloads with the
parentheses in place of the child have the same objects as before, and by induction from the leaves no form of the tree
changes (`Wraps.render_eq`).  The one object that looks at a child itself is that of a function, which takes its
identifier from its name, so parentheses around the name are seen.

A step puts one pair of parentheses somewhere in the arena, or around the node that is exported (`Parenthesizes`).  Every
step keeps the external form, and so does every sequence of steps (`toExternal_eq_of_parenthesizes`).
-/

namespace ScriptTree

/-- The provider looks at the handle only, and not at the arena. -/
structure AnalysisProvider.ByHandle (provider : AnalysisProvider) : Prop where
  criteria : ∀ a b h, provider.criteria a h = provider.criteria b h
  dependencies : ∀ a b h, provider.dependencies a h = provider.dependencies b h

theorem AnalysisTable.byHandle (t : AnalysisTable) : t.provider.ByHandle := ⟨fun _ _ _ => rfl, fun _ _ _ => rfl⟩

namespace Arena

variable {a b : Arena} {provider : AnalysisProvider}

theorem identifier?_eq_reading? (a : Arena) (h : Handle) :
    a.identifier? h = (a.reading? h).bind fun r => r.1.identifier? := by
  rw [identifier?, reading?, Option.bind_map]
  rfl

/-! ### Slots -/

section Slots

variable (hw : a.WellFormed) {o c : Handle} {s : Slot}

include hw

/-- What is an entry of a list stands in no slot for a single child. -/
theorem HasList.not_hasSingle {cs : List Handle} (h : a.HasList o s cs) (hc : c ∈ cs) (x : Handle) (t : Slot) :
    ¬a.HasSingle x t (some c) := by
  intro hx
  have hplace : some (o, s) = some (x, t) := (h.standing?_eq hw hc).symm.trans (hx.standing?_eq hw)
  cases hplace
  obtain ⟨node, hn, hs⟩ := h
  obtain ⟨node', hn', ht⟩ := hx
  obtain rfl : node = node' := Option.some.inj (hn.symm.trans hn')
  rw [Payload.single?_eq_none_of_list? hs] at ht
  cases ht

end Slots

/-! ### The forms -/

/-- A pair of parentheses has the form of the node inside. -/
theorem WellFormed.render_parenthesized (hw : b.WellFormed) (provider : AnalysisProvider) {c n : Handle} {l : ChangeRecord}
    (hn : b.reading? n = some (.parenthesized (some c), l)) {xs : List Handle} (hl : b.Listing [c] xs) :
    b.Listing [n] (n :: xs) ∧ b.render provider n = b.render provider c := by
  obtain ⟨node, hnode, hpayload, -⟩ := reading?_eq_some_iff.mp hn
  have hc : b.children n = .ok [c] := by
    refine children_eq_ok_iff.mpr ⟨node, get_eq hnode, ?_, ?_⟩
    · rw [hpayload]
      rfl
    · rw [hpayload]
      rfl
  have hlisting : b.Listing [n] (n :: (xs ++ [])) := .cons hc hl .nil
  rw [List.append_nil] at hlisting
  refine ⟨hlisting, ?_⟩
  rw [hw.render_eq hlisting hnode]
  obtain ⟨id, span, parent, payload, change, fixed⟩ := node
  cases hpayload
  rfl

namespace Wraps

variable {c n x : Handle} {hs xs : List Handle} (h : a.Wraps b c n xs)

include h

theorem exists_node? (hx : x ∈ xs) {node : Node} (hn : a.node? x = some node) :
    ∃ node', b.node? x = some node' ∧ node'.payload = node.payload.renamed (.exchange c n) ∧
      node'.change = node.change := by
  have hread := h.reading?_old x hx
  rw [reading?_eq hn, Option.map_some] at hread
  exact reading?_eq_some_iff.mp hread

theorem children_eq (hx : x ∈ xs) {cs : List Handle} (hc : a.children x = .ok cs) :
    b.children x = .ok (cs.map (.exchange c n)) := by
  obtain ⟨node, hn, hole, rfl⟩ := children_eq_ok_iff.mp hc
  obtain ⟨node', hn', hpayload, -⟩ := h.exists_node? hx (get_eq_ok_iff.mp hn)
  refine children_eq_ok_iff.mpr ⟨node', get_eq hn', ?_, ?_⟩
  · rw [hpayload, Payload.firstHole?_renamed, hole]
  · rw [hpayload, Payload.handles_renamed]

theorem identifier?_eq (hx : x ∈ xs) : b.identifier? x = a.identifier? x := by
  rw [identifier?_eq_reading?, identifier?_eq_reading?, h.reading?_old x hx, Option.bind_map]
  exact Option.bind_congr fun r _ => Payload.identifier?_renamed r.1 _

/-- Parentheses in place of a child change no form, unless the child is the name of a function. -/
theorem render_eq (hw : a.WellFormed) (hl : a.Listing hs xs) (hname : ∀ x ∈ xs, ¬a.HasSingle x .name (some c))
    (hp : provider.ByHandle) :
    ∀ x ∈ xs, (∃ ys, b.Listing [x] ys) ∧ b.render provider x = a.render provider x := by
  refine hl.children_induction fun x hx ih => ?_
  -- what stands in the slots now has the forms of the children that stood there
  have hforms : ∀ d ∈ a.handlesAt x, (∃ ys, b.Listing [Handle.exchange c n d] ys) ∧
      b.render provider (Handle.exchange c n d) = a.render provider d := by
    intro d hd
    obtain ⟨⟨ys, hys⟩, hform⟩ := ih d hd
    by_cases hdc : d = c
    · subst hdc
      obtain ⟨hlisting, hinner⟩ := h.wellFormed.render_parenthesized provider h.reading?_new hys
      rw [Handle.exchange_self]
      exact ⟨⟨_, hlisting⟩, hinner.trans hform⟩
    · rw [Handle.exchange_of_ne hdc]
      exact ⟨⟨ys, hys⟩, hform⟩
  obtain ⟨ys, hys⟩ : ∃ ys, b.Listing ((a.handlesAt x).map (.exchange c n)) ys := by
    refine exists_listing_of_each fun e he => ?_
    obtain ⟨d, hd, rfl⟩ := List.mem_map.mp he
    exact (hforms d hd).1
  have hlisting : b.Listing [x] (x :: (ys ++ [])) := .cons (h.children_eq hx (hl.children_eq hx)) hys .nil
  refine ⟨⟨_, hlisting⟩, ?_⟩
  obtain ⟨node, hn⟩ := mem_iff_node?.mp (hl.mem hx)
  obtain ⟨node', hn', hpayload, hchange⟩ := h.exists_node? hx hn
  have hmirrors : Subject.Mirrors { arena := a, provider, handle := x, node }
      { arena := b, provider, handle := x, node := node' } (.exchange c n) := by
    refine ⟨congrArg _ hpayload, hchange, hp.criteria b a x, hp.dependencies b a x, fun d hd => ?_⟩
    have hdc : d ≠ c := by
      rintro rfl
      exact hname x hx ⟨node, hn, hd⟩
    show b.identifier? (Handle.exchange c n d) = a.identifier? d
    rw [Handle.exchange_of_ne hdc]
    exact h.identifier?_eq (hl.handlesAt_subset hx (HasSingle.mem_handlesAt ⟨node, hn, hd⟩))
  obtain ⟨zs, hz⟩ := hl.exists_listing hx
  rw [hw.render_eq hz hn, h.wellFormed.render_eq hlisting hn']
  rw [handlesAt_eq hn] at hforms
  exact hmirrors.nodeForm_eq fun d hd => (hforms d hd).2

end Wraps

end Arena

/-! ### Steps -/

/-- The node of an arena can be exported, and `form` is its external form. -/
structure Exports (provider : AnalysisProvider) (s : Arena × Handle) (form : Json) : Prop where
  wellFormed : s.1.WellFormed
  listing : ∃ xs, s.1.Listing [s.2] xs
  render_eq : s.1.render provider s.2 = form

/-- A step puts one pair of parentheses into an arena with a node to be exported: around the child in a slot for a single
child that is not the name of a function, around an entry of a list, or around the node itself.  Only in the last case
another node is exported afterwards. -/
inductive Parenthesizes : Arena × Handle → Arena × Handle → Prop
  | single {a a' b : Arena} {r p c n : Handle} {s : Slot} {span : Span} {old : Option Handle}
      (child : a.child p s = .ok (some c)) (ne_name : s ≠ .name)
      (construct : Edit.construct (.parenthesized c span) a = .ok n a')
      (put : Edit.setChild p s (some n) a' = .ok old b) : Parenthesizes (a, r) (b, r)
  | list {a a' b : Arena} {r p c n : Handle} {s : Slot} {cs : List Handle} {span : Span}
      (children : a.childList p s = .ok cs) (mem : c ∈ cs)
      (construct : Edit.construct (.parenthesized c span) a = .ok n a')
      (put : Edit.setChildList p s (cs.map (.exchange c n)) a' = .ok () b) : Parenthesizes (a, r) (b, r)
  | root {a b : Arena} {r n : Handle} {span : Span}
      (construct : Edit.construct (.parenthesized r span) a = .ok n b) : Parenthesizes (a, r) (b, n)

section Steps

open Arena

variable {provider : AnalysisProvider} {s t : Arena × Handle} {form : Json}

theorem Exports.toExternal_eq (h : Exports provider s form) : s.1.toExternal provider s.2 = .ok form := by
  obtain ⟨xs, hl⟩ := h.listing
  rw [h.wellFormed.toExternal_eq hl, h.render_eq]

theorem Arena.Wraps.exports {a b : Arena} {r c n : Handle} {xs : List Handle} (h : a.Wraps b c n xs)
    (hr : Exports provider (a, r) form) (hl : a.Listing [r] xs) (hname : ∀ x ∈ xs, ¬a.HasSingle x .name (some c))
    (hp : provider.ByHandle) : Exports provider (b, r) form := by
  obtain ⟨hlisting, hform⟩ := h.render_eq hr.wellFormed hl hname hp r (hl.subset List.mem_cons_self)
  exact ⟨h.wellFormed, hlisting, hform.trans hr.render_eq⟩

/-- One pair of parentheses keeps the external form. -/
theorem Parenthesizes.exports (h : Parenthesizes s t) (hp : provider.ByHandle) (hs : Exports provider s form) :
    Exports provider t form := by
  obtain ⟨xs, hl⟩ := hs.listing
  have hw := hs.wellFormed
  cases h with
  | @single a a' b r p c n slot span old child ne_name construct put =>
    have hsingle : a.HasSingle p slot (some c) := child_eq_ok_iff.mp child
    have henc := Edit.encloses_of_construct hw (hsingle.child_mem hw) construct
    obtain ⟨b', hput, hwraps⟩ := Edit.run_setChild_parentheses hw henc hsingle
    obtain ⟨-, rfl⟩ := EStateM.Result.ok.inj (hput.symm.trans put)
    refine (hwraps xs fun x hx => hl.mem hx).exports hs hl (fun x hx hname => ?_) hp
    have hplace := (hsingle.standing?_eq hw).symm.trans (hname.standing?_eq hw)
    cases hplace
    exact ne_name rfl
  | @list a a' b r p c n slot cs span children mem construct put =>
    have hlist : a.HasList p slot cs := childList_eq_ok_iff.mp children
    have henc := Edit.encloses_of_construct hw (hlist.child_mem hw mem) construct
    obtain ⟨b', hput, hwraps⟩ := Edit.run_setChildList_parentheses hw henc hlist mem
    obtain ⟨-, rfl⟩ := EStateM.Result.ok.inj (hput.symm.trans put)
    exact (hwraps xs fun x hx => hl.mem hx).exports hs hl (fun x _ => hlist.not_hasSingle hw mem x .name) hp
  | @root a b r n span construct =>
    have henc := Edit.encloses_of_construct hw (hl.mem (hl.subset List.mem_cons_self)) construct
    -- the parent of the root is not below it
    have hparent : ∀ x ∈ xs, a.parent? r ≠ some x := by
      intro x hx hpar
      obtain ⟨path, hpath⟩ := hw.rooted x (hl.mem hx)
      exact hpath.not_mem_of_parent? hpar ((hl.mem_iff hw hpath).mp hx)
    have hname : ∀ x ∈ xs, ¬a.HasSingle x .name (some r) :=
      fun x hx hname => hparent x hx (hw.mem_handlesAt_iff.mp hname.mem_handlesAt)
    have hwraps : a.Wraps b r n xs := henc.wraps hw fun x hx => ⟨hl.mem hx, hparent x hx⟩
    obtain ⟨-, ⟨ys, hys⟩, hform⟩ := hwraps.exports hs hl hname hp
    obtain ⟨hlisting, hinner⟩ := hwraps.wellFormed.render_parenthesized provider hwraps.reading?_new hys
    exact ⟨hwraps.wellFormed, ⟨_, hlisting⟩, hinner.trans hform⟩

/-- So do any number of them. -/
theorem Parenthesizes.exports_of_run (h : Relation.ReflTransGen Parenthesizes s t) (hp : provider.ByHandle)
    (hs : Exports provider s form) : Exports provider t form := by
  induction h with
  | refl => exact hs
  | tail _ step ih => exact step.exports hp ih

end Steps

/-! ### Reachable arenas -/

namespace Workspace

/-- Parentheses around the child in a slot for a single child, other than the name of a function, around an entry of a
list or around the exported node itself can be put there and leave the external form as it was.  It does not matter where
in the arena the child is.  Any number of such steps leaves the form as it was. -/
theorem toExternal_eq_of_parenthesizes {w : Workspace} (reachable : w.Reachable) {i : Nat} {a : Arena}
    (ha : w.arena? i = some a) {r : Handle} {order : List Handle} (horder : a.preOrder r = .ok order)
    {provider : AnalysisProvider} (hp : provider.ByHandle) :
    ∃ form, a.toExternal provider r = .ok form ∧
      (∀ p s c span, a.child p s = .ok (some c) → s ≠ .name →
        ∃ n a' b, Edit.construct (.parenthesized c span) a = .ok n a' ∧ Edit.setChild p s (some n) a' = .ok none b ∧
          b.toExternal provider r = .ok form) ∧
      (∀ p s cs c span, a.childList p s = .ok cs → c ∈ cs →
        ∃ n a' b, Edit.construct (.parenthesized c span) a = .ok n a' ∧
          Edit.setChildList p s (cs.map (.exchange c n)) a' = .ok () b ∧ b.toExternal provider r = .ok form) ∧
      (∀ span, ∃ n b, Edit.construct (.parenthesized r span) a = .ok n b ∧ b.toExternal provider n = .ok form) ∧
      ∀ b n, Relation.ReflTransGen Parenthesizes (a, r) (b, n) → b.toExternal provider n = .ok form := by
  have hw := reachable.wellFormed.arena ha
  have hl := Arena.listing_of_preOrder horder
  have hs : Exports provider (a, r) (a.render provider r) := ⟨hw, ⟨order, hl⟩, rfl⟩
  refine ⟨_, hs.toExternal_eq, ?_, ?_, ?_, ?_⟩
  · intro p s c span child ne_name
    have hsingle : a.HasSingle p s (some c) := Arena.child_eq_ok_iff.mp child
    obtain ⟨n, a', construct, hencloses⟩ := Edit.run_construct_parenthesized hw (hsingle.child_mem hw) span
    obtain ⟨b, put, -⟩ := Edit.run_setChild_parentheses hw hencloses hsingle
    have hstep : Parenthesizes (a, r) (b, r) := .single child ne_name construct put
    exact ⟨n, a', b, construct, put, (hstep.exports hp hs).toExternal_eq⟩
  · intro p s cs c span children mem
    have hlist : a.HasList p s cs := Arena.childList_eq_ok_iff.mp children
    obtain ⟨n, a', construct, hencloses⟩ := Edit.run_construct_parenthesized hw (hlist.child_mem hw mem) span
    obtain ⟨b, put, -⟩ := Edit.run_setChildList_parentheses hw hencloses hlist mem
    have hstep : Parenthesizes (a, r) (b, r) := .list children mem construct put
    exact ⟨n, a', b, construct, put, (hstep.exports hp hs).toExternal_eq⟩
  · intro span
    obtain ⟨n, b, construct, -⟩ := Edit.run_construct_parenthesized hw (hl.mem (hl.subset List.mem_cons_self)) span
    have hstep : Parenthesizes (a, r) (b, n) := .root construct
    exact ⟨n, b, construct, (hstep.exports hp hs).toExternal_eq⟩
  · intro b n hrun
    exact (Parenthesizes.exports_of_run hrun hp hs).toExternal_eq

/-- A block with one statement that returns a name. -/
def returnRun : List Action :=
  [.addArena {}, .command 0 (.alloc (.name "x") { position := 9, length := 1 }),
    .command 0 (.alloc (.returnStatement (some ⟨0⟩)) { position := 2, length := 9 }),
    .command 0 (.alloc (.block [⟨1⟩]) { position := 0, length := 13 })]

/-- The name of the run, or the statement, is put into parentheses, and the block has criteria. -/
theorem toExternal_eq_of_parenthesizes_returnRun :
    ∃ a form, (({} : Workspace).performAll returnRun).arena? 0 = some a ∧
      a.toExternal (({} : AnalysisTable).setCriteria ⟨2⟩ (.array [.string "x"])).provider ⟨2⟩ = .ok form ∧
      (∃ n a' b, Edit.construct (.parenthesized ⟨0⟩ { position := 8, length := 3 }) a = .ok n a' ∧
        Edit.setChild ⟨1⟩ .value (some n) a' = .ok none b ∧
        b.toExternal (({} : AnalysisTable).setCriteria ⟨2⟩ (.array [.string "x"])).provider ⟨2⟩ = .ok form) ∧
      ∃ n a' b, Edit.construct (.parenthesized ⟨1⟩ { position := 1, length := 11 }) a = .ok n a' ∧
        Edit.setChildList ⟨2⟩ .statements [n] a' = .ok () b ∧
        b.toExternal (({} : AnalysisTable).setCriteria ⟨2⟩ (.array [.string "x"])).provider ⟨2⟩ = .ok form := by
  have hreach : (({} : Workspace).performAll returnRun).Reachable := ⟨returnRun, by decide, rfl⟩
  obtain ⟨a, ha, hlisting, hchild, hchildren⟩ : ∃ a, (({} : Workspace).performAll returnRun).arena? 0 = some a ∧
      a.Listing [⟨2⟩] [⟨2⟩, ⟨1⟩, ⟨0⟩] ∧ a.child ⟨1⟩ .value = .ok (some ⟨0⟩) ∧
      a.childList ⟨2⟩ .statements = .ok [⟨1⟩] :=
    ⟨_, rfl, .cons rfl (.cons rfl (.cons rfl .nil .nil) .nil) .nil, rfl, rfl⟩
  have horder := (hreach.wellFormed.arena ha).preOrder_eq_ok_iff.mpr hlisting
  obtain ⟨form, hform, hsingle, hlist, -⟩ := toExternal_eq_of_parenthesizes hreach ha horder
    (({} : AnalysisTable).setCriteria ⟨2⟩ (.array [.string "x"])).byHandle
  exact ⟨a, form, ha, hform, hsingle _ _ _ _ hchild (by decide),
    hlist _ _ _ _ _ hchildren (List.mem_singleton.mpr rfl)⟩

end Workspace

end ScriptTree
