import ScriptTree.Proofs.Edit.Filling
import ScriptTree.Proofs.Edit.Places

/-!
# Bounds that follow children

A node `Fits` its children when it reaches from the start to the end that they ask for; then recomputing its bounds
changes nothing, and only then (`WellFormed.recomputed_eq_self_iff`).  Recomputing makes a node fit
(`WellFormed.fits_recomputed`).  The constructors find the bounds of a new node from its operands before these move;
as no operand is shifted by its move, the new node fits (`WellFormed.fits_constructed`), and so does a function that gets
a body (`WellFormed.fits_filled`).
-/

namespace ScriptTree

namespace Arena

/-! ### Nodes that fit their children -/

/-- A node whose extent is not fixed reaches from the start to the end that its children ask for, if they do. -/
def Fits (a : Arena) (h : Handle) : Prop :=
  a.isFixed h = false → ∀ start stop, a.compositeBounds h = .ok (some (start, stop)) →
    a.bounds h = (start, max start stop)

section Fits

variable {a : Arena} {h : Handle} {start stop : Int}

theorem Rooted.absoluteBounds_eq_ok_iff (hr : a.Rooted) {b : Int × Int} :
    a.absoluteBounds h = .ok b ↔ h ∈ a ∧ a.bounds h = b := by
  by_cases hh : h ∈ a
  · simp [hr.absoluteBounds_eq hh, hh]
  · simp [absoluteBounds, absolutePosition, positionWithin, get_eq_error hh, hh, bind, Except.bind]

theorem bounds_eq_iff : a.bounds h = (start, max start stop) ↔ a.place h = start ∧ a.extent h = max 0 (stop - start) := by
  rw [bounds, Prod.mk.injEq]
  constructor
  · rintro ⟨rfl, hstop⟩
    exact ⟨rfl, by omega⟩
  · rintro ⟨rfl, hextent⟩
    exact ⟨rfl, by omega⟩

theorem update_of_forall_eq {f : Node → Node} (hf : ∀ node, f node = node) : a.update h f = a := by
  obtain rfl : f = fun node => node := funext hf
  refine ext_node? rfl fun x => ?_
  rw [node?_update]
  split <;> simp

theorem shiftedEach_zero (hs : List Handle) : a.shiftedEach 0 hs = a := by
  induction hs generalizing a with
  | nil => rfl
  | cons h hs ih =>
    rw [shiftedEach, List.foldl_cons, ← shiftedEach, ih]
    exact update_of_forall_eq fun node => by simp [Span.shift]

/-- A node that is where it is put and as long as it is made stays as it is, and so do its children. -/
theorem repositioned_eq_self (hh : h ∈ a) (hb : a.bounds h = (start, max start stop)) :
    a.repositioned h start stop = a := by
  obtain ⟨hplace, hextent⟩ := bounds_eq_iff.mp hb
  obtain ⟨node, hn⟩ := mem_iff_node?.mp hh
  have hlength : node.span.length = max 0 (stop - start) := by simpa [extent, hn] using hextent
  have hdistance : start - a.place h = 0 := by omega
  rw [repositioned, hdistance, ← hlength, Int.neg_zero, shiftedEach_zero]
  exact update_eq_self hn (by simp)

theorem WellFormed.bounds_repositioned (hw : a.WellFormed) (hh : h ∈ a) (start stop : Int) {x : Handle} (hx : x ∈ a) :
    (a.repositioned h start stop).bounds x = if x = h then (start, max start stop) else a.bounds x := by
  obtain ⟨node, hn⟩ := mem_iff_node?.mp hh
  by_cases hxh : x = h
  · subst hxh
    rw [if_pos rfl]
    refine bounds_eq_iff.mpr ⟨?_, ?_⟩
    · rw [hw.place_repositioned hh hx, if_pos rfl]
    · rw [repositioned, extent_shiftedEach, extent, node?_update, if_pos rfl, hn]
      rfl
  · rw [if_neg hxh, bounds, bounds, extent_repositioned hxh, hw.place_repositioned hh hx, if_neg hxh]

theorem recomputed_eq_repositioned (hfixed : a.isFixed h = false)
    (hb : a.compositeBounds h = .ok (some (start, stop))) : a.recomputed h = a.repositioned h start stop := by
  simp [recomputed, hfixed, hb]

/-- Recomputing the bounds of a node changes nothing exactly if the node fits its children. -/
theorem WellFormed.recomputed_eq_self_iff (hw : a.WellFormed) (hh : h ∈ a) : a.recomputed h = a ↔ a.Fits h := by
  constructor
  · intro hself hfixed start stop hb
    have hbounds := hw.bounds_repositioned hh start stop hh
    rwa [← recomputed_eq_repositioned hfixed hb, hself, if_pos rfl] at hbounds
  · intro hfits
    unfold recomputed
    split
    · rfl
    · rename_i hfixed
      split
      · rename_i start stop hb
        exact repositioned_eq_self hh (hfits (by simpa using hfixed) _ _ hb)
      · rfl

/-- A node that has moved to the bounds that its children ask for fits them: no other node was moved or resized, so the
children ask for the same again. -/
theorem WellFormed.fits_repositioned (hw : a.WellFormed) {node : Node} (hn : a.node? h = some node)
    (hask : node.payload.asked? a.bounds (a.bounds h).1 (a.bounds h).2 = some (start, stop)) :
    (a.repositioned h start stop).Fits h := by
  have hh := mem_of_node? hn
  have hwb := (sameTrees_repositioned a h start stop).wellFormed hw
  obtain ⟨node', hn', hpayload, -⟩ :=
    reading?_eq_some_iff.mp ((reading?_repositioned h start stop h).trans (reading?_eq hn))
  have hself := hw.bounds_repositioned hh start stop hh
  rw [if_pos rfl] at hself
  have hchildren : ∀ c ∈ node.payload.handles, (a.repositioned h start stop).bounds c = a.bounds c := by
    intro c hc
    rw [← handlesAt_eq hn] at hc
    have hch : c ≠ h := hw.rooted.ne_of_parent? (hw.mem_handlesAt_iff.mp hc)
    rw [hw.bounds_repositioned hh start stop (hw.child_mem h hh c hc), if_neg hch]
  obtain ⟨stop', hagain, hmax⟩ := Payload.asked?_settled hask
  intro _ start'' stop'' hb
  rw [hwb.compositeBounds_eq hn', hpayload, Payload.asked?_congr hchildren, hself, hagain] at hb
  cases hb
  rw [hself, hmax]

/-- A node whose bounds were recomputed fits its children. -/
theorem WellFormed.fits_recomputed (hw : a.WellFormed) (hh : h ∈ a) : (a.recomputed h).Fits h := by
  by_cases hfits : a.Fits h
  · rwa [(hw.recomputed_eq_self_iff hh).mpr hfits]
  · simp only [Fits, Classical.not_imp, not_forall] at hfits
    obtain ⟨hfixed, start, stop, hb, -⟩ := hfits
    obtain ⟨node, hn⟩ := mem_iff_node?.mp hh
    rw [recomputed_eq_repositioned hfixed hb]
    rw [hw.compositeBounds_eq hn, Except.ok.injEq] at hb
    exact hw.fits_repositioned hn hb

theorem WellFormed.bounds_recomputed (hw : a.WellFormed) (hh : h ∈ a) (hfixed : a.isFixed h = false)
    (hb : a.compositeBounds h = .ok (some (start, stop))) {x : Handle} (hx : x ∈ a) :
    (a.recomputed h).bounds x = if x = h then (start, max start stop) else a.bounds x := by
  rw [recomputed_eq_repositioned hfixed hb]
  exact hw.bounds_repositioned hh start stop hx

theorem WellFormed.bounds_recomputed_of_ne (hw : a.WellFormed) (hh : h ∈ a) {x : Handle} (hx : x ∈ a) (hne : x ≠ h) :
    (a.recomputed h).bounds x = a.bounds x := by
  have hsame : SameText (· = h) (· = h) a (a.recomputed h) := hw.sameText_recomputed hh (.inl rfl) fun _ => rfl
  rw [bounds, bounds, hsame.place_eq x hx hne, hsame.extent_eq x hx hne]

end Fits

/-! ### Functions and their bodies -/

section Bodies

variable {a : Arena} {h o c : Handle}

theorem SameText.bounds_eq {b : Arena} {shifted resized : Handle → Prop} (hsame : SameText shifted resized a b) (hh : h ∈ a)
    (hs : ¬shifted h) (hr : ¬resized h) : b.bounds h = a.bounds h := by
  rw [bounds, bounds, hsame.place_eq h hh hs, hsame.extent_eq h hh hr]

theorem SameText.absoluteBounds_eq {b : Arena} (hsame : SameText (fun _ => False) (fun _ => False) a b) (ha : a.Rooted)
    (hb : b.Rooted) (hh : h ∈ a) : b.absoluteBounds h = a.absoluteBounds h := by
  rw [ha.absoluteBounds_eq hh, hb.absoluteBounds_eq (hsame.mem h hh), hsame.bounds_eq hh not_false not_false]

theorem isFixed_of_kind? {v : Variant} {fixed : Bool} (hk : a.kind? h = some (v, fixed)) : a.isFixed h = fixed := by
  obtain ⟨node, hget, -, rfl⟩ := kind?_eq_some_iff.mp hk
  have hn : a.node? h = some node := get_eq_ok_iff.mp hget
  simp [isFixed, hn]

theorem variant_of_kind? {v : Variant} {fixed : Bool} (hk : a.kind? h = some (v, fixed)) : a.variant h = .ok v := by
  obtain ⟨node, hget, rfl, -⟩ := kind?_eq_some_iff.mp hk
  exact variant_eq (get_eq_ok_iff.mp hget)

/-- A function asks to end with its body. -/
theorem WellFormed.compositeBounds_function (hw : a.WellFormed) (hk : a.variant h = .ok .function)
    (hs : a.HasSingle h .body (some c)) : a.compositeBounds h = .ok (some (a.place h, (a.bounds c).2)) := by
  obtain ⟨node, hn, hbody⟩ := hs
  rw [variant_eq hn, Except.ok.injEq] at hk
  rw [hw.compositeBounds_eq hn, Payload.asked?_of_function hk, hbody]
  rfl

/-- A function that gets a body ends with the body, and it is the only node whose bounds change. -/
theorem WellFormed.filled_body (hw : a.WellFormed) {old : Option Handle} {path : List Handle}
    (hk : a.kind? o = some (.function, false)) (hs : a.HasSingle o .body old) (hold : old ≠ some c) (hc : c ∈ a)
    (ho : a.Ascent o path) (hpath : c ∉ path) :
    (a.filled o .body c old).Fits o ∧ ∀ x ∈ a, (a.filled o .body c old).bounds x =
      if x = o then (a.place o, max (a.place o) (a.bounds c).2) else a.bounds x := by
  have hoc : o ≠ c := fun h => hpath (h ▸ ho.self_mem)
  have hwg := hw.severedEach_grafted hs hold hc ho hpath
  have hsame : SameText (fun _ => False) (fun _ => False) a _ := hw.sameText_severedEach_grafted hs hold hc ho hpath
  have hsingle := HasSingle.grafted_self (c := c) (HasSingle.severedEach_self (hw.severed c) (hs.severed hoc hold))
  rw [filled]
  generalize ((a.severed c).severedEach old.toList).grafted o .body c = b at hwg hsame hsingle
  have hkb := (hsame.kind?_eq o ho.mem).trans hk
  have hb := hsame.mem o ho.mem
  have hsettled : b.settled o .body = b.recomputed o := if_pos ⟨rfl, variant_of_kind? hkb⟩
  have hcomposite := hwg.compositeBounds_function (variant_of_kind? hkb) hsingle
  rw [hsettled]
  refine ⟨hwg.fits_recomputed hb, fun x hx => ?_⟩
  rw [hwg.bounds_recomputed hb (isFixed_of_kind? hkb) hcomposite (hsame.mem x hx), hsame.place_eq o ho.mem not_false,
    hsame.bounds_eq hx not_false not_false, hsame.bounds_eq hc not_false not_false]

end Bodies

end Arena

/-! ### New nodes -/

namespace Construction

/-- The nodes that take their bounds from their children. -/
def isComposite : Construction → Bool
  | infixExpression .. | assignment .. | unary .. | function .. => true
  | _ => false

/-- The start and the end of the node to be built, if it takes them from its children.  It may be asked to end before it
starts. -/
def reach (a : Arena) : Construction → Except TreeError (Option (Int × Int))
  | infixExpression _ left right _ | assignment _ left right _ => do
    let (start, _) ← a.absoluteBounds left
    let (_, stop) ← a.absoluteBounds right
    return some (start, stop)
  | unary _ operand position afterOperand => do
    let (start, stop) ← a.absoluteBounds operand
    return some (if afterOperand then (start, position + 2) else (position, stop))
  | function _ _ body span => do
    let (_, stop) ← a.absoluteBounds body
    return some (span.position, stop)
  | _ => return none

/-- The children of a planned node ask for what the construction says.  They may ask to end elsewhere when both ends lie
before the start. -/
structure Reaches (c : Construction) (a : Arena) (p : Payload) (span : Span) (start stop : Int) : Prop where
  reach_eq : c.reach a = .ok (some (start, stop))
  asked : ∃ stop', p.asked? a.bounds span.position span.stop = some (start, stop') ∧ max start stop' = max start stop
  /-- Unless the extent is still open, it is known before the node is built. -/
  span_eq : c.isOpenEnded = false → span = .between start stop

section Planned

variable {a : Arena} {c : Construction} {p : Payload} {span : Span}

theorem operandBounds_eq_ok_iff {v : Variant} {s : Slot} {operand : Handle} {bounds : Int × Int} :
    operandBounds a v s operand = .ok bounds ↔ a.absoluteBounds operand = .ok bounds := by
  rw [operandBounds]
  cases a.absoluteBounds operand <;> simp [Except.mapError]

theorem asked?_of_plan (hplan : c.plan a = .ok (p, span)) (hc : c.isComposite = false) (bounds : Handle → Int × Int)
    (start stop : Int) : p.asked? bounds start stop = none := by
  cases c with
  | infixExpression | assignment | unary | function => cases hc
  | keywordLiteral | variableDeclaration =>
    rw [plan] at hplan
    split at hplan <;> cases hplan
    rfl
  | _ =>
    cases hplan
    rfl

theorem reaches_of_plan (hr : a.Rooted) (hplan : c.plan a = .ok (p, span)) (hmem : ∀ x ∈ p.handles, x ∈ a)
    (hc : c.isComposite = true) : ∃ start stop, c.Reaches a p span start stop := by
  cases c with
  | infixExpression operator left right position | assignment operator left right position =>
    rw [plan] at hplan
    split at hplan
    · cases hplan
    · obtain ⟨⟨o, span'⟩, ho, hplan⟩ := bind_eq_ok_iff.mp hplan
      obtain ⟨⟨start, stop'⟩, hleft, ho⟩ := bind_eq_ok_iff.mp ho
      obtain ⟨⟨start', stop⟩, hright, ho⟩ := bind_eq_ok_iff.mp ho
      cases ho
      cases hplan
      rw [operandBounds_eq_ok_iff] at hleft hright
      obtain ⟨-, hl⟩ := hr.absoluteBounds_eq_ok_iff.mp hleft
      obtain ⟨-, hr⟩ := hr.absoluteBounds_eq_ok_iff.mp hright
      exact ⟨start, stop, by simp [reach, hleft, hright, bind, Except.bind, pure, Except.pure],
        ⟨stop, by simp [Payload.asked?, hl, hr], rfl⟩, fun _ => rfl⟩
  | unary operator operand position afterOperand =>
    rw [plan] at hplan
    split at hplan
    · cases hplan
    · obtain ⟨⟨start, stop⟩, hoperand, hplan⟩ := bind_eq_ok_iff.mp hplan
      cases hplan
      rw [operandBounds_eq_ok_iff] at hoperand
      obtain ⟨-, hbounds⟩ := hr.absoluteBounds_eq_ok_iff.mp hoperand
      cases afterOperand with
      | false =>
        exact ⟨position, stop, by simp [reach, hoperand, bind, Except.bind, pure, Except.pure],
          ⟨stop, by simp [Payload.asked?, hbounds], rfl⟩, fun _ => rfl⟩
      | true =>
        refine ⟨start, position + 2, by simp [reach, hoperand, bind, Except.bind, pure, Except.pure], ?_, fun _ => rfl⟩
        -- the node asks for its own end, which is not before its start
        refine ⟨max start (position + 2), by simp [Payload.asked?, hbounds, Span.stop_between], by omega⟩
  | function identifier params body =>
    cases hplan
    have hbody : body ∈ a := hmem body (by simp [Payload.handles, Payload.childSlots, ChildSlot.handles])
    have hbounds := hr.absoluteBounds_eq hbody
    exact ⟨span.position, (a.bounds body).2, by simp [reach, hbounds, bind, Except.bind, pure, Except.pure],
      ⟨_, rfl, rfl⟩, fun h => by cases h⟩
  | _ => cases hc

end Planned

end Construction

namespace Arena

section Built

variable {a : Arena} {c : Construction} {p : Payload} {span : Span} {v : Variant}

variable (hw : a.WellFormed) (hcheck : a.checkChildren v [] p.placedHandles = .ok ())

include hcheck

theorem mem_of_checkChildren : ∀ x ∈ p.handles, x ∈ a := by
  intro x hx
  rw [← Payload.map_snd_placedHandles] at hx
  exact ((nodup_of_checkChildren hcheck).2 x hx).1

include hw

variable (span)

/-- A new node is where it was put, and as long as it was made, when its children have moved in. -/
theorem WellFormed.bounds_allocated_self : (a.allocated p span).bounds ⟨a.size⟩ = (span.position, span.stop) := by
  have hsame : SameText (fun _ => False) (fun _ => False) (a.seeded p span) (a.allocated p span) :=
    hw.sameText_seeded_allocated hcheck
  have hroot : (a.seeded p span).parent? ⟨a.size⟩ = none := by simp [parent?, node?_seeded_self]
  rw [hsame.bounds_eq mem_seeded_self not_false not_false, bounds, place_of_root mem_seeded_self hroot]
  simp [offset, extent, node?_seeded_self, Span.stop]

theorem WellFormed.kind?_allocated_self : (a.allocated p span).kind? ⟨a.size⟩ = some (p.variant, false) := by
  have hsame : SameText (fun _ => False) (fun _ => False) (a.seeded p span) (a.allocated p span) :=
    hw.sameText_seeded_allocated hcheck
  rw [hsame.kind?_eq _ mem_seeded_self, kind?, node?_seeded_self, Payload.emptied]
  simp

/-- The children of a new node ask for what they asked for where they stood before. -/
theorem WellFormed.compositeBounds_allocated :
    (a.allocated p span).compositeBounds ⟨a.size⟩ = .ok (p.asked? a.bounds span.position span.stop) := by
  have hassembled : (a.allocated p span).Assembling ⟨a.size⟩ p p.placedHandles [] := by
    have h := hw.assembling span hcheck
    rw [← List.append_nil p.placedHandles] at h
    exact h.movedEach
  obtain ⟨node, hn, rfl⟩ := hassembled.exists_node?
  have hsame : SameText (fun _ => False) (fun _ => False) a (a.allocated node.payload span) :=
    hw.sameText_allocated hcheck
  have hchildren : ∀ x ∈ node.payload.handles, (a.allocated node.payload span).bounds x = a.bounds x :=
    fun x hx => hsame.bounds_eq (mem_of_checkChildren hcheck x hx) not_false not_false
  rw [(hw.allocated span hcheck).compositeBounds_eq hn, hw.bounds_allocated_self span hcheck,
    Payload.asked?_congr hchildren]

variable {span}

/-- For every construction the bounds of the new node may be recomputed at the end, as is done for functions: the extents
of the others are planned from the children. -/
theorem WellFormed.constructed_eq_recomputed (hplan : c.plan a = .ok (p, span)) :
    a.constructed c p span = (a.allocated p span).recomputed ⟨a.size⟩ := by
  unfold Arena.constructed
  split
  · rfl
  · rename_i hopen
    refine ((hw.allocated span hcheck).recomputed_eq_self_iff mem_allocated_self |>.mpr ?_).symm
    intro _ start stop hb
    rw [hw.compositeBounds_allocated span hcheck, Except.ok.injEq] at hb
    cases hc : c.isComposite with
    | false =>
      rw [Construction.asked?_of_plan hplan hc] at hb
      cases hb
    | true =>
      obtain ⟨start', stop', hreaches⟩ :=
        Construction.reaches_of_plan hw.rooted hplan (mem_of_checkChildren hcheck) hc
      obtain ⟨stop'', hasked, hmax⟩ := hreaches.asked
      rw [hb] at hasked
      cases hasked
      rw [hw.bounds_allocated_self span hcheck, hreaches.span_eq (by simpa using hopen), Span.stop_between, hmax]
      rfl

theorem WellFormed.fits_constructed (hplan : c.plan a = .ok (p, span)) : (a.constructed c p span).Fits ⟨a.size⟩ := by
  rw [hw.constructed_eq_recomputed hcheck hplan]
  exact (hw.allocated span hcheck).fits_recomputed mem_allocated_self

/-- A composite node that is built starts and ends as its construction says. -/
theorem WellFormed.bounds_constructed_self (hplan : c.plan a = .ok (p, span)) {start stop : Int}
    (hreaches : c.Reaches a p span start stop) : (a.constructed c p span).bounds ⟨a.size⟩ = (start, max start stop) := by
  obtain ⟨stop', hasked, hmax⟩ := hreaches.asked
  have hcomposite := (hw.compositeBounds_allocated span hcheck).trans (congrArg Except.ok hasked)
  have hfree := isFixed_of_kind? (hw.kind?_allocated_self span hcheck)
  rw [hw.constructed_eq_recomputed hcheck hplan,
    (hw.allocated span hcheck).bounds_recomputed mem_allocated_self hfree hcomposite mem_allocated_self, if_pos rfl, hmax]

end Built

end Arena

namespace Workspace

open Arena

variable {w : Workspace} {i : Nat} {a b : Arena} {h : Handle}

theorem edit?_recomputeBounds_eq_self_iff (hi : w.arena? i = some a) (hw : a.WellFormed) (hh : h ∈ a) :
    w.edit? i (Edit.recomputeBounds h) = some (.ok (), w) ↔ a.Fits h := by
  rw [← hw.recomputed_eq_self_iff hh, edit?_of_ok hi (Edit.run_recomputeBounds hw hh)]
  constructor
  · intro hself
    have hput : w.put i (a.recomputed h) = w := by simpa using hself
    have harena := arena?_put_self hi (a.recomputed h)
    rw [hput, hi] at harena
    exact (Option.some.inj harena).symm
  · intro hself
    rw [hself, put_self hi]

theorem absoluteBounds_of_construct (hi : w.arena? i = some a) (hw : a.WellFormed) {c : Construction} {n : Handle}
    {w' : Workspace} (hedit : w.edit? i (Edit.construct c) = some (.ok n, w')) :
    ∃ b, w'.arena? i = some b ∧ (∀ h ∈ a, b.absoluteBounds h = a.absoluteBounds h) ∧
      (c.isComposite → ∃ start stop, c.reach a = .ok (some (start, stop)) ∧
        b.absoluteBounds n = .ok (start, max start stop)) ∧
      w'.edit? i (Edit.recomputeBounds n) = some (.ok (), w') := by
  obtain ⟨b, hrun, rfl⟩ := (edit?_eq_ok_iff hi).mp hedit
  rcases Edit.construct_cases hw c with ⟨e, -, herror⟩ | ⟨p, span, hplan, ⟨e, -, herror⟩ | ⟨hcheck, hwb, hok⟩⟩
  · rw [herror] at hrun
    cases hrun
  · rw [herror] at hrun
    cases hrun
  · rw [hok] at hrun
    cases hrun
    have hb := arena?_put_self hi (a.constructed c p span)
    have hsame : SameText (fun _ => False) (fun _ => False) a (a.constructed c p span) := hw.sameText_constructed hcheck
    have hnew : (⟨a.size⟩ : Handle) ∈ a.constructed c p span := by
      rw [hw.constructed_eq_recomputed hcheck hplan, (sameTrees_recomputed _ _).mem_iff]
      exact mem_allocated_self
    refine ⟨_, hb, fun h hh => ?_, fun hc => ?_, ?_⟩
    · exact hsame.absoluteBounds_eq hw.rooted hwb.rooted hh
    · obtain ⟨start, stop, hreaches⟩ := Construction.reaches_of_plan hw.rooted hplan (mem_of_checkChildren hcheck) hc
      have hbounds := hw.bounds_constructed_self hcheck hplan hreaches
      exact ⟨start, stop, hreaches.reach_eq, hwb.rooted.absoluteBounds_eq_ok_iff.mpr ⟨hnew, hbounds⟩⟩
    · exact (edit?_recomputeBounds_eq_self_iff hb hwb hnew).mpr (hw.fits_constructed hcheck hplan)

theorem absoluteBounds_of_setChild_body (hi : w.arena? i = some a) (hw : a.WellFormed) {f body : Handle}
    {old : Option Handle} {w' : Workspace} (hk : a.kind? f = some (.function, false))
    (hother : a.child f .body ≠ .ok (some body))
    (hedit : w.edit? i (Edit.setChild f .body (some body)) = some (.ok old, w')) :
    ∃ b start stop before, w'.arena? i = some b ∧ a.absoluteBounds f = .ok (start, before) ∧
      (∃ first, a.absoluteBounds body = .ok (first, stop)) ∧ b.absoluteBounds f = .ok (start, max start stop) ∧
      (∀ h ∈ a, h ≠ f → b.absoluteBounds h = a.absoluteBounds h) ∧
      w'.edit? i (Edit.recomputeBounds f) = some (.ok (), w') := by
  obtain ⟨b, hrun, rfl⟩ := (edit?_eq_ok_iff hi).mp hedit
  rcases Edit.setChild_some_cases hw with ⟨e, herror⟩ | ⟨hs, -⟩ | ⟨d, path, hs, hold, hc, hpath, hcpath, hwb, hok⟩
  · rw [herror] at hrun
    cases hrun
  · exact absurd hs.child_eq hother
  · rw [hok] at hrun
    cases hrun
    have hf := hpath.mem
    have hb := arena?_put_self hi (a.filled f .body body old)
    obtain ⟨hfits, hbounds⟩ := hw.filled_body hk hs hold hc hpath hcpath
    have hafter : ∀ h ∈ a, (a.filled f .body body old).absoluteBounds h = .ok ((a.filled f .body body old).bounds h) :=
      fun h hh => hwb.rooted.absoluteBounds_eq (mem_filled.mpr hh)
    have hbefore : ∀ h ∈ a, a.absoluteBounds h = .ok (a.bounds h) := fun h hh => hw.rooted.absoluteBounds_eq hh
    refine ⟨_, a.place f, (a.bounds body).2, _, hb, hbefore f hf, ⟨_, hbefore body hc⟩, ?_, fun h hh hne => ?_, ?_⟩
    · rw [hafter f hf, hbounds f hf, if_pos rfl]
    · rw [hafter h hh, hbounds h hh, if_neg hne, hbefore h hh]
    · exact (edit?_recomputeBounds_eq_self_iff hb hwb (mem_filled.mpr hf)).mpr hfits

/-- Composite nodes that are built, and functions that get a body, take their bounds from their children, which stay where
they were.  Recomputing these bounds changes nothing. -/
theorem bounds_follow_children (reachable : w.Reachable) (hi : w.arena? i = some a) :
    (∀ (c : Construction) (n : Handle) (w' : Workspace), w.edit? i (Edit.construct c) = some (.ok n, w') →
      ∃ b, w'.arena? i = some b ∧ (∀ h ∈ a, b.absoluteBounds h = a.absoluteBounds h) ∧
        (c.isComposite → ∃ start stop, c.reach a = .ok (some (start, stop)) ∧
          b.absoluteBounds n = .ok (start, max start stop)) ∧
        w'.edit? i (Edit.recomputeBounds n) = some (.ok (), w')) ∧
    ∀ (f body : Handle) (old : Option Handle) (w' : Workspace),
      (∃ node, a.get f = .ok node ∧ node.payload.variant = .function ∧ node.fixedPosition = false) →
      a.child f .body ≠ .ok (some body) → w.edit? i (Edit.setChild f .body (some body)) = some (.ok old, w') →
        ∃ b start stop before, w'.arena? i = some b ∧ a.absoluteBounds f = .ok (start, before) ∧
          (∃ first, a.absoluteBounds body = .ok (first, stop)) ∧ b.absoluteBounds f = .ok (start, max start stop) ∧
          (∀ h ∈ a, h ≠ f → b.absoluteBounds h = a.absoluteBounds h) ∧
          w'.edit? i (Edit.recomputeBounds f) = some (.ok (), w') := by
  have hw := reachable.wellFormed.arena hi
  refine ⟨fun c n w' hedit => absoluteBounds_of_construct hi hw hedit, ?_⟩
  intro f body old w' hf hother hedit
  exact absoluteBounds_of_setChild_body hi hw (kind?_eq_some_iff.mpr hf) hother hedit

/-- A parenthesized name before another one, and a function without a body before a block. -/
def operandsRun : List Action :=
  [.addArena {}, .command 0 (.alloc (.name "x") { position := 30, length := 2 }),
    .command 0 (.alloc (.name "y") { position := 10, length := 1 }),
    .command 0 (.alloc (.parenthesized (some ⟨1⟩)) { position := 8, length := 5 }),
    .command 0 (.alloc (.function {}) { position := 4, length := 1 }),
    .command 0 (.alloc (.block []) { position := 20, length := 15 })]

/-- A sum whose operands stand in the wrong order starts with the left one and is empty.  The function that gets the block
as its body reaches up to the end of the block. -/
theorem bounds_follow_children_operandsRun :
    (∃ w' b, (({} : Workspace).performAll operandsRun).edit? 0 (Edit.construct (.infixExpression .add ⟨0⟩ ⟨1⟩ (-1))) =
        some (.ok ⟨5⟩, w') ∧ w'.arena? 0 = some b ∧ b.absoluteBounds ⟨5⟩ = .ok (30, 30) ∧
      b.absoluteBounds ⟨1⟩ = .ok (10, 11) ∧ w'.edit? 0 (Edit.recomputeBounds ⟨5⟩) = some (.ok (), w')) ∧
    ∃ w' b, (({} : Workspace).performAll operandsRun).edit? 0 (Edit.setChild ⟨3⟩ .body (some ⟨4⟩)) =
        some (.ok none, w') ∧ w'.arena? 0 = some b ∧ b.absoluteBounds ⟨3⟩ = .ok (4, 35) ∧
      b.absoluteBounds ⟨4⟩ = .ok (20, 35) ∧ w'.edit? 0 (Edit.recomputeBounds ⟨3⟩) = some (.ok (), w') := by
  have hreach : (({} : Workspace).performAll operandsRun).Reachable := ⟨operandsRun, by decide, rfl⟩
  obtain ⟨a, w₁, w₂, ha, hsum, hfill, hmem, hbounds₁, hbounds₃, hbounds₄, hchild, hget, hasked⟩ : ∃ a w₁ w₂,
      (({} : Workspace).performAll operandsRun).arena? 0 = some a ∧
        (({} : Workspace).performAll operandsRun).edit? 0 (Edit.construct (.infixExpression .add ⟨0⟩ ⟨1⟩ (-1))) =
          some (.ok ⟨5⟩, w₁) ∧
        (({} : Workspace).performAll operandsRun).edit? 0 (Edit.setChild ⟨3⟩ .body (some ⟨4⟩)) = some (.ok none, w₂) ∧
        (∀ h ∈ [(⟨1⟩ : Handle), ⟨4⟩], h ∈ a) ∧ a.absoluteBounds ⟨1⟩ = .ok (10, 11) ∧
        a.absoluteBounds ⟨3⟩ = .ok (4, 5) ∧ a.absoluteBounds ⟨4⟩ = .ok (20, 35) ∧ a.child ⟨3⟩ .body = .ok none ∧
        (∃ node, a.get ⟨3⟩ = .ok node ∧ node.payload.variant = .function ∧ node.fixedPosition = false) ∧
        (Construction.infixExpression .add ⟨0⟩ ⟨1⟩ (-1)).reach a = .ok (some (30, 11)) :=
    ⟨_, _, _, rfl, rfl, rfl, by decide, rfl, rfl, rfl, rfl, ⟨_, rfl, rfl, rfl⟩, rfl⟩
  constructor
  · obtain ⟨b, hb, hkept, hcomposite, hagain⟩ := (bounds_follow_children hreach ha).1 _ _ w₁ hsum
    obtain ⟨start, stop, hreaches, hself⟩ := hcomposite rfl
    rw [hasked] at hreaches
    cases hreaches
    exact ⟨w₁, b, hsum, hb, hself, (hkept _ (hmem _ (by decide))).trans hbounds₁, hagain⟩
  · obtain ⟨b, start, stop, before, hb, hf, ⟨first, hbody⟩, hself, hkept, hagain⟩ :=
      (bounds_follow_children hreach ha).2 _ _ _ w₂ hget (by simp [hchild]) hfill
    rw [hbounds₃] at hf
    cases hf
    rw [hbounds₄] at hbody
    cases hbody
    exact ⟨w₂, b, hfill, hb, hself, (hkept _ (hmem _ (by decide)) (by decide)).trans hbounds₄, hagain⟩

end Workspace

end ScriptTree
