import ScriptTree.Proofs.Edit.Bounds

/-!
# Punctuation under new bounds

Offsets of punctuation are counted from the start of the node, as the positions of its children are.  When a node gets
another start, its children are shifted back but the offsets are left as they are, so the punctuation goes with the
start.  Of the nodes that may get another start only operations have punctuation, namely the operator
(`Payload.start_of_asked?`): it stays in place exactly if the node starts with its left operand already.
-/

namespace ScriptTree

def Brackets.offsets (b : Brackets) : List Int := [b.opening, b.closing]

namespace Payload

/-- The offsets of the punctuation of a node, known or not. -/
def punctuation : Payload → List Int
  | assignment o | infixExpression o => [o.operatorOffset]
  | conditional _ _ _ questionMark colon => [questionMark, colon]
  | elementGet _ _ brackets => brackets.offsets
  | function f => f.parens.offsets
  | functionCall _ _ parens | newExpression _ _ _ parens | switchStatement _ _ parens | whileLoop _ _ parens
  | withStatement _ _ parens => parens.offsets
  | _ => []

def knownOffsets (p : Payload) : List Int := p.punctuation.filter fun offset => 0 ≤ offset

section Offsets

variable {p : Payload} {o : Operation}

theorem punctuation_of_operation? (hp : p.operation? = some o) : p.punctuation = [o.operatorOffset] := by
  cases p <;> cases hp <;> rfl

theorem knownOffsets_of_operation? (hp : p.operation? = some o) :
    p.knownOffsets = if 0 ≤ o.operatorOffset then [o.operatorOffset] else [] := by
  simp [knownOffsets, punctuation_of_operation? hp, List.filter_cons]

/-- A node with punctuation is asked for another start only if it is an operation, and then for that of its left
operand. -/
theorem start_of_asked? {bounds : Handle → Int × Int} {start stop first last : Int}
    (h : p.asked? bounds start stop = some (first, last)) :
    first = start ∨ p.punctuation = [] ∨
      ∃ o left right, p.operation? = some o ∧ o.left = some left ∧ o.right = some right ∧ first = (bounds left).1 := by
  cases p with
  | assignment o | infixExpression o =>
    rcases o with ⟨t, _ | left, _ | right, offset⟩ <;> simp_all [asked?, operation?]
  | unary t operand afterOperand => exact .inr (.inl rfl)
  | function f =>
    cases hbody : f.body <;> simp_all [asked?]
  | _ => cases h

end Offsets

end Payload

namespace Arena

/-- The places in the source where the known punctuation of a node stands. -/
def punctuationAt (a : Arena) (h : Handle) : Except TreeError (List Int) := do
  let start ← a.absolutePosition h
  return (← a.payload h).knownOffsets.map (start + ·)

section Offsets

variable {a : Arena} {h : Handle} {node : Node}

theorem Rooted.punctuationAt_eq (hr : a.Rooted) (hn : a.node? h = some node) :
    a.punctuationAt h = .ok (node.payload.knownOffsets.map (a.place h + ·)) := by
  simp [punctuationAt, hr.absolutePosition_eq (mem_of_node? hn), payload_eq hn, bind, Except.bind, pure, Except.pure]

theorem WellFormed.punctuationAt_recomputed_of_ne (hw : a.WellFormed) (hh : h ∈ a) {x : Handle} (hx : x ∈ a)
    (hne : x ≠ h) : (a.recomputed h).punctuationAt x = a.punctuationAt x := by
  obtain ⟨node, hn⟩ := mem_iff_node?.mp hx
  obtain ⟨node', hn', hpayload, -⟩ := exists_node?_recomputed h hn
  have hrooted := ((sameTrees_recomputed a h).wellFormed hw).rooted
  have hplace : (a.recomputed h).place x = a.place x := congrArg Prod.fst (hw.bounds_recomputed_of_ne hh hx hne)
  rw [hrooted.punctuationAt_eq hn', hw.rooted.punctuationAt_eq hn, hpayload, hplace]

/-- The punctuation of a node goes with its start. -/
theorem WellFormed.punctuationAt_recomputed_self (hw : a.WellFormed) (hn : a.node? h = some node) :
    (a.recomputed h).punctuationAt h = .ok (node.payload.knownOffsets.map ((a.recomputed h).place h + ·)) := by
  obtain ⟨node', hn', hpayload, -⟩ := exists_node?_recomputed h hn
  rw [((sameTrees_recomputed a h).wellFormed hw).rooted.punctuationAt_eq hn', hpayload]

/-- An operation with both operands starts with the left one when its bounds have been recomputed. -/
theorem WellFormed.place_recomputed_of_operation? (hw : a.WellFormed) (hn : a.node? h = some node) {o : Operation}
    (ho : node.payload.operation? = some o) {left right : Handle} (hleft : o.left = some left)
    (hright : o.right = some right) (hfixed : node.fixedPosition = false) :
    (a.recomputed h).place h = a.place left := by
  have hh := mem_of_node? hn
  have hfree : a.isFixed h = false := by simp [isFixed, hn, hfixed]
  have hask := hw.compositeBounds_eq hn
  rw [Payload.asked?_of_operation? ho hleft hright] at hask
  have hself := hw.bounds_recomputed hh hfree hask hh
  rw [if_pos rfl] at hself
  exact congrArg Prod.fst hself

/-- The punctuation of a node stays where it is when the bounds of the node are recomputed, unless the node is an
operation that gets the start of its left operand and has another one. -/
theorem WellFormed.place_recomputed_eq_iff (hw : a.WellFormed) (hn : a.node? h = some node) :
    ((a.recomputed h).place h = a.place h ∨ node.payload.knownOffsets = []) ↔
      ∀ o left right, node.payload.operation? = some o → o.left = some left → o.right = some right →
        node.fixedPosition = false → 0 ≤ o.operatorOffset → a.place left = a.place h := by
  have hh := mem_of_node? hn
  constructor
  · intro hkept o left right ho hleft hright hfixed hknown
    rw [← hw.place_recomputed_of_operation? hn ho hleft hright hfixed]
    refine hkept.resolve_right ?_
    simp [Payload.knownOffsets_of_operation? ho, hknown]
  · intro hstart
    by_cases hfits : a.Fits h
    · exact .inl (by rw [(hw.recomputed_eq_self_iff hh).mpr hfits])
    · simp only [Fits, Classical.not_imp, not_forall] at hfits
      obtain ⟨hfree, start, stop, hb, -⟩ := hfits
      have hplace := congrArg Prod.fst (hw.bounds_recomputed hh hfree hb hh)
      rw [if_pos rfl] at hplace
      rw [hw.compositeBounds_eq hn, Except.ok.injEq] at hb
      rcases Payload.start_of_asked? hb with hsame | hnone | ⟨o, left, right, ho, hleft, hright, hfirst⟩
      · exact .inl (hplace.trans hsame)
      · exact .inr (by simp [Payload.knownOffsets, hnone])
      · by_cases hknown : 0 ≤ o.operatorOffset
        · have hfixed : node.fixedPosition = false := by simpa [isFixed, hn] using hfree
          exact .inl ((hplace.trans hfirst).trans (hstart o left right ho hleft hright hfixed hknown))
        · exact .inr (by simp [Payload.knownOffsets_of_operation? ho, hknown])

end Offsets

end Arena

namespace Workspace

open Arena

private theorem map_add_left_eq_iff {x y : Int} {offsets : List Int} :
    offsets.map (x + ·) = offsets.map (y + ·) ↔ x = y ∨ offsets = [] := by
  cases offsets with
  | nil => simp
  | cons offset offsets =>
    constructor
    · intro h
      have hhead : x + offset = y + offset := (List.cons.inj h).1
      exact .inl (by omega)
    · intro h
      rw [h.resolve_right (List.cons_ne_nil _ _)]

/-- Recomputing the bounds of a node keeps all other nodes and their punctuation in place.  The punctuation of the node
itself goes with its start; it stays in place exactly if the node is no operation whose operator has a known place, that
takes its bounds from both operands, and whose left operand starts elsewhere. -/
theorem recomputeBounds_punctuation {w : Workspace} (reachable : w.Reachable) {i : Nat} {a : Arena}
    (hi : w.arena? i = some a) {n : Handle} {node : Node} (hn : a.get n = .ok node) :
    ∃ w' b before after, w.edit? i (Edit.recomputeBounds n) = some (.ok (), w') ∧ w'.arena? i = some b ∧
      a.absolutePosition n = .ok before ∧ b.absolutePosition n = .ok after ∧ b.payload n = .ok node.payload ∧
      (∀ h ∈ a, h ≠ n → b.absolutePosition h = a.absolutePosition h ∧ b.punctuationAt h = a.punctuationAt h) ∧
      b.punctuationAt n = (a.punctuationAt n).map (List.map (· + (after - before))) ∧
      (∀ o left right, node.payload.operation? = some o → o.left = some left → o.right = some right →
        node.fixedPosition = false → a.absolutePosition left = .ok after) ∧
      (b.punctuationAt n = a.punctuationAt n ↔
        ∀ o left right, node.payload.operation? = some o → o.left = some left → o.right = some right →
          node.fixedPosition = false → 0 ≤ o.operatorOffset → a.absolutePosition left = .ok before) := by
  have hw := reachable.wellFormed.arena hi
  have hwb := (sameTrees_recomputed a n).wellFormed hw
  have hn : a.node? n = some node := get_eq_ok_iff.mp hn
  have hna := mem_of_node? hn
  have hmem : ∀ h ∈ a, h ∈ a.recomputed n := fun h hh => (sameTrees_recomputed a n).mem_iff.mpr hh
  have hleft : ∀ o left, node.payload.operation? = some o → o.left = some left →
      a.absolutePosition left = .ok (a.place left) := by
    intro o left ho hleft
    refine hw.rooted.absolutePosition_eq (hw.child_mem n hna left ?_)
    rw [handlesAt_eq hn]
    exact Payload.mem_handles_of_single? ((Payload.single?_of_operation? ho).1.trans (congrArg some hleft))
  obtain ⟨node', hn', hpayload, -⟩ := exists_node?_recomputed n hn
  refine ⟨_, a.recomputed n, a.place n, (a.recomputed n).place n, edit?_of_ok hi (Edit.run_recomputeBounds hw hna),
    arena?_put_self hi _, hw.rooted.absolutePosition_eq hna, hwb.rooted.absolutePosition_eq (hmem n hna),
    hpayload ▸ payload_eq hn', fun h hh hne => ⟨?_, hw.punctuationAt_recomputed_of_ne hna hh hne⟩, ?_, ?_, ?_⟩
  · rw [hwb.rooted.absolutePosition_eq (hmem h hh), hw.rooted.absolutePosition_eq hh]
    exact congrArg (Except.ok ∘ Prod.fst) (hw.bounds_recomputed_of_ne hna hh hne)
  · rw [hw.punctuationAt_recomputed_self hn, hw.rooted.punctuationAt_eq hn, Except.map, List.map_map]
    refine congrArg Except.ok (List.map_congr_left fun offset _ => ?_)
    simp only [Function.comp_apply]
    omega
  · intro o left right ho hl hr hfixed
    rw [hleft o left ho hl, hw.place_recomputed_of_operation? hn ho hl hr hfixed]
  · rw [hw.punctuationAt_recomputed_self hn, hw.rooted.punctuationAt_eq hn, Except.ok.injEq,
      map_add_left_eq_iff, hw.place_recomputed_eq_iff hn]
    constructor
    · intro hstart o left right ho hl hr hfixed hknown
      rw [hleft o left ho hl, hstart o left right ho hl hr hfixed hknown]
    · intro hstart o left right ho hl hr hfixed hknown
      exact Except.ok.inj ((hleft o left ho hl).symm.trans (hstart o left right ho hl hr hfixed hknown))

/-- A sum whose left operand has been replaced by a name further up in the source. -/
def earlierOperandRun : List Action :=
  [.addArena {}, .command 0 (.alloc (.name "x") { position := 4, length := 1 }),
    .command 0 (.alloc (.name "y") { position := 8, length := 1 }),
    .command 0 (.construct (.infixExpression .add ⟨0⟩ ⟨1⟩ 6)),
    .command 0 (.alloc (.name "z") { position := 0, length := 1 }),
    .command 0 (.setChild ⟨2⟩ .left (some ⟨3⟩))]

/-- The sum moves from 4 to 0 and takes the operator along, from 6 to 2. -/
theorem recomputeBounds_punctuation_earlierOperandRun :
    ∃ a w' b, (({} : Workspace).performAll earlierOperandRun).arena? 0 = some a ∧
      (({} : Workspace).performAll earlierOperandRun).edit? 0 (Edit.recomputeBounds ⟨2⟩) = some (.ok (), w') ∧
      w'.arena? 0 = some b ∧ a.absolutePosition ⟨2⟩ = .ok 4 ∧ b.absolutePosition ⟨2⟩ = .ok 0 ∧
      a.punctuationAt ⟨2⟩ = .ok [6] ∧ b.punctuationAt ⟨2⟩ = .ok [2] ∧
      b.absolutePosition ⟨1⟩ = a.absolutePosition ⟨1⟩ := by
  have hreach : (({} : Workspace).performAll earlierOperandRun).Reachable := ⟨earlierOperandRun, by decide, rfl⟩
  obtain ⟨a, node, o, ha, hn, ho, hleft, hright, hfixed, hbefore, hstart, hoperator, hmem⟩ : ∃ a node o,
      (({} : Workspace).performAll earlierOperandRun).arena? 0 = some a ∧ a.get ⟨2⟩ = .ok node ∧
        node.payload.operation? = some o ∧ o.left = some ⟨3⟩ ∧ o.right = some ⟨1⟩ ∧ node.fixedPosition = false ∧
        a.absolutePosition ⟨2⟩ = .ok 4 ∧ a.absolutePosition ⟨3⟩ = .ok 0 ∧ a.punctuationAt ⟨2⟩ = .ok [6] ∧
        (⟨1⟩ : Handle) ∈ a :=
    ⟨_, _, _, rfl, rfl, rfl, rfl, rfl, rfl, rfl, rfl, rfl, by decide⟩
  obtain ⟨w', b, before, after, hrun, hb, hbefore', hafter, -, hothers, hshift, hself, -⟩ :=
    recomputeBounds_punctuation hreach ha hn
  rw [hbefore] at hbefore'
  cases hbefore'
  have hleftmost := hself o _ _ ho hleft hright hfixed
  rw [hstart] at hleftmost
  cases hleftmost
  rw [hoperator] at hshift
  exact ⟨a, w', b, ha, hrun, hb, hbefore, hafter, hoperator, hshift, (hothers _ hmem (by decide)).1⟩

end Workspace

end ScriptTree
