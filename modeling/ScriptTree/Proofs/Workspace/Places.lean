import ScriptTree.Proofs.Edit.Places
import ScriptTree.Proofs.Workspace

/-!
# Structural edits never move source text

Whatever is allocated, built, put somewhere, taken out or copied, every node that was there before is still where it was
in the source, and it has the same length; the one exception is a function that gets a new body.  Recomputing the bounds
of a node moves no other node.  Each edit keeps places by the moves that it is made of; a copy is new, so it matters to
nobody else that it is moved once more when it hangs below its parent (`SameText.spanned`).
-/

namespace ScriptTree

open Arena

namespace Arena

/-! ### Copies -/

section Copies

variable {shifted resized : Handle → Prop} {a b : Arena}

theorem CopyOf.sameText {source dest : Arena} {root : Handle} {order : List Handle} (h : source.CopyOf dest root order b)
    (hd : dest.WellFormed) : SameText shifted resized dest b :=
  sameText_of_node?_eq hd.rooted h.node?_old

/-- When a copy is put into a slot, the other nodes keep their parents or become roots. -/
theorem CopyOf.parent?_filled {source : Arena} {root o : Handle} {s : Slot} {old : Option Handle} {order : List Handle}
    (h : source.CopyOf a root order b) (hc : (⟨a.size⟩ : Handle) ∈ b) {x : Handle} (hx : x ∈ a) :
    (b.filled o s ⟨a.size⟩ old).parent? x = a.parent? x ∨ (b.filled o s ⟨a.size⟩ old).parent? x = none := by
  have hxc : x ≠ ⟨a.size⟩ := by
    rintro rfl
    exact Nat.lt_irrefl a.size hx
  rw [filled, (sameTrees_settled _ o s).parent?_eq, parent?_grafted (by simpa using hc), if_neg hxc,
    parent?_severedEach, parent?_severed, if_neg hxc, h.parent?_old hx]
  split
  · exact .inr rfl
  · exact .inl rfl

/-- Nodes that keep their parents or become roots are not below a new node, so they stay when it is moved. -/
theorem SameText.spanned (h : SameText shifted resized a b) (ha : a.Rooted) (hb : b.Rooted) {c : Handle} (hc : c ∉ a)
    (hlinks : ∀ x ∈ a, b.parent? x = a.parent? x ∨ b.parent? x = none) (span : Span) :
    SameText shifted resized a (b.spanned c span) := by
  have hne : ∀ x ∈ a, x ≠ c := fun x hx hxc => hc (hxc ▸ hx)
  have hnode : ∀ x ∈ a, (b.spanned c span).node? x = b.node? x := by
    intro x hx
    rw [Arena.spanned, node?_update, if_neg (hne x hx)]
  refine ⟨fun x hx => mem_update.mpr (h.mem x hx), fun x hx => ?_, fun x hx hm => ?_, fun x hx hr => ?_⟩
  · rw [← h.kind?_eq x hx, kind?, kind?, hnode x hx]
  · rw [← h.place_eq x hx hm]
    obtain ⟨path, hp⟩ := hb x (h.mem x hx)
    have hold : ∀ y ∈ path, y ∈ a := by
      clear hm
      induction hp with
      | root => simpa using hx
      | @step x p path link _ ih =>
        have hpa : p ∈ a := by
          rcases hlinks x hx with hsame | hroot
          · exact ha.mem_of_parent?_eq (hsame ▸ link)
          · rw [hroot] at link
            cases link
        exact List.forall_mem_cons.mpr ⟨hx, ih hpa⟩
    refine hp.place_congr (fun y hy => mem_update.mpr (h.mem y (hold y hy))) (fun y hy => ?_) fun y hy => ?_
    · rw [parent?, parent?, hnode y (hold y hy)]
    · rw [offset, offset, hnode y (hold y hy)]
  · rw [← h.extent_eq x hx hr, extent, extent, hnode x hx]

end Copies

end Arena

namespace Edit

section Edits

variable {shifted resized : Handle → Prop} {a b : Arena} (hw : a.WellFormed)

include hw

theorem sameText_alloc {p : Payload} {span : Span} {h : Handle} (hrun : alloc p span a = .ok h b) :
    SameText shifted resized a b := by
  rcases alloc_cases hw p span with ⟨e, -, herror⟩ | ⟨hcheck, -, hok⟩
  · rw [herror] at hrun
    cases hrun
  · rw [hok] at hrun
    cases hrun
    exact hw.sameText_allocated hcheck

theorem sameText_detach {h : Handle} {former : Option (Handle × Slot)} (hrun : detach h a = .ok former b) :
    SameText shifted resized a b := by
  by_cases hh : h ∈ a
  · rw [run_detach hw hh] at hrun
    cases hrun
    exact sameText_severed hw.rooted h
  · rw [run_detach_error hh] at hrun
    cases hrun

theorem sameText_construct {k : Construction} {h : Handle} (hrun : construct k a = .ok h b) :
    SameText shifted resized a b := by
  rcases construct_cases hw k with ⟨e, -, herror⟩ | ⟨p, span, -, ⟨e, -, herror⟩ | ⟨hcheck, -, hok⟩⟩
  · rw [herror] at hrun
    cases hrun
  · rw [herror] at hrun
    cases hrun
  · rw [hok] at hrun
    cases hrun
    exact hw.sameText_constructed hcheck

theorem sameText_setChild {o : Handle} {s : Slot} {child old : Option Handle} (hrun : setChild o s child a = .ok old b)
    (hr : ∀ c, child = some c → s = .body → a.child o s ≠ .ok (some c) → a.kind? o = some (.function, false) →
      resized o) :
    SameText shifted resized a b := by
  cases child with
  | none =>
    rcases setChild_none_cases hw with ⟨e, herror⟩ | ⟨old, -, hok⟩
    · rw [herror] at hrun
      cases hrun
    · rw [hok] at hrun
      cases hrun
      exact sameText_severedEach hw.rooted _
  | some c =>
    rcases setChild_some_cases hw with ⟨e, herror⟩ | ⟨-, hok⟩ | ⟨old, path, hs, hold, hc, hpath, hcpath, -, hok⟩
    · rw [herror] at hrun
      cases hrun
    · rw [hok] at hrun
      cases hrun
      exact .refl a
    · rw [hok] at hrun
      cases hrun
      refine hw.sameText_filled hs hold hc hpath hcpath fun hbody hkind => hr c rfl hbody ?_ hkind
      rw [hs.child_eq]
      exact fun h => hold (Except.ok.inj h)

theorem sameText_pushChild {o c : Handle} {s : Slot} {u : Unit} (hrun : pushChild o s c a = .ok u b) :
    SameText shifted resized a b := by
  rcases pushChild_cases hw with ⟨e, herror⟩ | ⟨path, hc, hpath, hcpath, -, hok⟩
  · rw [herror] at hrun
    cases hrun
  · rw [hok] at hrun
    cases hrun
    exact sameText_moved hw.rooted hc hpath hcpath

theorem sameText_setChildList {o : Handle} {s : Slot} {cs : List Handle} {u : Unit}
    (hrun : setChildList o s cs a = .ok u b) : SameText shifted resized a b := by
  rcases setChildList_cases hw cs with ⟨e, herror⟩ | ⟨old, path, -, hpath, hcs, -, hok⟩
  · rw [herror] at hrun
    cases hrun
  · rw [hok] at hrun
    cases hrun
    refine (sameText_severedEach hw.rooted old).trans
      (sameText_movedEach (hw.severedEach old).rooted hpath fun x hx => ?_)
    obtain ⟨c, hc, rfl⟩ := List.mem_map.mp hx
    exact hcs c hc

theorem sameText_cloneSubtree {n : Handle} {target : Option (Handle × Slot)} {map : CloneMap}
    (hrun : cloneSubtree n target a = .ok map b)
    (hr : ∀ o, target = some (o, .body) → a.kind? o = some (.function, false) → resized o) :
    SameText shifted resized a b := by
  cases target with
  | none =>
    rcases cloneSubtree_none_cases hw n with ⟨e, -, herror⟩ | ⟨order, b', -, hcopy, hok⟩
    · rw [herror] at hrun
      cases hrun
    · rw [hok] at hrun
      cases hrun
      exact hcopy.sameText hw
  | some target =>
  obtain ⟨o, s⟩ := target
  rcases cloneSubtree_some_cases hw n o s with ⟨e, herror⟩ | ⟨order, copied, node, horder, hcopy, -, hattach⟩
  · rw [herror] at hrun
    cases hrun
  have hl := listing_of_preOrder horder
  have hwc := hcopy.wellFormed hw hl hw
  have hc := hcopy.root_mem hl
  have hnew : (⟨a.size⟩ : Handle) ∉ a := Nat.lt_irrefl a.size
  have hne : ∀ x ∈ a, x ≠ ⟨a.size⟩ := fun x hx hxc => hnew (hxc ▸ hx)
  have hsame : SameText shifted resized a copied := hcopy.sameText hw
  rcases hattach with ⟨cs, hs, hwb, hok⟩ | ⟨old, hs, hwb, hok⟩
  · -- the copy becomes the last entry of a list
    rw [hok] at hrun
    cases hrun
    obtain ⟨path, hpath, hcpath⟩ := hcopy.exists_ascent hw (mem_of_node? hs.choose_spec.1)
    refine (hsame.trans (sameText_moved hwc.rooted hc hpath hcpath)).spanned hw.rooted hwb.rooted hnew (fun x hx => ?_) _
    left
    rw [Arena.moved, parent?_grafted (mem_severed.mpr hc), if_neg (hne x hx), parent?_severed, if_neg (hne x hx),
      hcopy.parent?_old hx]
  · -- the copy displaces a child, which becomes a root
    rw [hok] at hrun
    cases hrun
    have ho : o ∈ a := mem_of_node? hs.choose_spec.1
    obtain ⟨path, hpath, hcpath⟩ := hcopy.exists_ascent hw ho
    have hsc := hs.of_node?_eq (hcopy.node?_old o ho)
    have hold : old ≠ some ⟨a.size⟩ := by
      rintro rfl
      exact hnew (hw.child_mem o ho _ hs.mem_handlesAt)
    have hfilled : SameText shifted resized copied (copied.filled o s ⟨a.size⟩ old) := by
      refine hwc.sameText_filled hsc hold hc hpath hcpath fun hbody hkind => ?_
      exact hr o (by rw [hbody]) ((hsame.kind?_eq o ho).symm.trans hkind)
    exact (hsame.trans hfilled).spanned hw.rooted hwb.rooted hnew (fun x hx => hcopy.parent?_filled hc hx) _

theorem sameText_recomputeBounds {h : Handle} {u : Unit} (hrun : recomputeBounds h a = .ok u b) :
    SameText (· = h) (· = h) a b := by
  by_cases hh : h ∈ a
  · rw [run_recomputeBounds hw hh] at hrun
    cases hrun
    exact hw.sameText_recomputed hh (.inl rfl) fun _ => rfl
  · rw [recomputeBounds, run_inspect_bind_error (get_eq_error hh)] at hrun
    cases hrun

end Edits

end Edit

/-! ### Commands -/

namespace Command

/-- The command makes nodes, or changes which of them hang where. -/
def isStructural : Command → Bool
  | alloc .. | construct _ | setChild .. | pushChild .. | setChildList .. | detach _ | cloneSubtree .. => true
  | _ => false

/-- The node is a function whose bounds are not fixed, and the command puts another body into it. -/
def FillsBody (c : Command) (a : Arena) (h : Handle) : Prop :=
  (∃ node, a.get h = .ok node ∧ node.payload.variant = .function ∧ node.fixedPosition = false) ∧
    ((∃ child, c = setChild h .body (some child) ∧ a.child h .body ≠ .ok (some child)) ∨
      ∃ n, c = cloneSubtree n (some (h, .body)))

/-- Structural commands keep all nodes in place and all lengths but for that of a function whose body they fill. -/
theorem sameText_of_run {a b : Arena} (hw : a.WellFormed) {c : Command} (hc : c.isStructural) {r : Reply}
    (h : c.run a = .ok r b) : SameText (fun _ => False) (c.FillsBody a) a b := by
  cases c with
  | alloc p span =>
    obtain ⟨x, hrun⟩ := Edit.exists_of_run_map h
    exact Edit.sameText_alloc hw hrun
  | construct k =>
    obtain ⟨x, hrun⟩ := Edit.exists_of_run_map h
    exact Edit.sameText_construct hw hrun
  | setChild o s child =>
    obtain ⟨x, hrun⟩ := Edit.exists_of_run_map h
    refine Edit.sameText_setChild hw hrun fun c hchild hs hother hk => ⟨kind?_eq_some_iff.mp hk, .inl ⟨c, ?_, ?_⟩⟩
    · rw [hchild, hs]
    · exact hs ▸ hother
  | pushChild o s child =>
    obtain ⟨x, hrun⟩ := Edit.exists_of_run_map h
    exact Edit.sameText_pushChild hw hrun
  | setChildList o s cs =>
    obtain ⟨x, hrun⟩ := Edit.exists_of_run_map h
    exact Edit.sameText_setChildList hw hrun
  | detach n =>
    obtain ⟨x, hrun⟩ := Edit.exists_of_run_map h
    exact Edit.sameText_detach hw hrun
  | cloneSubtree n target =>
    obtain ⟨x, hrun⟩ := Edit.exists_of_run_map h
    exact Edit.sameText_cloneSubtree hw hrun fun o ho hk => ⟨kind?_eq_some_iff.mp hk, .inr ⟨n, by rw [ho]⟩⟩
  | recomputeBounds | mark | setSpan | refine | overwritePayload => cases hc

end Command

/-! ### Reachable arenas -/

/-- Where a node stands in the source, and its length. -/
def Arena.HasPlace (a : Arena) (h : Handle) (position length : Int) : Prop :=
  a.absolutePosition h = .ok position ∧ ∃ node, a.get h = .ok node ∧ node.span.length = length

theorem Arena.Rooted.hasPlace {a : Arena} (hr : a.Rooted) {h : Handle} (hh : h ∈ a) :
    a.HasPlace h (a.place h) (a.extent h) := by
  obtain ⟨node, hn⟩ := mem_iff_node?.mp hh
  exact ⟨hr.absolutePosition_eq hh, node, get_eq hn, by simp [extent, hn]⟩

theorem Arena.HasPlace.unique {a : Arena} {h : Handle} {p p' l l' : Int} (hp : a.HasPlace h p l)
    (hp' : a.HasPlace h p' l') : p = p' ∧ l = l' := by
  obtain ⟨hpos, node, hn, rfl⟩ := hp
  obtain ⟨hpos', node', hn', rfl⟩ := hp'
  obtain rfl := Except.ok.inj (hn.symm.trans hn')
  exact ⟨Except.ok.inj (hpos.symm.trans hpos'), rfl⟩

theorem Arena.SameText.exists_places {shifted resized : Handle → Prop} {a b : Arena} (h : SameText shifted resized a b)
    (ha : a.Rooted) (hb : b.Rooted) {x : Handle} (hx : x ∈ a) : ∃ position length position' length',
      a.HasPlace x position length ∧ b.HasPlace x position' length' ∧
        (shifted x ∨ position' = position) ∧ (resized x ∨ length' = length) :=
  ⟨_, _, _, _, ha.hasPlace hx, hb.hasPlace (h.mem x hx), or_iff_not_imp_left.mpr (h.place_eq x hx),
    or_iff_not_imp_left.mpr (h.extent_eq x hx)⟩

theorem Arena.WellFormed.sameText_of_nodes_eq {shifted resized : Handle → Prop} {a b : Arena} (hw : a.WellFormed)
    (h : b.nodes = a.nodes) : SameText shifted resized a b :=
  sameText_of_node?_eq hw.rooted fun x _ => by rw [node?, node?, h]

namespace Workspace

/-- Every node of every arena of `w` is still there in `w'`, at the same place in the source unless it is `shifted`, and
with the same length unless it is `resized`. -/
def KeepsPlaces (w w' : Workspace) (shifted resized : Nat → Handle → Prop) : Prop :=
  ∀ k a, w.arena? k = some a → ∃ b, w'.arena? k = some b ∧ ∀ h ∈ a, ∃ position length position' length',
    a.HasPlace h position length ∧ b.HasPlace h position' length' ∧
      (shifted k h ∨ position' = position) ∧ (resized k h ∨ length' = length)

theorem keepsPlaces_put {w : Workspace} (hw : w.WellFormed) {i : Nat} {a b : Arena} (hi : w.arena? i = some a)
    (hb : b.WellFormed) {shifted resized : Handle → Prop} (h : SameText shifted resized a b) :
    w.KeepsPlaces (w.put i b) (fun k x => k = i ∧ shifted x) (fun k x => k = i ∧ resized x) := by
  intro k a' hk
  have ha' := hw.arena hk
  obtain ⟨b', hk', hnodes⟩ := exists_arena?_put hk i b
  refine ⟨b', hk', fun x hx => ?_⟩
  by_cases hki : k = i
  · subst hki
    obtain rfl : a' = a := Option.some.inj (hk.symm.trans hi)
    rw [if_pos rfl] at hnodes
    simpa using (h.trans (hb.sameText_of_nodes_eq hnodes)).exists_places ha'.rooted (hb.of_nodes_eq hnodes).rooted hx
  · rw [if_neg hki] at hnodes
    have hsame : SameText (fun _ => False) (fun _ => False) a' b' := ha'.sameText_of_nodes_eq hnodes
    simpa [hki] using hsame.exists_places ha'.rooted (ha'.of_nodes_eq hnodes).rooted hx

/-- A command that succeeds has put back a well-formed arena. -/
theorem WellFormed.exists_run_of_edit? {w w' : Workspace} (hw : w.WellFormed) {i : Nat} {a : Arena}
    (hi : w.arena? i = some a) {c : Command} (hc : c.isChecked) {r : Reply}
    (h : w.edit? i c.run = some (.ok r, w')) : ∃ b, b.WellFormed ∧ c.run a = .ok r b ∧ w' = w.put i b := by
  rcases Command.run_cases (hw.arena hi) hc with ⟨e, herror⟩ | ⟨r', b, hb, hok⟩
  · rw [edit?_of_error hi herror] at h
    cases h
  · rw [edit?_of_ok hi hok] at h
    cases h
    exact ⟨b, hb, hok, rfl⟩

theorem keepsPlaces_of_command {w w' : Workspace} (hw : w.WellFormed) {i : Nat} {a : Arena} (hi : w.arena? i = some a)
    {c : Command} (hc : c.isStructural) {r : Reply} (h : w.edit? i c.run = some (.ok r, w')) :
    w.KeepsPlaces w' (fun _ _ => False) (fun k x => k = i ∧ c.FillsBody a x) := by
  have hchecked : c.isChecked := by cases c <;> first | rfl | cases hc
  obtain ⟨b, hb, hrun, rfl⟩ := hw.exists_run_of_edit? hi hchecked h
  simpa using keepsPlaces_put hw hi hb (Command.sameText_of_run (hw.arena hi) hc hrun)

theorem keepsPlaces_of_copyInto {w w' : Workspace} (hw : w.WellFormed) {i j : Nat} {n : Handle} {map : CloneMap}
    (h : w.copyInto? i n j = some (.ok map, w')) : w.KeepsPlaces w' (fun _ _ => False) fun _ _ => False := by
  obtain ⟨source, dest, order, b, -, hj, -, hcopy, hb, -, rfl⟩ := hw.exists_of_copyInto? h
  have hsame : SameText (fun _ => False) (fun _ => False) dest b := hcopy.sameText (hw.arena hj)
  simpa using keepsPlaces_put hw hj hb hsame

theorem keepsPlaces_of_recomputeBounds {w w' : Workspace} (hw : w.WellFormed) {i : Nat} {n : Handle} {r : Reply}
    (h : w.edit? i (Command.recomputeBounds n).run = some (.ok r, w')) :
    w.KeepsPlaces w' (fun k x => k = i ∧ x = n) fun k x => k = i ∧ x = n := by
  cases hi : w.arena? i with
  | none =>
    rw [edit?_eq_none hi] at h
    cases h
  | some a =>
    obtain ⟨b, hb, hrun, rfl⟩ := hw.exists_run_of_edit? hi rfl h
    obtain ⟨u, hrun⟩ := Edit.exists_of_run_map hrun
    exact keepsPlaces_put hw hi hb (Edit.sameText_recomputeBounds (hw.arena hi) hrun)

/-- Structural edits never move source text.  A structural command that succeeds keeps every node of every arena at its
place and at its length, unless it is a function whose body was just filled; copying a subtree keeps all nodes; and
recomputing the bounds of a node keeps all other nodes. -/
theorem structural_edits_keep_places {w : Workspace} (reachable : w.Reachable) :
    (∀ (i : Nat) (a : Arena) (c : Command) (r : Reply) (w' : Workspace), w.arena? i = some a → c.isStructural →
      w.edit? i c.run = some (.ok r, w') →
        w.KeepsPlaces w' (fun _ _ => False) (fun k h => k = i ∧ c.FillsBody a h)) ∧
    (∀ (i : Nat) (n : Handle) (j : Nat) (map : CloneMap) (w' : Workspace),
      w.copyInto? i n j = some (.ok map, w') → w.KeepsPlaces w' (fun _ _ => False) fun _ _ => False) ∧
    ∀ (i : Nat) (n : Handle) (r : Reply) (w' : Workspace),
      w.edit? i (Command.recomputeBounds n).run = some (.ok r, w') →
        w.KeepsPlaces w' (fun k h => k = i ∧ h = n) fun k h => k = i ∧ h = n :=
  ⟨fun _ _ _ _ _ hi hc h => keepsPlaces_of_command reachable.wellFormed hi hc h,
    fun _ _ _ _ _ h => keepsPlaces_of_copyInto reachable.wellFormed h,
    fun _ _ _ _ h => keepsPlaces_of_recomputeBounds reachable.wellFormed h⟩

/-- A function with a block as its body, and another block further down in the source. -/
def bodyRun : List Action :=
  [.addArena {}, .command 0 (.alloc (.block []) { position := 20, length := 5 }),
    .command 0 (.alloc (.function { body := some ⟨0⟩ }) { position := 4, length := 21 }),
    .command 0 (.alloc (.block []) { position := 30, length := 12 })]

/-- The function gets the other block as its body: both blocks stay, and the function reaches up to its new body. -/
theorem structural_edits_keep_places_bodyRun :
    ∃ r w' a b, (({} : Workspace).performAll bodyRun).edit? 0 (Command.setChild ⟨1⟩ .body (some ⟨2⟩)).run =
        some (.ok r, w') ∧ (({} : Workspace).performAll bodyRun).arena? 0 = some a ∧ w'.arena? 0 = some b ∧
      a.HasPlace ⟨0⟩ 20 5 ∧ b.HasPlace ⟨0⟩ 20 5 ∧ a.HasPlace ⟨1⟩ 4 21 ∧ b.HasPlace ⟨1⟩ 4 38 ∧
        a.parent? ⟨2⟩ = none ∧ b.parent? ⟨2⟩ = some ⟨1⟩ ∧ b.HasPlace ⟨2⟩ 30 12 := by
  have hreach : (({} : Workspace).performAll bodyRun).Reachable := ⟨bodyRun, by decide, rfl⟩
  obtain ⟨r, w', a, b, hrun, ha, hb, h₀, h₁, h₂, h₁', htop, hlink⟩ : ∃ r w' a b,
      (({} : Workspace).performAll bodyRun).edit? 0 (Command.setChild ⟨1⟩ .body (some ⟨2⟩)).run = some (.ok r, w') ∧
        (({} : Workspace).performAll bodyRun).arena? 0 = some a ∧ w'.arena? 0 = some b ∧ a.HasPlace ⟨0⟩ 20 5 ∧
        a.HasPlace ⟨1⟩ 4 21 ∧ a.HasPlace ⟨2⟩ 30 12 ∧ b.HasPlace ⟨1⟩ 4 38 ∧ a.parent? ⟨2⟩ = none ∧
        b.parent? ⟨2⟩ = some ⟨1⟩ :=
    ⟨_, _, _, _, rfl, rfl, rfl, ⟨rfl, _, rfl, rfl⟩, ⟨rfl, _, rfl, rfl⟩, ⟨rfl, _, rfl, rfl⟩, ⟨rfl, _, rfl, rfl⟩, rfl, rfl⟩
  obtain ⟨b', hb', hplaces⟩ := (structural_edits_keep_places hreach).1 0 a _ r w' ha rfl hrun 0 a ha
  obtain rfl : b' = b := Option.some.inj (hb'.symm.trans hb)
  have hkeep : ∀ h position length, h ≠ ⟨1⟩ → a.HasPlace h position length → b'.HasPlace h position length := by
    intro h position length hne hp
    obtain ⟨node, hn, -⟩ := hp.2
    obtain ⟨p, l, p', l', hbefore, hafter, hpos, hlen⟩ := hplaces h (mem_of_node? (get_eq_ok_iff.mp hn))
    obtain ⟨rfl, rfl⟩ := hbefore.unique hp
    obtain rfl := hpos.resolve_left id
    have hfills : ¬Command.FillsBody (.setChild ⟨1⟩ .body (some ⟨2⟩)) a h := by
      rintro ⟨-, ⟨child, heq, -⟩ | ⟨n, heq⟩⟩
      · exact hne (Command.setChild.inj heq).1.symm
      · cases heq
    obtain rfl := hlen.resolve_left fun h => hfills h.2
    exact hafter
  exact ⟨r, w', a, b', hrun, ha, hb, h₀, hkeep _ _ _ (by decide) h₀, h₁, h₁', htop, hlink, hkeep _ _ _ (by decide) h₂⟩

end Workspace

end ScriptTree
