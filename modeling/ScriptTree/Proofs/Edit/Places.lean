import ScriptTree.Proofs.Edit.Allocation

/-!
# Places in the source under edits

The position of a node is stored relative to its parent, so what an edit does to a position says little: what counts is
the sum of the positions up to the root.  Sums are told by what they do at each link (`Rooted.place_eq_of_links`), which
is all that the moves have to be checked for.  `SameText` says that the nodes of an arena are still there after an edit,
at their places in the source and with their lengths; it holds for severing (`sameText_severed`), for grafting
(`sameText_grafted`), and for the extents that follow a child, but for the node whose extent it is
(`sameText_recomputed`).
-/

namespace ScriptTree

namespace Arena

/-- The variant of a node, and whether it keeps its bounds whatever its children are. -/
def kind? (a : Arena) (h : Handle) : Option (Variant × Bool) :=
  (a.node? h).map fun node => (node.payload.variant, node.fixedPosition)

/-- The nodes of `a` are nodes of `b`, at the same places in the source but for those that are `shifted`, and of the same
lengths but for those that are `resized`. -/
structure SameText (shifted resized : Handle → Prop) (a b : Arena) : Prop where
  mem : ∀ h ∈ a, h ∈ b
  kind?_eq : ∀ h ∈ a, b.kind? h = a.kind? h
  place_eq : ∀ h ∈ a, ¬shifted h → b.place h = a.place h
  extent_eq : ∀ h ∈ a, ¬resized h → b.extent h = a.extent h

namespace SameText

variable {shifted resized : Handle → Prop} {a b c : Arena}

theorem refl (a : Arena) : SameText shifted resized a a :=
  ⟨fun _ h => h, fun _ _ => rfl, fun _ _ _ => rfl, fun _ _ _ => rfl⟩

theorem trans (h : SameText shifted resized a b) (h' : SameText shifted resized b c) : SameText shifted resized a c where
  mem x hx := h'.mem x (h.mem x hx)
  kind?_eq x hx := (h'.kind?_eq x (h.mem x hx)).trans (h.kind?_eq x hx)
  place_eq x hx hm := (h'.place_eq x (h.mem x hx) hm).trans (h.place_eq x hx hm)
  extent_eq x hx hr := (h'.extent_eq x (h.mem x hx) hr).trans (h.extent_eq x hx hr)

theorem mono {shifted' resized' : Handle → Prop} (h : SameText shifted resized a b)
    (hm : ∀ x ∈ a, shifted x → shifted' x) (hr : ∀ x ∈ a, resized x → resized' x) : SameText shifted' resized' a b where
  mem := h.mem
  kind?_eq := h.kind?_eq
  place_eq x hx hnot := h.place_eq x hx fun hshifted => hnot (hm x hx hshifted)
  extent_eq x hx hnot := h.extent_eq x hx fun hresized => hnot (hr x hx hresized)

end SameText

/-- Nodes that stay as they are stay in place. -/
theorem sameText_of_node?_eq {shifted resized : Handle → Prop} {a b : Arena} (hr : a.Rooted)
    (h : ∀ x ∈ a, b.node? x = a.node? x) : SameText shifted resized a b := by
  refine ⟨fun x hx => ?_, fun x hx => ?_, fun x hx _ => ?_, fun x hx _ => ?_⟩
  · obtain ⟨node, hn⟩ := mem_iff_node?.mp hx
    exact mem_of_node? ((h x hx).trans hn)
  · rw [kind?, kind?, h x hx]
  · obtain ⟨path, hp⟩ := hr x hx
    have hpath : ∀ y ∈ path, b.node? y = a.node? y := fun y hy => h y (mem_handles.mp (hp.subset_handles hy))
    refine hp.place_congr (fun y hy => ?_) (fun y hy => ?_) fun y hy => ?_
    · obtain ⟨node, hn⟩ := mem_iff_node?.mp (mem_handles.mp (hp.subset_handles hy))
      exact mem_of_node? ((hpath y hy).trans hn)
    · rw [parent?, parent?, hpath y hy]
    · rw [offset, offset, hpath y hy]
  · rw [extent, extent, h x hx]

/-! ### Views of single nodes -/

section Views

variable {a : Arena} {h x : Handle} {f : Node → Node}

theorem kind?_eq_some_iff {v : Variant} {fixed : Bool} : a.kind? h = some (v, fixed) ↔
    ∃ node, a.get h = .ok node ∧ node.payload.variant = v ∧ node.fixedPosition = fixed := by
  simp only [kind?, node?, get_eq_ok_iff, Option.map_eq_some_iff, Prod.mk.injEq]

theorem kind?_update (hf : ∀ node, (f node).payload.variant = node.payload.variant ∧
    (f node).fixedPosition = node.fixedPosition) : (a.update h f).kind? x = a.kind? x := by
  rw [kind?, kind?, node?_update]
  split
  · simp only [Option.map_map, Function.comp_def, hf]
  · rfl

theorem extent_update (hf : ∀ node, (f node).span.length = node.span.length) :
    (a.update h f).extent x = a.extent x := by
  rw [extent, extent, node?_update]
  split
  · simp only [Option.map_map, Function.comp_def, hf]
  · rfl

@[simp] theorem kind?_update_rehome (g : Node → Int) (p : Option Handle) :
    (a.update h fun node => node.rehome p (g node)).kind? x = a.kind? x :=
  kind?_update (f := fun node => node.rehome p (g node)) fun _ => ⟨rfl, rfl⟩

theorem kind?_update_mapPayload {f : Payload → Payload} (hf : ∀ p, (f p).variant = p.variant) :
    (a.update h (Node.mapPayload f)).kind? x = a.kind? x :=
  kind?_update (f := Node.mapPayload f) fun node => ⟨hf node.payload, rfl⟩

@[simp] theorem extent_update_rehome (g : Node → Int) (p : Option Handle) :
    (a.update h fun node => node.rehome p (g node)).extent x = a.extent x :=
  extent_update (f := fun node => node.rehome p (g node)) fun _ => rfl

@[simp] theorem extent_update_mapPayload (f : Payload → Payload) :
    (a.update h (Node.mapPayload f)).extent x = a.extent x :=
  extent_update (f := Node.mapPayload f) fun _ => rfl

theorem offset_update_rehome (g : Node → Int) (p : Option Handle) (x : Handle) :
    (a.update h fun node => node.rehome p (g node)).offset x =
      if x = h then ((a.node? h).map g).getD 0 else a.offset x := by
  rw [offset_update]
  split
  · rename_i hx
    rw [hx]
    rfl
  · rfl

end Views

/-! ### The two moves -/

section Moves

variable {shifted resized : Handle → Prop} {a : Arena} {o c : Handle} {s : Slot}

theorem kind?_severed (x : Handle) : (a.severed c).kind? x = a.kind? x := by
  unfold severed
  split
  · rfl
  · rw [kind?_update_rehome, kind?_update_mapPayload fun p => Payload.variant_without p c]

theorem extent_severed (x : Handle) : (a.severed c).extent x = a.extent x := by
  unfold severed
  split
  · rfl
  · rw [extent_update_rehome, extent_update_mapPayload]

theorem offset_severed {p : Handle} (hp : a.parent? c = some p) (x : Handle) :
    (a.severed c).offset x = if x = c then a.place c else a.offset x := by
  obtain ⟨node, hn⟩ := mem_iff_node?.mp (mem_of_parent? hp)
  simp only [severed, hp]
  rw [offset_update_rehome, offset_update_mapPayload, node?_update]
  split
  · split <;> simp [hn]
  · rfl

/-- Severing keeps every node in place: what hangs below the severed node goes with it, and that stays. -/
theorem sameText_severed (hr : a.Rooted) (c : Handle) : SameText shifted resized a (a.severed c) := by
  cases hp : a.parent? c with
  | none =>
    rw [severed_of_root hp]
    exact .refl a
  | some p =>
    refine ⟨fun x hx => mem_severed.mpr hx, fun x _ => kind?_severed x, fun x hx _ => ?_, fun x _ _ => extent_severed x⟩
    refine (hr.severed c).place_eq_of_links a.place ?_ ?_ (mem_severed.mpr hx)
    · intro y hy htop
      rw [offset_severed hp]
      rw [parent?_severed] at htop
      split
      · rename_i hyc
        rw [hyc]
      · rename_i hyc
        rw [if_neg hyc] at htop
        exact place_of_root (mem_severed.mp hy) htop
    · intro y q hlink
      rw [parent?_severed] at hlink
      split at hlink
      · cases hlink
      · rename_i hyc
        rw [offset_severed hp, if_neg hyc, hr.place_of_parent? hlink]

theorem kind?_grafted (x : Handle) : (a.grafted o s c).kind? x = a.kind? x := by
  rw [grafted, kind?_update_rehome, kind?_update_mapPayload fun p => Payload.variant_insertChild p s c]

theorem extent_grafted (x : Handle) : (a.grafted o s c).extent x = a.extent x := by
  rw [grafted, extent_update_rehome, extent_update_mapPayload]

theorem offset_grafted (hc : c ∈ a) (x : Handle) :
    (a.grafted o s c).offset x = if x = c then a.offset c - a.place o else a.offset x := by
  obtain ⟨node, hn⟩ := mem_iff_node?.mp hc
  rw [grafted, offset_update_rehome, offset_update_mapPayload, node?_update]
  split
  · split <;> simp [offset, hn, Node.mapPayload]
  · rfl

/-- Grafting a root keeps every node in place. -/
theorem sameText_grafted (hr : a.Rooted) {path : List Handle} (hc : c ∈ a) (hroot : a.parent? c = none)
    (ho : a.Ascent o path) (hpath : c ∉ path) : SameText shifted resized a (a.grafted o s c) := by
  refine ⟨fun x hx => mem_grafted.mpr hx, fun x _ => kind?_grafted x, fun x hx _ => ?_, fun x _ _ => extent_grafted x⟩
  refine (hr.grafted hc ho hpath).place_eq_of_links a.place ?_ ?_ (mem_grafted.mpr hx)
  · intro y hy htop
    rw [parent?_grafted hc] at htop
    split at htop
    · cases htop
    · rename_i hyc
      rw [offset_grafted hc, if_neg hyc]
      exact place_of_root (mem_grafted.mp hy) htop
  · intro y q hlink
    rw [parent?_grafted hc] at hlink
    rw [offset_grafted hc]
    split at hlink
    · rename_i hyc
      obtain rfl := Option.some.inj hlink
      rw [if_pos hyc, hyc, place_of_root hc hroot]
      omega
    · rename_i hyc
      rw [if_neg hyc, hr.place_of_parent? hlink]

end Moves

/-! ### Extents that follow children -/

section Extents

variable {shifted resized : Handle → Prop} {a : Arena}

theorem kind?_shiftedEach (distance : Int) (hs : List Handle) (x : Handle) :
    (a.shiftedEach distance hs).kind? x = a.kind? x := by
  induction hs generalizing a with
  | nil => rfl
  | cons h hs ih =>
    refine ih.trans ?_
    exact kind?_update (f := fun node => { node with span := node.span.shift distance }) fun _ => ⟨rfl, rfl⟩

theorem extent_shiftedEach (distance : Int) (hs : List Handle) (x : Handle) :
    (a.shiftedEach distance hs).extent x = a.extent x := by
  induction hs generalizing a with
  | nil => rfl
  | cons h hs ih =>
    refine ih.trans ?_
    exact extent_update (f := fun node => { node with span := node.span.shift distance }) fun _ => rfl

theorem offset_shiftedEach (distance : Int) {hs : List Handle} (hnd : hs.Nodup) {x : Handle} (hx : x ∈ a) :
    (a.shiftedEach distance hs).offset x = a.offset x + if x ∈ hs then distance else 0 := by
  induction hs generalizing a with
  | nil => simp [shiftedEach]
  | cons h hs ih =>
    obtain ⟨hh, hnd⟩ := List.nodup_cons.mp hnd
    obtain ⟨node, hn⟩ := mem_iff_node?.mp hx
    rw [shiftedEach, List.foldl_cons, ← shiftedEach, ih hnd (mem_update.mpr hx), offset_update]
    by_cases hxh : x = h
    · subst hxh
      simp [hh, offset, hn]
    · simp [hxh]

variable {h : Handle} {start stop : Int}

theorem kind?_repositioned (x : Handle) : (a.repositioned h start stop).kind? x = a.kind? x := by
  rw [repositioned, kind?_shiftedEach]
  exact kind?_update fun _ => ⟨rfl, rfl⟩

theorem extent_repositioned {x : Handle} (hx : x ≠ h) : (a.repositioned h start stop).extent x = a.extent x := by
  rw [repositioned, extent_shiftedEach, extent, extent, node?_update, if_neg hx]

theorem WellFormed.offset_repositioned (hw : a.WellFormed) (hh : h ∈ a) {x : Handle} (hx : x ∈ a) :
    (a.repositioned h start stop).offset x =
      a.offset x + (if x = h then start - a.place h else 0) - if a.parent? x = some h then start - a.place h else 0 := by
  obtain ⟨node, hn⟩ := mem_iff_node?.mp hh
  rw [repositioned, offset_shiftedEach _ (hw.nodup_handlesAt h) (mem_update.mpr hx), offset_update]
  simp only [hw.mem_handlesAt_iff]
  by_cases hxh : x = h
  · subst hxh
    have hself : a.parent? x ≠ some x := fun hp => hw.rooted.ne_of_parent? hp rfl
    simp [hself, hn, offset]
  · simp only [hxh, ↓reduceIte]
    split <;> omega

theorem WellFormed.place_repositioned (hw : a.WellFormed) (hh : h ∈ a) {x : Handle} (hx : x ∈ a) :
    (a.repositioned h start stop).place x = if x = h then start else a.place x := by
  have hsame := sameTrees_repositioned a h start stop
  have hr := (hsame.wellFormed hw).rooted
  refine hr.place_eq_of_links (fun y => if y = h then start else a.place y) ?_ ?_ (hsame.mem_iff.mpr hx)
  · intro y hy htop
    have hya := hsame.mem_iff.mp hy
    rw [hsame.parent?_eq] at htop
    rw [hw.offset_repositioned hh hya, htop, place_of_root hya htop]
    by_cases hyh : y = h
    · subst hyh
      simp only [↓reduceIte, place_of_root hya htop, reduceCtorEq]
      omega
    · simp [hyh]
  · intro y p hlink
    rw [hsame.parent?_eq] at hlink
    rw [hw.offset_repositioned hh (mem_of_parent? hlink), hlink, hw.rooted.place_of_parent? hlink]
    have hyp := hw.rooted.ne_of_parent? hlink
    by_cases hyh : y = h
    · subst hyh
      have hpy : p ≠ y := Ne.symm hyp
      simp [hpy, hw.rooted.place_of_parent? hlink]
      omega
    · by_cases hph : p = h
      · subst hph
        simp [hyh]
        omega
      · simp [hyh, hph]

theorem WellFormed.sameText_repositioned (hw : a.WellFormed) (hh : h ∈ a) (hm : shifted h ∨ start = a.place h)
    (hr : resized h) : SameText shifted resized a (a.repositioned h start stop) := by
  refine ⟨fun x hx => (sameTrees_repositioned a h start stop).mem_iff.mpr hx, fun x _ => kind?_repositioned x, ?_, ?_⟩
  · intro x hx hnot
    rw [hw.place_repositioned hh hx]
    split
    · rename_i hxh
      rw [hxh] at hnot ⊢
      exact hm.resolve_left hnot
    · rfl
  · intro x _ hnot
    exact extent_repositioned fun hxh => hnot (hxh ▸ hr)

theorem WellFormed.start_of_compositeBounds (hw : a.WellFormed) (hk : a.variant h = .ok .function)
    (hb : a.compositeBounds h = .ok (some (start, stop))) : start = a.place h := by
  obtain ⟨p, hp, hvariant⟩ := bind_eq_ok_iff.mp hk
  obtain ⟨node, hn, rfl⟩ := payload_eq_ok_iff.mp hp
  rw [hw.compositeBounds_eq hn, Payload.asked?_of_function (Except.ok.inj hvariant), Except.ok.injEq] at hb
  obtain ⟨body, -, hbody⟩ := Option.map_eq_some_iff.mp hb
  exact (congrArg Prod.fst hbody).symm

/-- Recomputing the bounds of a node keeps all other nodes in place, and a function keeps its own place too. -/
theorem WellFormed.sameText_recomputed (hw : a.WellFormed) (hh : h ∈ a) (hm : shifted h ∨ a.variant h = .ok .function)
    (hr : a.isFixed h = false → resized h) : SameText shifted resized a (a.recomputed h) := by
  unfold recomputed
  split
  · exact .refl a
  · rename_i hfixed
    split
    · rename_i start stop hb
      refine hw.sameText_repositioned hh (hm.imp_right fun hk => hw.start_of_compositeBounds hk hb) (hr ?_)
      simpa using hfixed
    · exact .refl a

end Extents

/-! ### Structural edits -/

section Edits

variable {shifted resized : Handle → Prop} {a : Arena} {o c : Handle} {s : Slot} {path : List Handle}

theorem sameText_severedEach (hr : a.Rooted) (hs : List Handle) : SameText shifted resized a (a.severedEach hs) := by
  induction hs generalizing a with
  | nil => exact .refl a
  | cons h hs ih => exact (sameText_severed hr h).trans (ih (hr.severed h))

theorem extent_severedEach (hs : List Handle) (x : Handle) : (a.severedEach hs).extent x = a.extent x := by
  induction hs generalizing a with
  | nil => rfl
  | cons h hs ih => exact ih.trans (extent_severed x)

theorem Rooted.moved (hr : a.Rooted) (hc : c ∈ a) (ho : a.Ascent o path) (hpath : c ∉ path) :
    (a.moved o s c).Rooted :=
  (hr.severed c).grafted (mem_severed.mpr hc) (ho.severed hpath) hpath

theorem sameText_moved (hr : a.Rooted) (hc : c ∈ a) (ho : a.Ascent o path) (hpath : c ∉ path) :
    SameText shifted resized a (a.moved o s c) := by
  have hroot : (a.severed c).parent? c = none := by rw [parent?_severed, if_pos rfl]
  exact (sameText_severed hr c).trans
    (sameText_grafted (hr.severed c) (mem_severed.mpr hc) hroot (ho.severed hpath) hpath)

theorem sameText_movedEach (hr : a.Rooted) (ho : a.Ascent o path) {placed : List (Slot × Handle)}
    (hplaced : ∀ x ∈ placed, x.2 ∈ a ∧ x.2 ∉ path) : SameText shifted resized a (a.movedEach o placed) := by
  induction placed generalizing a with
  | nil => exact .refl a
  | cons x placed ih =>
    obtain ⟨hc, hcpath⟩ := hplaced x List.mem_cons_self
    refine (sameText_moved hr hc ho hcpath).trans (ih (hr.moved hc ho hcpath) (ho.moved hc hcpath) fun y hy => ?_)
    rw [mem_moved]
    exact hplaced y (List.mem_cons_of_mem _ hy)

theorem WellFormed.sameText_settled (hw : a.WellFormed) (ho : o ∈ a)
    (hr : s = .body → a.kind? o = some (.function, false) → resized o) :
    SameText shifted resized a (a.settled o s) := by
  unfold settled
  split
  · rename_i h
    obtain ⟨hs, hk⟩ := h
    refine hw.sameText_recomputed ho (.inr hk) fun hfixed => hr hs ?_
    obtain ⟨node, hn⟩ := mem_iff_node?.mp ho
    rw [variant_eq hn, Except.ok.injEq] at hk
    simpa [kind?, isFixed, hn, hk] using hfixed
  · exact .refl a

theorem WellFormed.sameText_severedEach_grafted (hw : a.WellFormed) {old : Option Handle} (hs : a.HasSingle o s old)
    (hold : old ≠ some c) (hc : c ∈ a) (ho : a.Ascent o path) (hpath : c ∉ path) :
    SameText shifted resized a (((a.severed c).severedEach old.toList).grafted o s c) := by
  have hcut : SameText shifted resized a ((a.severed c).severedEach old.toList) :=
    (sameText_severed hw.rooted c).trans (sameText_severedEach (hw.rooted.severed c) old.toList)
  exact hcut.trans (sameText_grafted ((hw.severed c).severedEach old.toList).rooted (by simpa using hc)
    (parent?_severed_severedEach old.toList) (hs.ascent_severedEach hw hold ho hpath) hpath)

/-- Filling a slot keeps every node in place; a function that gets a body may change its length. -/
theorem WellFormed.sameText_filled (hw : a.WellFormed) {old : Option Handle} (hs : a.HasSingle o s old)
    (hold : old ≠ some c) (hc : c ∈ a) (ho : a.Ascent o path) (hpath : c ∉ path)
    (hr : s = .body → a.kind? o = some (.function, false) → resized o) :
    SameText shifted resized a (a.filled o s c old) := by
  have hmoved : SameText shifted resized a _ := hw.sameText_severedEach_grafted hs hold hc ho hpath
  refine hmoved.trans ((hw.severedEach_grafted hs hold hc ho hpath).sameText_settled (hmoved.mem o ho.mem) ?_)
  intro hbody hkind
  exact hr hbody ((hmoved.kind?_eq o ho.mem).symm.trans hkind)

/-! ### New nodes -/

theorem sameText_seeded (hr : a.Rooted) (p : Payload) (span : Span) :
    SameText shifted resized a (a.seeded p span) := by
  refine sameText_of_node?_eq hr fun x hx => ?_
  have hne : x.index ≠ a.drawn.size := Nat.ne_of_lt hx
  rw [Arena.seeded, node?_push, if_neg hne, node?_drawn]

theorem WellFormed.sameText_seeded_allocated (hw : a.WellFormed) {p : Payload} {span : Span} {v : Variant}
    (hcheck : a.checkChildren v [] p.placedHandles = .ok ()) :
    SameText shifted resized (a.seeded p span) (a.allocated p span) := by
  have hseeded := hw.assembling span hcheck
  refine sameText_movedEach hseeded.wellFormed.rooted hseeded.ascent fun x hx => ?_
  exact ⟨hseeded.mem x hx, by simpa using (hseeded.outside x hx).1⟩

theorem WellFormed.sameText_allocated (hw : a.WellFormed) {p : Payload} {span : Span} {v : Variant}
    (hcheck : a.checkChildren v [] p.placedHandles = .ok ()) : SameText shifted resized a (a.allocated p span) :=
  (sameText_seeded hw.rooted p span).trans (hw.sameText_seeded_allocated hcheck)

/-- Of a built node the extent may follow the children, but the node is new. -/
theorem WellFormed.sameText_constructed (hw : a.WellFormed) {k : Construction} {p : Payload} {span : Span} {v : Variant}
    (hcheck : a.checkChildren v [] p.placedHandles = .ok ()) : SameText shifted resized a (a.constructed k p span) := by
  have hwa := hw.allocated span hcheck
  have hnew : (⟨a.size⟩ : Handle) ∉ a := Nat.lt_irrefl a.size
  have hall : SameText (· ∉ a) (· ∉ a) a (a.constructed k p span) := by
    unfold Arena.constructed
    split
    · exact (hw.sameText_allocated hcheck).trans (hwa.sameText_recomputed mem_allocated_self (.inl hnew) fun _ => hnew)
    · exact hw.sameText_allocated hcheck
  exact hall.mono (fun x hx hnot => absurd hx hnot) fun x hx hnot => absurd hx hnot

end Edits

end Arena

end ScriptTree
