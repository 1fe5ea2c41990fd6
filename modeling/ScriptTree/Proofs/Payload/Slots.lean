import Mathlib.Data.List.Nodup
import ScriptTree.Payload.Children

/-!
# Writing one slot of a payload

Every edit of a tree rewrites one slot of a payload at a time.  As no slot name occurs twice in a payload, such a write
replaces one entry of `childSlots` and leaves the others alone (`childSlots_overwrite_at`), so the children are the old
ones with the content of that slot exchanged (`count_overwrite_at`).  The two moves that edits are made of are taking a
child out (`eraseChild`) and putting one into a slot with room for it (`insertChild`).
-/

namespace ScriptTree

namespace ChildSlot

theorem overwrite_eq_self {f : Slot → Option Handle → Option Handle} {g : Slot → List Handle → List Handle}
    {k : ChildSlot} (hf : ∀ c, f k.slot c = c) (hg : ∀ cs, g k.slot cs = cs) : k.overwrite f g = k := by
  cases k <;> simp_all [overwrite, slot]

theorem handles_of_single? {k : ChildSlot} {c : Option Handle} (h : k.single? = some c) : k.handles = c.toList := by
  cases k <;> simp_all [single?, handles]

theorem handles_of_list? {k : ChildSlot} {cs : List Handle} (h : k.list? = some cs) : k.handles = cs := by
  cases k <;> simp_all [list?, handles]

private theorem count_one (c x : Handle) : [c].count x = if x = c then 1 else 0 := by
  by_cases h : x = c
  · simp [h]
  · simp [h, Ne.symm h]

theorem count_erase {k : ChildSlot} {c : Handle} (hc : c ∈ k.handles) (x : Handle) :
    (k.overwrite (fun s d => if s = k.slot then none else d)
      (fun s cs => if s = k.slot then cs.erase c else cs)).handles.count x + (if x = c then 1 else 0) =
      k.handles.count x := by
  have single : ∀ {d : Option Handle}, c ∈ d.toList → (if x = c then 1 else 0) = d.toList.count x := by
    intro d hd
    rw [Option.mem_toList.mp hd, Option.toList_some, count_one]
  cases k with
  | required s d => simpa [overwrite, slot, handles] using single hc
  | optional s d => simpa [overwrite, slot, handles] using single hc
  | list s cs =>
    have hpos : 0 < cs.count c := List.count_pos_iff.mpr hc
    simp only [overwrite, slot, handles, ↓reduceIte, List.count_erase, beq_iff_eq]
    by_cases hx : x = c
    · subst hx
      simp only [↓reduceIte]
      omega
    · simp [hx, Ne.symm hx]

theorem count_insert {k : ChildSlot} (hroom : k.single? = some none ∨ ∃ cs, k.list? = some cs) (c x : Handle) :
    (k.overwrite (fun s d => if s = k.slot then some c else d)
      (fun s cs => if s = k.slot then cs ++ [c] else cs)).handles.count x =
      k.handles.count x + (if x = c then 1 else 0) := by
  cases k <;> simp_all [overwrite, slot, handles, single?, list?, count_one]

theorem slot_ne_of_mem {ks : List ChildSlot} {s : Slot} (hs : s ∉ ks.map slot) {k : ChildSlot} (hk : k ∈ ks) :
    k.slot ≠ s := by
  rintro rfl
  exact hs (List.mem_map_of_mem hk)

/-- Where no name occurs twice, a slot is found by its name. -/
theorem find?_slot_of_mem {ks : List ChildSlot} (hnd : (ks.map slot).Nodup) {k : ChildSlot} (hk : k ∈ ks) :
    ks.find? (fun k' => k'.slot == k.slot) = some k := by
  induction ks with
  | nil => cases hk
  | cons k' ks ih =>
    rw [List.map_cons, List.nodup_cons] at hnd
    rcases List.mem_cons.mp hk with rfl | hk
    · rw [List.find?_cons_of_pos (by simp)]
    · have hne : k'.slot ≠ k.slot := (slot_ne_of_mem hnd.1 hk).symm
      rw [List.find?_cons_of_neg (by simpa using hne), ih hnd.2 hk]

end ChildSlot

namespace Payload

/-! ### Slots by name -/

/-- The entry of a slot stands between entries of other slots. -/
theorem childSlots_split {p : Payload} {k : ChildSlot} (hk : k ∈ p.childSlots) :
    ∃ l r, p.childSlots = l ++ k :: r ∧ (∀ k' ∈ l, k'.slot ≠ k.slot) ∧ ∀ k' ∈ r, k'.slot ≠ k.slot := by
  obtain ⟨l, r, h⟩ := List.append_of_mem hk
  have hnd := p.nodup_slots
  rw [h, List.map_append, List.map_cons, List.nodup_middle, List.nodup_cons, List.mem_append, not_or] at hnd
  obtain ⟨⟨hl, hr⟩, -⟩ := hnd
  exact ⟨l, r, h, fun k' hk' hs => hl (hs ▸ List.mem_map_of_mem hk'), fun k' hk' hs => hr (hs ▸ List.mem_map_of_mem hk')⟩

theorem childSlot?_eq_some_iff {p : Payload} {s : Slot} {k : ChildSlot} :
    p.childSlot? s = some k ↔ k ∈ p.childSlots ∧ k.slot = s := by
  constructor
  · intro h
    exact ⟨List.mem_of_find?_eq_some h, by simpa using List.find?_some h⟩
  · rintro ⟨hk, rfl⟩
    exact ChildSlot.find?_slot_of_mem p.nodup_slots hk

theorem childSlot?_overwrite (f : Slot → Option Handle → Option Handle) (g : Slot → List Handle → List Handle)
    (p : Payload) (s : Slot) : (p.overwrite f g).childSlot? s = (p.childSlot? s).map (ChildSlot.overwrite f g) := by
  simp only [childSlot?, childSlots_overwrite, List.find?_map, Function.comp_def, ChildSlot.slot_overwrite]

theorem single?_overwrite (f : Slot → Option Handle → Option Handle) (g : Slot → List Handle → List Handle)
    (p : Payload) (s : Slot) : (p.overwrite f g).single? s = (p.single? s).map (f s) := by
  unfold single?
  rw [childSlot?_overwrite]
  cases h : p.childSlot? s with
  | none => rfl
  | some k =>
    obtain ⟨-, rfl⟩ := childSlot?_eq_some_iff.mp h
    cases k <;> rfl

theorem list?_overwrite (f : Slot → Option Handle → Option Handle) (g : Slot → List Handle → List Handle)
    (p : Payload) (s : Slot) : (p.overwrite f g).list? s = (p.list? s).map (g s) := by
  unfold list?
  rw [childSlot?_overwrite]
  cases h : p.childSlot? s with
  | none => rfl
  | some k =>
    obtain ⟨-, rfl⟩ := childSlot?_eq_some_iff.mp h
    cases k <;> rfl

theorem single?_eq_some_iff {p : Payload} {s : Slot} {c : Option Handle} :
    p.single? s = some c ↔ ∃ k ∈ p.childSlots, k.slot = s ∧ k.single? = some c := by
  simp only [single?, Option.bind_eq_some_iff, childSlot?_eq_some_iff, and_assoc]

theorem list?_eq_some_iff {p : Payload} {s : Slot} {cs : List Handle} :
    p.list? s = some cs ↔ ∃ k ∈ p.childSlots, k.slot = s ∧ k.list? = some cs := by
  simp only [list?, Option.bind_eq_some_iff, childSlot?_eq_some_iff, and_assoc]

theorem mem_handles_of_single? {p : Payload} {s : Slot} {c : Handle} (h : p.single? s = some (some c)) :
    c ∈ p.handles := by
  obtain ⟨k, hk, -, hc⟩ := single?_eq_some_iff.mp h
  refine List.mem_flatMap.mpr ⟨k, hk, ?_⟩
  rw [ChildSlot.handles_of_single? hc]
  exact Option.mem_toList.mpr rfl

theorem sublist_handles_of_list? {p : Payload} {s : Slot} {cs : List Handle} (h : p.list? s = some cs) :
    cs.Sublist p.handles := by
  obtain ⟨k, hk, -, hcs⟩ := list?_eq_some_iff.mp h
  rw [← ChildSlot.handles_of_list? hcs, handles, List.flatMap_def]
  exact List.sublist_flatten_of_mem (List.mem_map_of_mem hk)

theorem mem_handles_of_list? {p : Payload} {s : Slot} {cs : List Handle} (h : p.list? s = some cs) {c : Handle}
    (hc : c ∈ cs) : c ∈ p.handles :=
  (sublist_handles_of_list? h).subset hc

theorem single?_eq_none_of_list? {p : Payload} {s : Slot} {cs : List Handle} (h : p.list? s = some cs) :
    p.single? s = none := by
  obtain ⟨k, hk, hl⟩ := Option.bind_eq_some_iff.mp h
  rw [single?, hk, Option.bind_some]
  cases k with
  | required => cases hl
  | optional => cases hl
  | list => rfl

theorem exists_single?_of_isRequired? {p : Payload} {s : Slot} {r : Bool} (h : p.isRequired? s = some r) :
    ∃ c, p.single? s = some c := by
  obtain ⟨k, hk, hr⟩ := Option.bind_eq_some_iff.mp h
  rw [single?, hk]
  cases k with
  | required _ c => exact ⟨c, rfl⟩
  | optional _ c => exact ⟨c, rfl⟩
  | list => cases hr

theorem exists_isRequired?_of_single? {p : Payload} {s : Slot} {c : Option Handle} (h : p.single? s = some c) :
    ∃ r, p.isRequired? s = some r := by
  obtain ⟨k, hk, hc⟩ := Option.bind_eq_some_iff.mp h
  rw [isRequired?, hk]
  cases k with
  | required => exact ⟨true, rfl⟩
  | optional => exact ⟨false, rfl⟩
  | list => cases hc

/-- Two writes agree if they agree on what the slots for single children and on what the lists hold. -/
theorem overwrite_congr {f f' : Slot → Option Handle → Option Handle} {g g' : Slot → List Handle → List Handle}
    {p : Payload} (hf : ∀ s c, p.single? s = some c → f s c = f' s c)
    (hg : ∀ s cs, p.list? s = some cs → g s cs = g' s cs) : p.overwrite f g = p.overwrite f' g' := by
  have h : ∀ k ∈ p.childSlots, k.overwrite f g = k.overwrite f' g' := by
    intro k hk
    cases k with
    | required s c => exact congrArg _ (hf s c (single?_eq_some_iff.mpr ⟨_, hk, rfl, rfl⟩))
    | optional s c => exact congrArg _ (hf s c (single?_eq_some_iff.mpr ⟨_, hk, rfl, rfl⟩))
    | list s cs => exact congrArg _ (hg s cs (list?_eq_some_iff.mpr ⟨_, hk, rfl, rfl⟩))
  cases p <;> simp_all [childSlots, overwrite, openSlots, OpenSlots.fill, ChildSlot.overwrite]

/-- A payload without its children gets them back. -/
theorem emptied_overwrite_eq {p : Payload} {f : Slot → Option Handle → Option Handle} {g : Slot → List Handle → List Handle}
    (hf : ∀ s d, p.single? s = some d → f s none = d) (hg : ∀ s cs, p.list? s = some cs → g s [] = cs) :
    p.emptied.overwrite f g = p := by
  rw [emptied, overwrite_overwrite]
  refine Eq.trans ?_ p.overwrite_self
  exact overwrite_congr hf hg

/-- Two payloads are the same if they are so without their children and every slot holds the same. -/
theorem ext_slots {p q : Payload} (hempty : p.emptied = q.emptied)
    (hsingle : ∀ s d, p.single? s = some d → q.single? s = some d)
    (hlist : ∀ s cs, p.list? s = some cs → q.list? s = some cs) : p = q := by
  have hq : q.emptied.overwrite (fun s _ => (q.single? s).join) (fun s _ => (q.list? s).getD []) = q :=
    emptied_overwrite_eq (fun s d hd => by rw [hd, Option.join_some]) (fun s cs hcs => by rw [hcs, Option.getD_some])
  have hp : p.emptied.overwrite (fun s _ => (q.single? s).join) (fun s _ => (q.list? s).getD []) = p :=
    emptied_overwrite_eq (fun s d hd => by rw [hsingle s d hd, Option.join_some])
      (fun s cs hcs => by rw [hlist s cs hcs, Option.getD_some])
  rw [← hp, hempty, hq]

/-! ### Writes at one slot -/

section OneSlot

variable {f : Slot → Option Handle → Option Handle} {g : Slot → List Handle → List Handle} {p : Payload}
  {k : ChildSlot}

/-- A write at one slot exchanges the entry of that slot. -/
theorem childSlots_overwrite_at {l r : List ChildSlot} (h : p.childSlots = l ++ k :: r)
    (hl : ∀ k' ∈ l, k'.slot ≠ k.slot) (hr : ∀ k' ∈ r, k'.slot ≠ k.slot)
    (hf : ∀ s c, s ≠ k.slot → f s c = c) (hg : ∀ s cs, s ≠ k.slot → g s cs = cs) :
    (p.overwrite f g).childSlots = l ++ k.overwrite f g :: r := by
  have keep : ∀ ks : List ChildSlot, (∀ k' ∈ ks, k'.slot ≠ k.slot) → ks.map (ChildSlot.overwrite f g) = ks := by
    intro ks hks
    have h : ∀ k' ∈ ks, k'.overwrite f g = k' := fun k' hk' =>
      ChildSlot.overwrite_eq_self (fun c => hf _ c (hks k' hk')) (fun cs => hg _ cs (hks k' hk'))
    rw [List.map_congr_left h, List.map_id']
  rw [childSlots_overwrite, h, List.map_append, List.map_cons, keep l hl, keep r hr]

theorem count_overwrite_at (hk : k ∈ p.childSlots) (hf : ∀ s c, s ≠ k.slot → f s c = c)
    (hg : ∀ s cs, s ≠ k.slot → g s cs = cs) (x : Handle) :
    (p.overwrite f g).handles.count x + k.handles.count x =
      p.handles.count x + (k.overwrite f g).handles.count x := by
  obtain ⟨l, r, h, hl, hr⟩ := childSlots_split hk
  simp only [handles, childSlots_overwrite_at h hl hr hf hg, h, List.flatMap_append, List.flatMap_cons,
    List.count_append]
  omega

end OneSlot

/-! ### Taking a child out -/

theorem slotOf?_eq_some {p : Payload} {s : Slot} {c : Handle} (h : p.slotOf? c = some s) :
    ∃ k ∈ p.childSlots, k.slot = s ∧ c ∈ k.handles := by
  obtain ⟨k, hk, rfl⟩ := Option.map_eq_some_iff.mp h
  exact ⟨k, List.mem_of_find?_eq_some hk, rfl, by simpa using List.find?_some hk⟩

theorem exists_slotOf?_eq_some {p : Payload} {c : Handle} (h : c ∈ p.handles) : ∃ s, p.slotOf? c = some s := by
  obtain ⟨k, hk, hc⟩ := List.mem_flatMap.mp h
  rw [← Option.isSome_iff_exists, slotOf?, Option.isSome_map, List.find?_isSome]
  exact ⟨k, hk, by simpa using hc⟩

/-- A child that occurs once is found in the slot that holds it. -/
theorem slotOf?_eq_some_of_mem {p : Payload} {k : ChildSlot} {c : Handle} (hk : k ∈ p.childSlots)
    (hc : c ∈ k.handles) (hcount : p.handles.count c ≤ 1) : p.slotOf? c = some k.slot := by
  obtain ⟨l, r, h, -, -⟩ := childSlots_split hk
  have hl : l.find? (fun k => k.handles.contains c) = none := by
    rw [List.find?_eq_none]
    intro k' hk' hc'
    have h1 : 0 < (l.flatMap ChildSlot.handles).count c :=
      List.count_pos_iff.mpr (List.mem_flatMap.mpr ⟨k', hk', by simpa using hc'⟩)
    have h2 : 0 < k.handles.count c := List.count_pos_iff.mpr hc
    simp only [handles, h, List.flatMap_append, List.flatMap_cons, List.count_append] at hcount
    omega
  rw [slotOf?, h, List.find?_append, hl, Option.none_or, List.find?_cons_of_pos (by simpa using hc)]
  rfl

theorem slotOf?_of_single? {p : Payload} {s : Slot} {c : Handle} (h : p.single? s = some (some c))
    (hcount : p.handles.count c ≤ 1) : p.slotOf? c = some s := by
  obtain ⟨k, hk, rfl, hc⟩ := single?_eq_some_iff.mp h
  have hmem : c ∈ k.handles := by rw [ChildSlot.handles_of_single? hc, Option.mem_toList]
  exact slotOf?_eq_some_of_mem hk hmem hcount

theorem slotOf?_of_list? {p : Payload} {s : Slot} {cs : List Handle} {c : Handle} (h : p.list? s = some cs)
    (hc : c ∈ cs) (hcount : p.handles.count c ≤ 1) : p.slotOf? c = some s := by
  obtain ⟨k, hk, rfl, hcs⟩ := list?_eq_some_iff.mp h
  exact slotOf?_eq_some_of_mem hk (ChildSlot.handles_of_list? hcs ▸ hc) hcount

theorem count_eraseChild {p : Payload} {s : Slot} {c : Handle} (h : p.slotOf? c = some s) (x : Handle) :
    (p.eraseChild s c).handles.count x + (if x = c then 1 else 0) = p.handles.count x := by
  obtain ⟨k, hk, rfl, hc⟩ := slotOf?_eq_some h
  have hcount := count_overwrite_at (f := fun s d => if s = k.slot then none else d)
    (g := fun s cs => if s = k.slot then cs.erase c else cs) hk (fun s _ hs => if_neg hs) (fun s _ hs => if_neg hs) x
  have hslot := k.count_erase hc x
  rw [eraseChild]
  omega

theorem setSingle_self {p : Payload} {s : Slot} {c : Option Handle} (h : p.single? s = some c) :
    p.setSingle s c = p := by
  conv => rhs; rw [← p.overwrite_self]
  refine overwrite_congr ?_ (fun _ _ _ => rfl)
  intro s' d hd
  split
  · rename_i hs
    rw [hs, h, Option.some.injEq] at hd
    exact hd
  · rfl

theorem setList_self {p : Payload} {s : Slot} {cs : List Handle} (h : p.list? s = some cs) : p.setList s cs = p := by
  conv => rhs; rw [← p.overwrite_self]
  refine overwrite_congr (fun _ _ _ => rfl) ?_
  intro s' ds hds
  split
  · rename_i hs
    rw [hs, h, Option.some.injEq] at hds
    exact hds
  · rfl

@[simp] theorem setSingle_setSingle (p : Payload) (s : Slot) (c d : Option Handle) :
    (p.setSingle s c).setSingle s d = p.setSingle s d := by
  rw [setSingle, setSingle, setSingle, overwrite_overwrite]
  refine overwrite_congr ?_ (fun _ _ _ => rfl)
  intro s' e _
  split <;> rfl

@[simp] theorem setList_setList (p : Payload) (s : Slot) (cs ds : List Handle) :
    (p.setList s cs).setList s ds = p.setList s ds := by
  rw [setList, setList, setList, overwrite_overwrite]
  refine overwrite_congr (fun _ _ _ => rfl) ?_
  intro s' es _
  split <;> rfl

/-- Emptying a slot for a single child is taking its child out. -/
theorem setSingle_none_eq_eraseChild {p : Payload} {s : Slot} {c : Handle} (h : p.single? s = some (some c)) :
    p.setSingle s none = p.eraseChild s c := by
  refine overwrite_congr (fun _ _ _ => rfl) ?_
  intro s' cs hcs
  have hs : s' ≠ s := by
    rintro rfl
    rw [single?_eq_none_of_list? hcs] at h
    cases h
  simp only [hs, ↓reduceIte]

/-- The payload without one child, wherever it stands. -/
def without (p : Payload) (child : Handle) : Payload :=
  match p.slotOf? child with
  | none => p
  | some slot => p.eraseChild slot child

@[simp] theorem variant_without (p : Payload) (c : Handle) : (p.without c).variant = p.variant := by
  unfold without
  split
  · rfl
  · exact variant_overwrite _ _ p

@[simp] theorem emptied_without (p : Payload) (c : Handle) : (p.without c).emptied = p.emptied := by
  unfold without
  split
  · rfl
  · exact emptied_overwrite _ _ p

theorem count_without {p : Payload} {c : Handle} (h : c ∈ p.handles) (x : Handle) :
    (p.without c).handles.count x + (if x = c then 1 else 0) = p.handles.count x := by
  obtain ⟨s, hs⟩ := exists_slotOf?_eq_some h
  simp only [without, hs]
  exact count_eraseChild hs x

/-- A slot for a single child that does not hold the one taken out keeps its content. -/
theorem single?_without {p : Payload} {s : Slot} {c : Handle} {d : Option Handle} (h : p.single? s = some d)
    (hd : d ≠ some c) : (p.without c).single? s = some d := by
  unfold without
  split
  · exact h
  · rename_i s' hs'
    have hs : s ≠ s' := by
      rintro rfl
      obtain ⟨k, hk, hks, hsingle⟩ := single?_eq_some_iff.mp h
      obtain ⟨k', hk', hks', hc⟩ := slotOf?_eq_some hs'
      have hkk : k' = k :=
        Option.some.inj ((childSlot?_eq_some_iff.mpr ⟨hk', hks'⟩).symm.trans (childSlot?_eq_some_iff.mpr ⟨hk, hks⟩))
      subst hkk
      cases k' with
      | required | optional =>
        obtain rfl : _ = d := Option.some.inj hsingle
        exact hd (Option.mem_toList.mp hc)
      | list => cases hsingle
    rw [eraseChild, single?_overwrite, h, Option.map_some, if_neg hs]

theorem single?_without_self {p : Payload} {s : Slot} {c : Handle} (h : p.single? s = some (some c))
    (hcount : p.handles.count c ≤ 1) : (p.without c).single? s = some none := by
  simp only [without, slotOf?_of_single? h hcount, eraseChild, single?_overwrite, h, Option.map_some, ↓reduceIte]

/-- It makes no difference to a write whether the child in the slot was taken out before. -/
theorem setSingle_without {p : Payload} {s : Slot} {c : Handle} (h : p.single? s = some (some c))
    (hcount : p.handles.count c ≤ 1) (d : Option Handle) : (p.without c).setSingle s d = p.setSingle s d := by
  simp only [without, slotOf?_of_single? h hcount]
  rw [← setSingle_none_eq_eraseChild h, setSingle, setSingle, overwrite_overwrite]
  refine overwrite_congr ?_ (fun _ _ _ => rfl)
  intro s' c' _
  split <;> rfl

/-- It makes no difference to a write whether an entry of the list was taken out before. -/
theorem setList_without {p : Payload} {s : Slot} {cs : List Handle} {c : Handle} (h : p.list? s = some cs)
    (hc : c ∈ cs) (hcount : p.handles.count c ≤ 1) (ds : List Handle) :
    (p.without c).setList s ds = p.setList s ds := by
  simp only [without, slotOf?_of_list? h hc hcount]
  rw [eraseChild, setList, setList, overwrite_overwrite]
  refine overwrite_congr ?_ ?_
  · intro s' d hd
    have hs : s' ≠ s := by
      rintro rfl
      rw [single?_eq_none_of_list? h] at hd
      cases hd
    simp only [hs, ↓reduceIte]
  · intro s' cs' _
    split <;> rfl

/-- Taking out a child that occurs once leaves every list in place, without that child. -/
theorem list?_without {p : Payload} {s : Slot} {cs : List Handle} {c : Handle} (h : p.list? s = some cs)
    (hcount : p.handles.count c ≤ 1) : (p.without c).list? s = some (cs.erase c) := by
  by_cases hc : c ∈ cs
  · simp only [without, slotOf?_of_list? h hc hcount, eraseChild, list?_overwrite, h, Option.map_some, ↓reduceIte]
  · rw [List.erase_of_not_mem hc, without]
    split
    · exact h
    · simp only [eraseChild, list?_overwrite, h, Option.map_some, Option.some.injEq]
      split
      · exact List.erase_of_not_mem hc
      · rfl

/-! ### Putting a child in -/

/-- The payload with one more child: a slot for a single child holds it, a list has it as its last entry. -/
def insertChild (p : Payload) (slot : Slot) (child : Handle) : Payload :=
  p.overwrite (fun s c => if s = slot then some child else c) (fun s cs => if s = slot then cs ++ [child] else cs)

@[simp] theorem variant_insertChild (p : Payload) (s : Slot) (c : Handle) : (p.insertChild s c).variant = p.variant :=
  variant_overwrite _ _ p

@[simp] theorem emptied_insertChild (p : Payload) (s : Slot) (c : Handle) : (p.insertChild s c).emptied = p.emptied :=
  emptied_overwrite _ _ p

/-- A slot that takes one more child without letting another one go: an empty one for a single child, or a list. -/
def HasRoom (p : Payload) (slot : Slot) : Prop := p.single? slot = some none ∨ ∃ cs, p.list? slot = some cs

theorem count_insertChild {p : Payload} {s : Slot} (h : p.HasRoom s) (c x : Handle) :
    (p.insertChild s c).handles.count x = p.handles.count x + (if x = c then 1 else 0) := by
  obtain ⟨k, hk, rfl, hroom⟩ : ∃ k ∈ p.childSlots, k.slot = s ∧ (k.single? = some none ∨ ∃ cs, k.list? = some cs) := by
    rcases h with h | ⟨cs, h⟩
    · obtain ⟨k, hk, hs, h⟩ := single?_eq_some_iff.mp h
      exact ⟨k, hk, hs, .inl h⟩
    · obtain ⟨k, hk, hs, h⟩ := list?_eq_some_iff.mp h
      exact ⟨k, hk, hs, .inr ⟨cs, h⟩⟩
  have hcount := count_overwrite_at (f := fun s d => if s = k.slot then some c else d)
    (g := fun s cs => if s = k.slot then cs ++ [c] else cs) hk (fun s _ hs => if_neg hs) (fun s _ hs => if_neg hs) x
  have hslot := k.count_insert hroom c x
  rw [insertChild]
  omega

theorem list?_insertChild {p : Payload} {s : Slot} {cs : List Handle} (h : p.list? s = some cs) (c : Handle) :
    (p.insertChild s c).list? s = some (cs ++ [c]) := by
  rw [insertChild, list?_overwrite, h, Option.map_some, if_pos rfl]

theorem single?_insertChild {p : Payload} {s : Slot} {d : Option Handle} (h : p.single? s = some d) (c : Handle) :
    (p.insertChild s c).single? s = some (some c) := by
  rw [insertChild, single?_overwrite, h, Option.map_some, if_pos rfl]

theorem setSingle_some_eq_insertChild {p : Payload} {s : Slot} {d : Option Handle} {c : Handle}
    (h : p.single? s = some d) : p.setSingle s (some c) = p.insertChild s c := by
  refine overwrite_congr (fun _ _ _ => rfl) ?_
  intro s' cs hcs
  have hs : s' ≠ s := by
    rintro rfl
    rw [single?_eq_none_of_list? hcs] at h
    cases h
  simp only [hs, ↓reduceIte]

/-- A child that is put into a slot for a single child takes the place of the one there. -/
theorem insertChild_without {p : Payload} {s : Slot} {q c : Handle} (h : p.single? s = some (some q))
    (hone : p.handles.count q ≤ 1) : (p.without q).insertChild s c = p.insertChild s c := by
  rw [← setSingle_some_eq_insertChild (single?_without_self h hone), setSingle_without h hone,
    setSingle_some_eq_insertChild h]

theorem setList_append_eq_insertChild {p : Payload} {s : Slot} {cs : List Handle} (h : p.list? s = some cs)
    (c : Handle) : p.setList s (cs ++ [c]) = p.insertChild s c := by
  refine overwrite_congr ?_ ?_
  · intro s' d hd
    have hs : s' ≠ s := by
      rintro rfl
      rw [single?_eq_none_of_list? h] at hd
      cases hd
    simp only [hs, ↓reduceIte]
  · intro s' cs' hcs'
    by_cases hs : s' = s
    · subst hs
      rw [hcs', Option.some.injEq] at h
      simp only [h, ↓reduceIte]
    · simp only [hs, ↓reduceIte]

end Payload

end ScriptTree
