import ScriptTree.Clone
import ScriptTree.Proofs.Payload.Slots

/-!
# Writing through open slots

A row of open slots is gone through in three ways: up to the first slot for a single child of a given name, whose content
is exchanged; up to the first list of a given name, which is handed out; and up to the first handle that has no image,
with all handles before it exchanged.  The slots that are passed over, and those behind the last one, keep what they hold.

When no slot depends on what the slots before it have taken (`Independent`) and no name occurs twice, each of the three
writes all slots at once, with contents that are found by name (`replaceSingle?_eq`, `takeList?_eq`, `relink_eq`).
-/

namespace ScriptTree

namespace ChildSlot

/-- What the first slot of a given name that can be read in some way holds. -/
def first? {β : Type} (read : ChildSlot → Option β) (ks : List ChildSlot) (s : Slot) : Option β :=
  ks.findSome? fun k => if k.slot = s then read k else none

/-- Where no name occurs twice, it makes no difference whether a slot is asked for by its name only or by its shape
too. -/
theorem first?_eq {β : Type} (read : ChildSlot → Option β) {ks : List ChildSlot} (hnd : (ks.map slot).Nodup)
    (s : Slot) : first? read ks s = (ks.find? fun k => k.slot == s).bind read := by
  induction ks with
  | nil => rfl
  | cons k ks ih =>
    rw [List.map_cons, List.nodup_cons] at hnd
    rw [first?, List.findSome?_cons]
    by_cases hk : k.slot = s
    · subst hk
      have hrest : ks.findSome? (fun k' => if k'.slot = k.slot then read k' else none) = none := by
        rw [List.findSome?_eq_none_iff]
        exact fun k' hk' => if_neg (slot_ne_of_mem hnd.1 hk')
      rw [if_pos rfl, hrest, List.find?_cons_of_pos (by simp), Option.bind_some]
      cases read k <;> rfl
    · rw [if_neg hk, List.find?_cons_of_neg (by simpa using hk)]
      exact ih hnd.2

end ChildSlot

namespace OpenSlots

variable {α : Type}

/-! ### Going through open slots -/

/-- Every slot keeps what it holds. -/
def close (o : OpenSlots α) : α := o.fill (fun _ c => c) (fun _ cs => cs)

/-- Every slot takes what the slot of its name holds among some others, and keeps what it holds if there is none. -/
def refill (ks : List ChildSlot) (o : OpenSlots α) : α :=
  o.fill (fun s c => ((ks.find? fun k => k.slot == s).bind ChildSlot.single?).getD c)
    (fun s cs => ((ks.find? fun k => k.slot == s).bind ChildSlot.list?).getD cs)

/-- What the first slot for a single child of a given name holds, and the value with another content there. -/
def replaceSingle? (slot : Slot) (child : Option Handle) : OpenSlots α → Option (Option Handle × α)
  | closed _ => none
  | required s c put | optional s c put =>
    if s = slot then some (c, (put child).close) else (put c).replaceSingle? slot child
  | list _ cs put => (put cs).replaceSingle? slot child

/-- What the first list of a given name holds, and the value for each other content of it. -/
def takeList? (slot : Slot) : OpenSlots α → Option (List Handle × (List Handle → α))
  | closed _ => none
  | required _ c put | optional _ c put => (put c).takeList? slot
  | list s cs put => if s = slot then some (cs, fun ds => (put ds).close) else (put cs).takeList? slot

/-- The value with the handles exchanged by `f`, up to the first one that `f` does not know; that one is the second
result. -/
def relink (f : Handle → Option Handle) : OpenSlots α → α × Option Handle
  | closed value => (value, none)
  | required _ c put | optional _ c put =>
    match relinkHandles f c.toList with
    | (cs, some missing) => ((put cs.head?).close, some missing)
    | (cs, none) => (put cs.head?).relink f
  | list _ cs put =>
    match relinkHandles f cs with
    | (cs, some missing) => ((put cs).close, some missing)
    | (cs, none) => (put cs).relink f

/-! ### Independent slots -/

/-- What the slots show does not depend on what the slots before them have taken. -/
def Independent : OpenSlots α → Prop
  | closed _ => True
  | required _ c put | optional _ c put => ∀ d, (put d).slots = (put c).slots ∧ (put d).Independent
  | list _ cs put => ∀ ds, (put ds).slots = (put cs).slots ∧ (put ds).Independent

variable {o : OpenSlots α} {f f' : Slot → Option Handle → Option Handle} {g g' : Slot → List Handle → List Handle}

/-- Independent slots take the same if all that they show is overwritten with the same. -/
theorem fill_congr (ho : o.Independent) (h : ∀ k ∈ o.slots, k.overwrite f g = k.overwrite f' g') :
    o.fill f g = o.fill f' g' := by
  induction o with
  | closed => rfl
  | required s c put ih | optional s c put ih =>
    have hc : f s c = f' s c := by simpa [ChildSlot.overwrite] using h _ List.mem_cons_self
    obtain ⟨hslots, hput⟩ := ho (f' s c)
    -- the slots behind show what they show, whatever this one takes
    rw [fill, fill, hc]
    refine ih _ hput fun k hk => h k (List.mem_cons_of_mem _ ?_)
    rwa [← hslots]
  | list s cs put ih =>
    have hcs : g s cs = g' s cs := by simpa [ChildSlot.overwrite] using h _ List.mem_cons_self
    obtain ⟨hslots, hput⟩ := ho (g' s cs)
    rw [fill, fill, hcs]
    refine ih _ hput fun k hk => h k (List.mem_cons_of_mem _ ?_)
    rwa [← hslots]

theorem fill_eq_close (ho : o.Independent) (h : ∀ k ∈ o.slots, k.overwrite f g = k) : o.fill f g = o.close := by
  refine fill_congr ho fun k hk => ?_
  rw [h k hk, ChildSlot.overwrite_eq_self (fun _ => rfl) (fun _ => rfl)]

/-- Slots that take what they hold keep it. -/
theorem refill_slots (ho : o.Independent) (hnd : (o.slots.map ChildSlot.slot).Nodup) :
    o.refill o.slots = o.close := by
  refine fill_eq_close ho fun k hk => ?_
  have hfind := ChildSlot.find?_slot_of_mem hnd hk
  cases k <;> simp_all [ChildSlot.overwrite, ChildSlot.slot, ChildSlot.single?, ChildSlot.list?]

/-- A content for a slot that is not there is not taken. -/
theorem refill_cons {k : ChildSlot} {ks : List ChildSlot} (ho : o.Independent) (hk : k.slot ∉ o.slots.map ChildSlot.slot) :
    o.refill (k :: ks) = o.refill ks := by
  refine fill_congr ho fun k' hk' => ?_
  have hne : k.slot ≠ k'.slot := (ChildSlot.slot_ne_of_mem hk hk').symm
  have hfind : (k :: ks).find? (fun x => x.slot == k'.slot) = ks.find? fun x => x.slot == k'.slot :=
    List.find?_cons_of_neg (by simpa using hne)
  cases k' <;> simp_all [ChildSlot.overwrite, ChildSlot.slot]

/-! ### One slot -/

theorem replaceSingle?_eq (ho : o.Independent) (hnd : (o.slots.map ChildSlot.slot).Nodup) (s : Slot)
    (c : Option Handle) :
    o.replaceSingle? s c =
      (ChildSlot.first? ChildSlot.single? o.slots s).map fun old =>
        (old, o.fill (fun t d => if t = s then c else d) (fun _ cs => cs)) := by
  induction o with
  | closed => rfl
  | required t d put ih | optional t d put ih =>
    rw [slots, List.map_cons, List.nodup_cons] at hnd
    rw [replaceSingle?, fill, slots, ChildSlot.first?, List.findSome?_cons]
    by_cases hts : t = s
    · subst hts
      obtain ⟨hslots, hput⟩ := ho c
      -- the slot is found, and none behind it has its name
      have hclose : (put c).fill (fun t' d => if t' = t then c else d) (fun _ cs => cs) = (put c).close := by
        refine fill_eq_close hput fun k hk => ChildSlot.overwrite_eq_self (fun d => if_neg ?_) (fun _ => rfl)
        exact ChildSlot.slot_ne_of_mem hnd.1 (hslots ▸ hk)
      simp only [ChildSlot.slot, ChildSlot.single?, ↓reduceIte, Option.map_some, hclose]
    · simp only [ChildSlot.slot, hts, ↓reduceIte]
      exact ih d (ho d).2 hnd.2
  | list t ds put ih =>
    rw [slots, List.map_cons, List.nodup_cons] at hnd
    rw [replaceSingle?, fill, slots, ChildSlot.first?, List.findSome?_cons]
    simp only [ChildSlot.single?, ite_self]
    exact ih ds (ho ds).2 hnd.2

theorem takeList?_eq (ho : o.Independent) (hnd : (o.slots.map ChildSlot.slot).Nodup) (s : Slot) :
    o.takeList? s =
      (ChildSlot.first? ChildSlot.list? o.slots s).map fun old =>
        (old, fun cs => o.fill (fun _ d => d) (fun t ds => if t = s then cs else ds)) := by
  induction o with
  | closed => rfl
  | required t d put ih | optional t d put ih =>
    rw [slots, List.map_cons, List.nodup_cons] at hnd
    simp only [takeList?, fill, slots, ChildSlot.first?, List.findSome?_cons, ChildSlot.list?, ite_self]
    exact ih d (ho d).2 hnd.2
  | list t ds put ih =>
    rw [slots, List.map_cons, List.nodup_cons] at hnd
    simp only [takeList?, fill, slots, ChildSlot.first?, List.findSome?_cons]
    by_cases hts : t = s
    · subst hts
      have hclose : ∀ cs, (put cs).fill (fun _ d => d) (fun t' ds => if t' = t then cs else ds) = (put cs).close := by
        intro cs
        obtain ⟨hslots, hput⟩ := ho cs
        refine fill_eq_close hput fun k hk => ChildSlot.overwrite_eq_self (fun _ => rfl) (fun _ => if_neg ?_)
        exact ChildSlot.slot_ne_of_mem hnd.1 (hslots ▸ hk)
      simp only [ChildSlot.slot, ChildSlot.list?, ↓reduceIte, Option.map_some, hclose]
    · simp only [ChildSlot.slot, hts, ↓reduceIte]
      exact ih ds (ho ds).2 hnd.2

/-! ### All slots -/

section Refill

variable {s : Slot} {ks : List ChildSlot}

theorem refill_required {c d : Option Handle} {put : Option Handle → OpenSlots α} (ho : (required s c put).Independent)
    (hs : s ∉ (put c).slots.map ChildSlot.slot) : (required s c put).refill (.required s d :: ks) = (put d).refill ks := by
  obtain ⟨hslots, hput⟩ := ho d
  rw [← refill_cons (k := .required s d) hput (by rwa [hslots])]
  simp only [refill, fill, ChildSlot.slot, List.find?_cons_of_pos, BEq.rfl, Option.bind_some, ChildSlot.single?,
    Option.getD_some]

theorem refill_optional {c d : Option Handle} {put : Option Handle → OpenSlots α} (ho : (optional s c put).Independent)
    (hs : s ∉ (put c).slots.map ChildSlot.slot) : (optional s c put).refill (.optional s d :: ks) = (put d).refill ks := by
  obtain ⟨hslots, hput⟩ := ho d
  rw [← refill_cons (k := .optional s d) hput (by rwa [hslots])]
  simp only [refill, fill, ChildSlot.slot, List.find?_cons_of_pos, BEq.rfl, Option.bind_some, ChildSlot.single?,
    Option.getD_some]

theorem refill_list {cs ds : List Handle} {put : List Handle → OpenSlots α} (ho : (list s cs put).Independent)
    (hs : s ∉ (put cs).slots.map ChildSlot.slot) : (list s cs put).refill (.list s ds :: ks) = (put ds).refill ks := by
  obtain ⟨hslots, hput⟩ := ho ds
  rw [← refill_cons (k := .list s ds) hput (by rwa [hslots])]
  simp only [refill, fill, ChildSlot.slot, List.find?_cons_of_pos, BEq.rfl, Option.bind_some, ChildSlot.list?,
    Option.getD_some]

end Refill

theorem relink_eq (ho : o.Independent) (hnd : (o.slots.map ChildSlot.slot).Nodup) (f : Handle → Option Handle) :
    o.relink f = (o.refill (relinkSlots f o.slots).1, (relinkSlots f o.slots).2) := by
  induction o with
  | closed => rfl
  | required s c put ih =>
    rw [slots, List.map_cons, List.nodup_cons] at hnd
    simp only [relink, slots, relinkSlots, ChildSlot.relink]
    rcases relinkHandles f c.toList with ⟨cs, _ | missing⟩ <;> obtain ⟨hslots, hput⟩ := ho cs.head?
    · simp only [refill_required ho hnd.1, ih _ hput (hslots ▸ hnd.2), hslots]
    · simp only [refill_required ho hnd.1, ← hslots, refill_slots hput (hslots ▸ hnd.2)]
  | optional s c put ih =>
    rw [slots, List.map_cons, List.nodup_cons] at hnd
    simp only [relink, slots, relinkSlots, ChildSlot.relink]
    rcases relinkHandles f c.toList with ⟨cs, _ | missing⟩ <;> obtain ⟨hslots, hput⟩ := ho cs.head?
    · simp only [refill_optional ho hnd.1, ih _ hput (hslots ▸ hnd.2), hslots]
    · simp only [refill_optional ho hnd.1, ← hslots, refill_slots hput (hslots ▸ hnd.2)]
  | list s cs put ih =>
    rw [slots, List.map_cons, List.nodup_cons] at hnd
    simp only [relink, slots, relinkSlots, ChildSlot.relink]
    rcases relinkHandles f cs with ⟨ds, _ | missing⟩ <;> obtain ⟨hslots, hput⟩ := ho ds
    · simp only [refill_list ho hnd.1, ih _ hput (hslots ▸ hnd.2), hslots]
    · simp only [refill_list ho hnd.1, ← hslots, refill_slots hput (hslots ▸ hnd.2)]

end OpenSlots

end ScriptTree
