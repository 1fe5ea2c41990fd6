import ScriptTree.Proofs.Edit.Filling

/-!
# Replacing the content of a list

The contract of `Edit.setChildList`: when it succeeds (`setChildList_isOk_iff`), that it does what detaching the old
entries and appending the new ones would do (`run_detachEach_pushEach`), and everything that it changes (`Relisted`).  The
new entries may come from anywhere: from the list itself, from another slot of the owner, from below an old entry or
another new one.  `Receives` is what makes the appends succeed one after the other; every append keeps it.
-/

namespace ScriptTree

namespace Arena

/-! ### The content of slots when several nodes move -/

section Severed

variable {a : Arena} (hw : a.WellFormed) {o p : Handle} {s t : Slot} {d : Option Handle} {cs : List Handle}

include hw

omit hw in
theorem filter_not_mem_cons (d : Option Handle) (c : Handle) (hs : List Handle) :
    (if d = some c then none else d).filter (· ∉ hs) = d.filter (· ∉ c :: hs) := by
  cases d with
  | none => rfl
  | some q =>
    by_cases hq : q = c <;> simp [Option.filter, hq]

theorem HasList.filter_not_mem_cons (h : a.HasList p t cs) (c : Handle) (hs : List Handle) :
    (cs.erase c).filter (· ∉ hs) = cs.filter (· ∉ c :: hs) := by
  rw [(h.nodup hw).erase_eq_filter, List.filter_filter]
  refine List.filter_congr fun x _ => ?_
  by_cases hx : x = c <;> simp [hx]

/-- Severing some nodes empties the slots that hold them, and no other ones. -/
theorem HasSingle.severedEach_eq (h : a.HasSingle p t d) (hs : List Handle) :
    (a.severedEach hs).HasSingle p t (d.filter (· ∉ hs)) := by
  induction hs generalizing a d with
  | nil => cases d <;> simpa [severedEach, Option.filter] using h
  | cons c hs ih =>
    rw [← Arena.filter_not_mem_cons]
    exact ih (hw.severed c) (h.severed_eq hw c)

/-- Severing some nodes takes them out of the lists that hold them, and leaves the other entries in their order. -/
theorem HasList.severedEach_eq (h : a.HasList p t cs) (hs : List Handle) :
    (a.severedEach hs).HasList p t (cs.filter (· ∉ hs)) := by
  induction hs generalizing a cs with
  | nil => simpa [severedEach] using h
  | cons c hs ih =>
    rw [← h.filter_not_mem_cons hw]
    exact ih (hw.severed c) (h.severed_eq hw c)

/-- A list holds what no slot for a single child holds. -/
theorem HasSingle.filter_eq_self (h : a.HasSingle p t d) (hs : a.HasList o s cs) :
    d.filter (· ∉ cs) = d := by
  cases d with
  | none => rfl
  | some q => simp [Option.filter, hs.not_mem_of_hasSingle hw h]

/-- Two lists have no entry in common. -/
theorem HasList.filter_eq_self {ds : List Handle} (h : a.HasList p t ds) (hs : a.HasList o s cs)
    (hne : (p, t) ≠ (o, s)) : ds.filter (· ∉ cs) = ds := by
  refine List.filter_eq_self.mpr fun c hc => ?_
  simp only [decide_eq_true_eq]
  intro hcs
  have hstand := h.standing?_eq hw hc
  rw [hs.standing?_eq hw hcs, Option.some.injEq] at hstand
  exact hne hstand.symm

end Severed

/-! ### Lists that receive nodes -/

/-- Some nodes can move to the end of a list one after the other: the owner of the list hangs below none of them. -/
structure Receives (a : Arena) (o : Handle) (s : Slot) (cs xs : List Handle) : Prop where
  wellFormed : a.WellFormed
  hasList : a.HasList o s cs
  exists_ascent : ∃ path, a.Ascent o path ∧ ∀ x ∈ xs, x ∈ a ∧ x ∉ path

namespace Receives

variable {a : Arena} {o p x : Handle} {s t : Slot} {d : Option Handle} {cs ds xs : List Handle}

theorem mem (h : a.Receives o s cs xs) (hx : x ∈ xs) : x ∈ a := by
  obtain ⟨path, -, hxs⟩ := h.exists_ascent
  exact (hxs x hx).1

/-- When a node has moved to the end of the list, the others can still do so. -/
theorem moved (h : a.Receives o s cs (x :: xs)) : (a.moved o s x).Receives o s (cs.erase x ++ [x]) xs := by
  obtain ⟨path, hpath, hxs⟩ := h.exists_ascent
  obtain ⟨hx, hxpath⟩ := hxs x List.mem_cons_self
  have hox : o ≠ x := fun hox => hxpath (hox ▸ hpath.self_mem)
  refine ⟨?_, h.hasList.moved h.wellFormed hox, path, hpath.moved hx hxpath, fun y hy => ?_⟩
  · exact h.wellFormed.moved (h.hasList.severed h.wellFormed hox).hasRoom hx hpath hxpath
  · rw [mem_moved]
    exact hxs y (List.mem_cons_of_mem _ hy)

theorem parent?_movedEach (h : a.Receives o s cs xs) (y : Handle) :
    (a.movedEach o (xs.map (s, ·))).parent? y = if y ∈ xs then some o else a.parent? y := by
  induction xs generalizing a cs with
  | nil => rfl
  | cons x xs ih =>
    have hx : x ∈ a := h.mem List.mem_cons_self
    have hmoved : (a.moved o s x).parent? y = if y = x then some o else a.parent? y := by
      rw [Arena.moved, parent?_grafted (mem_severed.mpr hx), parent?_severed]
      split <;> rfl
    refine (ih h.moved).trans ?_
    rw [hmoved]
    by_cases hyx : y = x <;> simp [hyx]

/-- The nodes leave the slots for a single child that held them. -/
theorem single (h : a.Receives o s cs xs) (hd : a.HasSingle p t d) :
    (a.movedEach o (xs.map (s, ·))).HasSingle p t (d.filter (· ∉ xs)) := by
  induction xs generalizing a cs d with
  | nil => cases d <;> simpa [movedEach, Option.filter] using hd
  | cons x xs ih =>
    have hne : (p, t) ≠ (o, s) := (h.hasList.ne_of_hasSingle hd).symm
    rw [← filter_not_mem_cons]
    exact ih h.moved ((hd.severed_eq h.wellFormed x).grafted hne)

/-- The nodes leave the other lists that held them. -/
theorem list (h : a.Receives o s cs xs) (hds : a.HasList p t ds) (hne : (p, t) ≠ (o, s)) :
    (a.movedEach o (xs.map (s, ·))).HasList p t (ds.filter (· ∉ xs)) := by
  induction xs generalizing a cs ds with
  | nil => simpa [movedEach] using hds
  | cons x xs ih =>
    rw [← hds.filter_not_mem_cons h.wellFormed]
    exact ih h.moved ((hds.severed_eq h.wellFormed x).grafted hne)

/-- New entries stand behind the old ones in their order. -/
theorem list_self (h : a.Receives o s cs xs) (hnd : xs.Nodup) (hnew : ∀ x ∈ xs, x ∉ cs) :
    (a.movedEach o (xs.map (s, ·))).HasList o s (cs ++ xs) := by
  induction xs generalizing a cs with
  | nil => simpa [movedEach] using h.hasList
  | cons x xs ih =>
    obtain ⟨hx, hnd⟩ := List.nodup_cons.mp hnd
    have hmoved := h.moved
    rw [List.erase_of_not_mem (hnew x List.mem_cons_self)] at hmoved
    have hrest : ∀ y ∈ xs, y ∉ cs ++ [x] := by
      intro y hy hmem
      rcases List.mem_append.mp hmem with hcs | hyx
      · exact hnew y (List.mem_cons_of_mem _ hy) hcs
      · exact hx (List.mem_singleton.mp hyx ▸ hy)
    have hlist := ih hmoved hnd hrest
    rwa [List.append_assoc, List.singleton_append] at hlist

end Receives

/-! ### What a replacement changes -/

/-- The arena `b` is `a` with the entries `new` in the list `s` of `o` in place of `old`.  Entries that move in have left
the slots and lists where they stood, and old entries that do not move back in are roots; nothing else differs but
spans. -/
structure Relisted (a : Arena) (o : Handle) (s : Slot) (old new : List Handle) (b : Arena) : Prop where
  held : a.childList o s = .ok old
  holds : b.childList o s = .ok new
  child_eq : ∀ p t d, a.child p t = .ok d → b.child p t = .ok (d.filter (· ∉ new))
  childList_eq : ∀ p t cs, a.childList p t = .ok cs → (p, t) ≠ (o, s) → b.childList p t = .ok (cs.filter (· ∉ new))
  parent_eq : ∀ h p, a.parent h = .ok p →
    b.parent h = .ok (if h ∈ new then some o else if h ∈ old then none else p)
  /-- Identity, marks and the payload without the children are those of before, and so is what is not a node. -/
  unplaced_eq : ∀ h, (b.get h).map Node.unplaced = (a.get h).map Node.unplaced
  size_eq : b.size = a.size
  ids_eq : b.ids = a.ids

@[simp] theorem size_movedEach {a : Arena} {o : Handle} (placed : List (Slot × Handle)) :
    (a.movedEach o placed).size = a.size := by
  induction placed generalizing a with
  | nil => rfl
  | cons y placed ih => exact ih.trans (by simp [Arena.moved])

theorem Receives.relisted {a : Arena} {o : Handle} {s : Slot} {old new : List Handle} (hw : a.WellFormed)
    (hold : a.HasList o s old) (h : (a.severedEach old).Receives o s [] new) (hnd : new.Nodup) :
    a.Relisted o s old new ((a.severedEach old).movedEach o (new.map (s, ·))) where
  held := hold.childList_eq
  holds := (h.list_self hnd fun _ _ => List.not_mem_nil).childList_eq
  child_eq p t d hd := by
    have hsingle : a.HasSingle p t d := child_eq_ok_iff.mp hd
    have hsevered := hsingle.severedEach_eq hw old
    rw [hsingle.filter_eq_self hw hold] at hsevered
    exact (h.single hsevered).child_eq
  childList_eq p t cs hcs hne := by
    have hlist : a.HasList p t cs := childList_eq_ok_iff.mp hcs
    have hsevered := hlist.severedEach_eq hw old
    rw [hlist.filter_eq_self hw hold hne] at hsevered
    exact (h.list hsevered hne).childList_eq
  parent_eq x p hp := by
    obtain ⟨hx, rfl⟩ := parent_eq_ok_iff.mp hp
    rw [Arena.parent_eq (mem_movedEach.mpr (mem_severedEach.mpr hx)), h.parent?_movedEach, parent?_severedEach]
  unplaced_eq x := map_unplaced_get (fun _ => by simp) (by simp)
  size_eq := by simp
  ids_eq := by simp

end Arena

namespace Edit

open Arena

/-- Detaches some nodes one after the other. -/
def detachEach : List Handle → Edit Unit
  | [] => return ()
  | h :: rest => do
    let _ ← detach h
    detachEach rest

section Lists

variable {a : Arena} (hw : a.WellFormed) {o : Handle} {s : Slot} {cs xs : List Handle}

include hw

theorem run_detachEach {hs : List Handle} (hmem : ∀ h ∈ hs, h ∈ a) : detachEach hs a = .ok () (a.severedEach hs) := by
  induction hs generalizing a with
  | nil => rfl
  | cons h hs ih =>
    rw [detachEach, run_bind_of_ok (run_detach hw (hmem h List.mem_cons_self))]
    exact ih (hw.severed h) fun x hx => mem_severed.mpr (hmem x (List.mem_cons_of_mem _ hx))

/-! ### When a list can be replaced -/

/-- Once the old entries have left, the list can receive what may be attached below its owner: the way up from there
passes no old entry. -/
theorem receives_severedEach {path : List Handle} (hs : a.HasList o s cs) (hpath : a.Ascent o path)
    (hxs : ∀ x ∈ xs, x ∈ a ∧ x ∉ path) : (a.severedEach cs).Receives o s [] xs := by
  refine ⟨hw.severedEach cs, hs.severedEach_self hw, path, hpath.severedEach fun q hq => ?_, fun x hx => ?_⟩
  · exact hpath.not_mem_of_parent? (hw.mem_handlesAt_iff.mp (hs.mem_handlesAt hq))
  · rw [mem_severedEach]
    exact hxs x hx

/-- Detaching the old entries and appending the new ones gives what replacing the list gives. -/
theorem run_detachEach_pushEach (hs : a.HasList o s cs) (h : (a.severedEach cs).Receives o s [] xs) :
    (detachEach cs >>= fun _ => pushEach o s xs) a = .ok () ((a.severedEach cs).movedEach o (xs.map (s, ·))) := by
  obtain ⟨path, hpath, hxs⟩ := h.exists_ascent
  rw [run_bind_of_ok (run_detachEach hw fun c hc => hs.child_mem hw hc)]
  exact (run_pushEach h.wellFormed h.hasList hpath hxs).2

omit hw in
theorem nodup_of_checkEntries {seen : List Handle} (h : a.checkEntries o s seen xs = .ok ()) :
    xs.Nodup ∧ ∀ x ∈ xs, x ∉ seen := by
  induction xs generalizing seen with
  | nil => exact ⟨List.nodup_nil, fun x hx => absurd hx List.not_mem_nil⟩
  | cons x xs ih =>
    obtain ⟨⟨⟩, -, h⟩ := bind_eq_ok_iff.mp h
    split at h
    · obtain ⟨v, -, h⟩ := bind_eq_ok_iff.mp h
      cases h
    · rename_i hseen
      obtain ⟨hnd, hnew⟩ := ih h
      refine ⟨List.nodup_cons.mpr ⟨fun hx => hnew x hx List.mem_cons_self, hnd⟩, fun y hy => ?_⟩
      rcases List.mem_cons.mp hy with rfl | hy
      · simpa using hseen
      · exact fun hys => hnew y hy (List.mem_cons_of_mem _ hys)

/-- What passes the check of the new entries: distinct nodes that are neither the owner nor above it. -/
theorem checkEntries_eq_ok_iff {path : List Handle} (hpath : a.Ascent o path) :
    a.checkEntries o s [] xs = .ok () ↔ xs.Nodup ∧ ∀ x ∈ xs, x ∈ a ∧ x ∉ path := by
  constructor
  · intro h
    refine ⟨(nodup_of_checkEntries h).1, fun x hx => ?_⟩
    obtain ⟨hmem, path', hpath', hxpath⟩ :=
      hw.rooted.checkAttachable_eq_ok_iff.mp (checkAttachable_of_checkEntries h x hx)
    exact ⟨hmem, hpath.unique hpath' ▸ hxpath⟩
  · rintro ⟨hnd, hxs⟩
    refine checkEntries_of_checkAttachable (fun x hx => ?_) hnd fun _ _ => List.not_mem_nil
    exact hw.rooted.checkAttachable_eq_ok_iff.mpr ⟨(hxs x hx).1, path, hpath, (hxs x hx).2⟩

/-- A list that is replaced received the new entries when its old ones had left. -/
theorem exists_receives_of_setChildList {b : Arena} (hrun : setChildList o s xs a = .ok () b) :
    ∃ cs, a.HasList o s cs ∧ xs.Nodup ∧ (∃ path, a.Ascent o path ∧ ∀ x ∈ xs, x ∈ a ∧ x ∉ path) ∧
      b = (a.severedEach cs).movedEach o (xs.map (s, ·)) := by
  cases hlist : a.childList o s with
  | error e =>
    rw [setChildList, run_inspect_bind_error hlist] at hrun
    cases hrun
  | ok cs =>
  have hs : a.HasList o s cs := childList_eq_ok_iff.mp hlist
  cases hcheck : a.checkEntries o s [] xs with
  | error e =>
    rw [setChildList, run_inspect_bind hlist, run_inspect_bind_error hcheck] at hrun
    cases hrun
  | ok =>
  obtain ⟨path, hpath⟩ := hw.rooted o (mem_of_node? hs.choose_spec.1)
  obtain ⟨hnd, hxs⟩ := (checkEntries_eq_ok_iff hw hpath).mp hcheck
  obtain ⟨-, -, -, -, hok⟩ := run_setChildList hw hs hcheck
  rw [hok] at hrun
  cases hrun
  exact ⟨cs, hs, hnd, ⟨path, hpath, hxs⟩, rfl⟩

theorem setChildList_isOk_iff : (∃ b, setChildList o s xs a = .ok () b) ↔
    (∃ cs, a.childList o s = .ok cs) ∧ xs.Nodup ∧ ∃ path, a.Ascent o path ∧ ∀ x ∈ xs, x ∈ a ∧ x ∉ path := by
  constructor
  · rintro ⟨b, hrun⟩
    obtain ⟨cs, hs, hnd, hpath, -⟩ := exists_receives_of_setChildList hw hrun
    exact ⟨⟨cs, hs.childList_eq⟩, hnd, hpath⟩
  · rintro ⟨⟨cs, hcs⟩, hnd, path, hpath, hxs⟩
    obtain ⟨-, -, -, -, hok⟩ :=
      run_setChildList hw (childList_eq_ok_iff.mp hcs) ((checkEntries_eq_ok_iff hw hpath).mpr ⟨hnd, hxs⟩)
    exact ⟨_, hok⟩

end Lists

end Edit

namespace Workspace

/-- The contract of replacing the content of a list.  The new entries have to be distinct nodes, none of which is the owner
or above it; nothing else is asked of them.  The outcome is that of detaching the old entries and appending the new ones,
each in order. -/
theorem setChildList_contract {w : Workspace} (reachable : w.Reachable) {i : Nat} {a : Arena} (hi : w.arena? i = some a)
    (o : Handle) (s : Slot) (xs : List Handle) :
    ((∃ w', w.edit? i (Edit.setChildList o s xs) = some (.ok (), w')) ↔
      o ∈ a ∧ (∃ cs, a.childList o s = .ok cs) ∧ xs.Nodup ∧ ∃ path, a.Ascent o path ∧ ∀ x ∈ xs, x ∈ a ∧ x ∉ path) ∧
    ∀ w', w.edit? i (Edit.setChildList o s xs) = some (.ok (), w') →
      ∃ cs b, w'.arena? i = some b ∧ a.Relisted o s cs xs b ∧ (∀ k, k ≠ i → w'.arena? k = w.arena? k) ∧
        w.edit? i (Edit.detachEach cs >>= fun _ => Edit.pushEach o s xs) = some (.ok (), w') := by
  have hw := reachable.wellFormed.arena hi
  refine ⟨?_, fun w' hedit => ?_⟩
  · have success : (∃ w', w.edit? i (Edit.setChildList o s xs) = some (.ok (), w')) ↔
        ∃ b, Edit.setChildList o s xs a = .ok () b := by
      constructor
      · rintro ⟨w', hrun⟩
        obtain ⟨b, hrun, -⟩ := (edit?_eq_ok_iff hi).mp hrun
        exact ⟨b, hrun⟩
      · rintro ⟨b, hrun⟩
        exact ⟨_, edit?_of_ok hi hrun⟩
    rw [success, Edit.setChildList_isOk_iff hw]
    constructor
    · rintro ⟨hcs, hnd, path, hpath, hxs⟩
      exact ⟨hpath.mem, hcs, hnd, path, hpath, hxs⟩
    · exact And.right
  · obtain ⟨b, hrun, rfl⟩ := (edit?_eq_ok_iff hi).mp hedit
    obtain ⟨cs, hs, hnd, ⟨path, hpath, hxs⟩, rfl⟩ := Edit.exists_receives_of_setChildList hw hrun
    have hreceives := Edit.receives_severedEach hw hs hpath hxs
    have hrelisted := hreceives.relisted hw hs hnd
    obtain ⟨-, hput, hothers⟩ := put_of_ids_eq hi hrelisted.ids_eq
    exact ⟨cs, _, hput, hrelisted, hothers, edit?_of_ok hi (Edit.run_detachEach_pushEach hw hs hreceives)⟩

/-- A block of a statement that returns a name, and of another name. -/
def returnedStatementRun : List Action :=
  [.addArena {}, .command 0 (.alloc (.name "x") {}), .command 0 (.alloc (.returnStatement (some ⟨0⟩)) {}),
    .command 0 (.alloc (.name "y") {}), .command 0 (.alloc (.block [⟨1⟩, ⟨2⟩]) {})]

/-- The name that is returned becomes an entry of the block, before the other name and in place of the statement: it leaves
the statement, which is a root and returns nothing. -/
theorem setChildList_contract_returnedStatementRun :
    ∃ w' b, (({} : Workspace).performAll returnedStatementRun).edit? 0 (Edit.setChildList ⟨3⟩ .statements [⟨0⟩, ⟨2⟩]) =
        some (.ok (), w') ∧ w'.arena? 0 = some b ∧ b.childList ⟨3⟩ .statements = .ok [⟨0⟩, ⟨2⟩] ∧
      b.child ⟨1⟩ .value = .ok none ∧ b.parent ⟨0⟩ = .ok (some ⟨3⟩) ∧ b.parent ⟨1⟩ = .ok none := by
  have hreach : (({} : Workspace).performAll returnedStatementRun).Reachable := ⟨returnedStatementRun, by decide, rfl⟩
  obtain ⟨a, ha, hmem, hpath, hlist, hchild, hparent₀, hparent₁⟩ : ∃ a,
      (({} : Workspace).performAll returnedStatementRun).arena? 0 = some a ∧
        (∀ x ∈ [(⟨0⟩ : Handle), ⟨2⟩], x ∈ a ∧ x ∉ [(⟨3⟩ : Handle)]) ∧ a.Ascent ⟨3⟩ [⟨3⟩] ∧
        a.childList ⟨3⟩ .statements = .ok [⟨1⟩, ⟨2⟩] ∧ a.child ⟨1⟩ .value = .ok (some ⟨0⟩) ∧
        a.parent ⟨0⟩ = .ok (some ⟨1⟩) ∧ a.parent ⟨1⟩ = .ok (some ⟨3⟩) :=
    ⟨_, rfl, by decide, .root (by decide) rfl, rfl, rfl, rfl, rfl⟩
  obtain ⟨hsuccess, heffect⟩ := setChildList_contract hreach ha ⟨3⟩ .statements [⟨0⟩, ⟨2⟩]
  obtain ⟨w', hrun⟩ := hsuccess.mpr ⟨hpath.mem, ⟨_, hlist⟩, by decide, _, hpath, hmem⟩
  obtain ⟨cs, b, hb, hrelisted, -⟩ := heffect w' hrun
  obtain rfl : cs = [⟨1⟩, ⟨2⟩] := Except.ok.inj (hrelisted.held.symm.trans hlist)
  exact ⟨w', b, hrun, hb, hrelisted.holds, hrelisted.child_eq _ _ _ hchild, hrelisted.parent_eq _ _ hparent₀,
    hrelisted.parent_eq _ _ hparent₁⟩

end Workspace

end ScriptTree
