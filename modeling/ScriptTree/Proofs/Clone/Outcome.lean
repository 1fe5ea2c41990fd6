import ScriptTree.Proofs.Clone.Isomorphism
import ScriptTree.Proofs.Edit.Moves

/-!
# What cloning does

A clone is refused before anything is copied, or it succeeds: its nodes were copied behind the others (`run_copyFrom`,
`cloneSubtree_none_cases`), and then the copy of the root was moved below its new parent (`cloneSubtree_some_cases`).  As
the copy is new, it is neither the owner nor above it, and the slot does not hold it yet; so nothing can refuse it there.
-/

namespace ScriptTree

namespace Arena

def spanned (a : Arena) (h : Handle) (span : Span) : Arena := a.update h fun node => { node with span }

theorem node?_spanned (a : Arena) {h x : Handle} (span : Span) (hx : x ≠ h) : (a.spanned h span).node? x = a.node? x := by
  rw [spanned, node?_update, if_neg hx]

theorem sameTrees_spanned (a : Arena) (h : Handle) (span : Span) : a.SameTrees (a.spanned h span) :=
  .update (fun _ => rfl) (fun _ _ => rfl)

section Slots

variable {a b : Arena} {o : Handle} {s : Slot}

theorem HasList.of_node?_eq {cs : List Handle} (h : a.HasList o s cs) (hn : b.node? o = a.node? o) :
    b.HasList o s cs := by
  rwa [HasList, hn]

theorem HasSingle.of_node?_eq {c : Option Handle} (h : a.HasSingle o s c) (hn : b.node? o = a.node? o) :
    b.HasSingle o s c := by
  rwa [HasSingle, hn]

theorem hasList_or_hasSingle {isList : Bool} (h : a.isList o s = .ok isList) :
    (isList = true ∧ ∃ cs, a.HasList o s cs) ∨ (isList = false ∧ ∃ c, a.HasSingle o s c) := by
  obtain ⟨p, hp, h⟩ := bind_eq_ok_iff.mp h
  obtain ⟨node, hn, rfl⟩ := payload_eq_ok_iff.mp hp
  cases hk : node.payload.childSlot? s with
  | none =>
    rw [hk] at h
    cases h
  | some k =>
    rw [hk] at h
    obtain rfl : k.list?.isSome = isList := Except.ok.inj h
    cases k with
    | required s' c | optional s' c =>
      right
      exact ⟨rfl, c, node, hn, by rw [Payload.single?, hk]; rfl⟩
    | list s' cs =>
      left
      exact ⟨rfl, cs, node, hn, by rw [Payload.list?, hk]; rfl⟩

theorem HasList.isList_eq {cs : List Handle} (h : a.HasList o s cs) : a.isList o s = .ok true := by
  obtain ⟨node, hn, hs⟩ := h
  obtain ⟨k, hk, hlist⟩ := Option.bind_eq_some_iff.mp hs
  simp only [isList, payload_eq hn, bind, Except.bind, hk]
  cases k with
  | list => rfl
  | required | optional => cases hlist

theorem HasSingle.isList_eq {c : Option Handle} (h : a.HasSingle o s c) : a.isList o s = .ok false := by
  obtain ⟨node, hn, hs⟩ := h
  obtain ⟨k, hk, hsingle⟩ := Option.bind_eq_some_iff.mp hs
  simp only [isList, payload_eq hn, bind, Except.bind, hk]
  cases k with
  | required | optional => rfl
  | list => cases hsingle

end Slots

end Arena

namespace Arena.CopyOf

variable {source dest b : Arena} {root : Handle} {order : List Handle} (h : source.CopyOf dest root order b)

include h

theorem root_mem (hl : source.Listing [root] order) : (⟨dest.size⟩ : Handle) ∈ b := by
  obtain ⟨below, rfl⟩ := hl.eq_cons
  rw [mem_iff, h.size_eq, List.length_cons]
  exact Nat.lt_add_of_pos_right (Nat.succ_pos _)

/-- The copy of the root is new, so it does not lie on the way up from an earlier node. -/
theorem exists_ascent (hd : dest.WellFormed) {o : Handle} (ho : o ∈ dest) :
    ∃ path, b.Ascent o path ∧ (⟨dest.size⟩ : Handle) ∉ path := by
  obtain ⟨path, hp⟩ := hd.rooted o ho
  exact ⟨path, h.ascent_old hp, fun hm => Nat.lt_irrefl dest.size (mem_handles.mp (hp.subset_handles hm))⟩

end Arena.CopyOf

namespace Edit

open Arena

theorem run_copyFrom {source : Arena} (dest : Arena) (hs : source.WellFormed) {n : Handle} {order : List Handle}
    (h : source.preOrder n = .ok order) :
    ∃ b, copyFrom source n dest = .ok (.ofOrder dest.size order) b ∧ source.CopyOf dest n order b := by
  obtain ⟨b, hrun, hcopy⟩ := run_copyNodes dest hs (listing_of_preOrder h)
  refine ⟨b, ?_, hcopy⟩
  have hinspect : (fun _ : Arena => source.subtreeOrder n) dest = .ok order := (source.subtreeOrder_eq_preOrder n).trans h
  rw [copyFrom, run_inspect_bind hinspect, hrun]

theorem run_copyFrom_error {source dest : Arena} {n : Handle} {e : TreeError} (h : source.preOrder n = .error e) :
    copyFrom source n dest = .error e dest := by
  have hinspect : (fun _ : Arena => source.subtreeOrder n) dest = .error e :=
    (source.subtreeOrder_eq_preOrder n).trans h
  rw [copyFrom, run_inspect_bind_error hinspect]

variable {a : Arena} (hw : a.WellFormed)

include hw

theorem run_cloneSubtree_none {n : Handle} {order : List Handle} (h : a.preOrder n = .ok order) :
    ∃ b, cloneSubtree n none a = .ok (.ofOrder a.size order) b ∧ a.CopyOf a n order b := by
  obtain ⟨b, hrun, hcopy⟩ := run_copyNodes a hw (listing_of_preOrder h)
  refine ⟨b, ?_, hcopy⟩
  rw [cloneSubtree, run_inspect_bind ((a.subtreeOrder_eq_preOrder n).trans h)]
  exact hrun

omit hw in
theorem run_cloneSubtree_error {n : Handle} {e : TreeError} (h : a.preOrder n = .error e)
    (target : Option (Handle × Slot)) : cloneSubtree n target a = .error e a :=
  run_inspect_bind_error ((a.subtreeOrder_eq_preOrder n).trans h) _

theorem cloneSubtree_none_cases (n : Handle) :
    (∃ e, a.preOrder n = .error e ∧ cloneSubtree n none a = .error e a) ∨
      ∃ order b, a.preOrder n = .ok order ∧ a.CopyOf a n order b ∧
        cloneSubtree n none a = .ok (.ofOrder a.size order) b := by
  cases h : a.preOrder n with
  | error e =>
    left
    exact ⟨e, rfl, run_cloneSubtree_error h none⟩
  | ok order =>
    right
    obtain ⟨b, hrun, hcopy⟩ := run_cloneSubtree_none hw h
    exact ⟨order, b, rfl, hcopy, hrun⟩

theorem run_attachCopy_list {n o c : Handle} {s : Slot} {node : Node} {cs path : List Handle} (hn : a.node? n = some node)
    (hs : a.HasList o s cs) (hc : c ∈ a) (hpath : a.Ascent o path) (hcpath : c ∉ path) :
    attachCopy o s true n c a = .ok () ((a.moved o s c).spanned c node.span) := by
  rw [attachCopy, run_inspect_bind (get_eq hn)]
  show (pushChild o s c >>= _) a = _
  rw [run_bind_of_ok (run_pushChild hw hs hc hpath hcpath)]
  exact run_modifyNode (mem_moved.mpr hc) _

theorem run_attachCopy_single {n o c : Handle} {s : Slot} {node : Node} {old : Option Handle} {path : List Handle}
    (hn : a.node? n = some node) (hs : a.HasSingle o s old) (hold : old ≠ some c) (hc : c ∈ a)
    (hpath : a.Ascent o path) (hcpath : c ∉ path) :
    attachCopy o s false n c a = .ok () ((a.filled o s c old).spanned c node.span) := by
  rw [attachCopy, run_inspect_bind (get_eq hn)]
  show (setChild o s (some c) >>= _) a = _
  rw [run_bind_of_ok (run_setChild_some hw hs hold hc hpath hcpath).2]
  exact run_modifyNode (mem_filled.mpr hc) _

/-- When the subtree can be walked and the slot exists, the copies are made and the copy of the root is attached. -/
theorem run_cloneSubtree_some {n o : Handle} {s : Slot} {order : List Handle} {isList : Bool}
    (horder : a.preOrder n = .ok order) (hlist : a.isList o s = .ok isList) :
    ∃ b node, a.CopyOf a n order b ∧ a.node? n = some node ∧ cloneSubtree n (some (o, s)) a =
      (attachCopy o s isList n ⟨a.size⟩ >>= fun _ => pure (.ofOrder a.size order)) b := by
  have hl := listing_of_preOrder horder
  obtain ⟨b, hrun, hcopy⟩ := run_copyNodes a hw hl
  obtain ⟨node, hn⟩ := mem_iff_node?.mp (hl.mem (hl.subset List.mem_cons_self))
  refine ⟨b, node, hcopy, hn, ?_⟩
  rw [cloneSubtree, run_inspect_bind ((a.subtreeOrder_eq_preOrder n).trans horder)]
  show (inspect (·.isList o s) >>= _) a = _
  rw [run_inspect_bind hlist]
  exact run_bind_of_ok hrun _

theorem run_cloneSubtree_list {n o : Handle} {s : Slot} {order cs : List Handle} (horder : a.preOrder n = .ok order)
    (hs : a.HasList o s cs) :
    ∃ b node, a.CopyOf a n order b ∧ a.node? n = some node ∧ (b.moved o s ⟨a.size⟩).WellFormed ∧
      cloneSubtree n (some (o, s)) a =
        .ok (.ofOrder a.size order) ((b.moved o s ⟨a.size⟩).spanned ⟨a.size⟩ node.span) := by
  have hl := listing_of_preOrder horder
  obtain ⟨b, node, hcopy, hn, hrun⟩ := run_cloneSubtree_some hw horder hs.isList_eq
  have hwb := hcopy.wellFormed hw hl hw
  have hnb : b.node? n = some node := by rw [hcopy.node?_old n (mem_of_node? hn), hn]
  have hc := hcopy.root_mem hl
  have ho : o ∈ a := mem_of_node? hs.choose_spec.1
  obtain ⟨path, hpath, hcpath⟩ := hcopy.exists_ascent hw ho
  have hsb := hs.of_node?_eq (hcopy.node?_old o ho)
  have hoc : o ≠ ⟨a.size⟩ := by
    rintro rfl
    exact Nat.lt_irrefl a.size ho
  refine ⟨b, node, hcopy, hn, hwb.moved (hsb.severed hwb hoc).hasRoom hc hpath hcpath, ?_⟩
  rw [hrun, run_bind_of_ok (run_attachCopy_list hwb hnb hsb hc hpath hcpath)]
  rfl

theorem run_cloneSubtree_single {n o : Handle} {s : Slot} {order : List Handle} {old : Option Handle}
    (horder : a.preOrder n = .ok order) (hs : a.HasSingle o s old) :
    ∃ b node, a.CopyOf a n order b ∧ a.node? n = some node ∧ (b.filled o s ⟨a.size⟩ old).WellFormed ∧
      cloneSubtree n (some (o, s)) a =
        .ok (.ofOrder a.size order) ((b.filled o s ⟨a.size⟩ old).spanned ⟨a.size⟩ node.span) := by
  have hl := listing_of_preOrder horder
  obtain ⟨b, node, hcopy, hn, hrun⟩ := run_cloneSubtree_some hw horder hs.isList_eq
  have hwb := hcopy.wellFormed hw hl hw
  have hnb : b.node? n = some node := by rw [hcopy.node?_old n (mem_of_node? hn), hn]
  have hc := hcopy.root_mem hl
  have ho : o ∈ a := mem_of_node? hs.choose_spec.1
  obtain ⟨path, hpath, hcpath⟩ := hcopy.exists_ascent hw ho
  have hsb := hs.of_node?_eq (hcopy.node?_old o ho)
  have hold : old ≠ some ⟨a.size⟩ := by
    rintro rfl
    exact Nat.lt_irrefl a.size (hw.child_mem o ho _ hs.mem_handlesAt)
  refine ⟨b, node, hcopy, hn, (run_setChild_some hwb hsb hold hc hpath hcpath).1, ?_⟩
  rw [hrun, run_bind_of_ok (run_attachCopy_single hwb hnb hsb hold hc hpath hcpath)]
  rfl

/-- A clone below a node is refused, or its copies are made and the copy of the root is moved into the slot. -/
theorem cloneSubtree_some_cases (n o : Handle) (s : Slot) :
    (∃ e, cloneSubtree n (some (o, s)) a = .error e a) ∨
      ∃ order b node, a.preOrder n = .ok order ∧ a.CopyOf a n order b ∧ a.node? n = some node ∧
        ((∃ cs, a.HasList o s cs ∧ (b.moved o s ⟨a.size⟩).WellFormed ∧ cloneSubtree n (some (o, s)) a =
            .ok (.ofOrder a.size order) ((b.moved o s ⟨a.size⟩).spanned ⟨a.size⟩ node.span)) ∨
          ∃ old, a.HasSingle o s old ∧ (b.filled o s ⟨a.size⟩ old).WellFormed ∧ cloneSubtree n (some (o, s)) a =
            .ok (.ofOrder a.size order) ((b.filled o s ⟨a.size⟩ old).spanned ⟨a.size⟩ node.span)) := by
  cases horder : a.preOrder n with
  | error e =>
    left
    exact ⟨e, run_cloneSubtree_error horder _⟩
  | ok order =>
  cases hlist : a.isList o s with
  | error e =>
    left
    refine ⟨e, ?_⟩
    rw [cloneSubtree, run_inspect_bind ((a.subtreeOrder_eq_preOrder n).trans horder)]
    exact run_inspect_bind_error hlist _
  | ok isList =>
  right
  rcases hasList_or_hasSingle hlist with ⟨rfl, cs, hs⟩ | ⟨rfl, old, hs⟩
  · obtain ⟨b, node, hcopy, hn, hwb, hrun⟩ := run_cloneSubtree_list hw horder hs
    exact ⟨order, b, node, rfl, hcopy, hn, .inl ⟨cs, hs, hwb, hrun⟩⟩
  · obtain ⟨b, node, hcopy, hn, hwb, hrun⟩ := run_cloneSubtree_single hw horder hs
    exact ⟨order, b, node, rfl, hcopy, hn, .inr ⟨old, hs, hwb, hrun⟩⟩

end Edit

end ScriptTree
