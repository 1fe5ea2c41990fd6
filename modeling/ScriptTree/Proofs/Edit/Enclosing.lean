import ScriptTree.Proofs.Clone.Copies
import ScriptTree.Proofs.Edit.Readings

/-!
# Putting parentheses around a child

Parentheses are put around a child in two edits.  Their construction takes the child out of its slot, which it leaves
empty, or out of its list (`Encloses`).  Then the parentheses are put where the child was: into the empty slot, or with
the other entries into the list.  In the end they stand in place of the child in the payload of its parent, and all other
payloads and all labels are as before (`Wraps`).
-/

namespace ScriptTree

namespace Handle

/-- The exchange of one handle for another one. -/
def exchange (c n h : Handle) : Handle := if h = c then n else h

@[simp] theorem exchange_self (c n : Handle) : exchange c n c = n := if_pos rfl

theorem exchange_of_ne {c h : Handle} (hh : h ≠ c) (n : Handle) : exchange c n h = h := if_neg hh

/-- An exchange for a new handle is one to one. -/
theorem exchange_injOn {c n : Handle} {hs : List Handle} (hn : n ∉ hs) :
    ∀ x ∈ hs, ∀ y ∈ hs, exchange c n x = exchange c n y → x = y := by
  intro x hx y hy hxy
  unfold exchange at hxy
  split at hxy <;> split at hxy
  · rw [‹x = c›, ‹y = c›]
  · exact absurd (hxy ▸ hy) hn
  · exact absurd (hxy ▸ hx) hn
  · exact hxy

/-- What is in a list after an exchange is new there, or was in it beside the handle that went. -/
theorem eq_or_mem_erase {c n d : Handle} {hs : List Handle} (hd : d ∈ hs.map (exchange c n)) : d = n ∨ d ∈ hs.erase c := by
  obtain ⟨x, hx, rfl⟩ := List.mem_map.mp hd
  by_cases hxc : x = c
  · exact .inl (if_pos hxc)
  · rw [exchange_of_ne hxc]
    exact .inr ((List.mem_erase_of_ne hxc).mpr hx)

end Handle

namespace Payload

variable {p : Payload} {s : Slot} {c : Handle} (n : Handle)

theorem renamed_exchange_of_not_mem (hc : c ∉ p.handles) : p.renamed (.exchange c n) = p := by
  have hkeep : ∀ x ∈ p.handles, Handle.exchange c n x = x := by
    intro x hx
    refine Handle.exchange_of_ne ?_ n
    rintro rfl
    exact hc hx
  exact (renamed_congr (g := id) hkeep).trans p.renamed_id

/-- A child that occurs once is exchanged by a write at its slot. -/
theorem renamed_exchange (hc : p.slotOf? c = some s) (hcount : p.handles.count c ≤ 1) :
    p.renamed (.exchange c n) =
      p.overwrite (fun s' d => if s' = s then d.map (.exchange c n) else d)
        (fun s' cs => if s' = s then cs.map (.exchange c n) else cs) := by
  refine overwrite_congr ?_ ?_
  · intro s' d hd
    by_cases hs : s' = s
    · rw [if_pos hs]
    · rw [if_neg hs]
      cases d with
      | none => rfl
      | some x =>
        have hx : x ≠ c := by
          rintro rfl
          exact hs (Option.some.inj ((slotOf?_of_single? hd hcount).symm.trans hc))
        rw [Option.map_some, Handle.exchange_of_ne hx]
  · intro s' cs hcs
    by_cases hs : s' = s
    · rw [if_pos hs]
    · rw [if_neg hs]
      have hkeep : ∀ x ∈ cs, Handle.exchange c n x = x := by
        intro x hx
        refine Handle.exchange_of_ne ?_ n
        rintro rfl
        exact hs (Option.some.inj ((slotOf?_of_list? hcs hx hcount).symm.trans hc))
      rw [List.map_congr_left hkeep, List.map_id']

theorem setSingle_eq_renamed (h : p.single? s = some (some c)) (hcount : p.handles.count c ≤ 1) :
    p.setSingle s (some n) = p.renamed (.exchange c n) := by
  rw [renamed_exchange n (slotOf?_of_single? h hcount) hcount]
  refine overwrite_congr ?_ ?_
  · intro s' d hd
    by_cases hs : s' = s
    · subst hs
      obtain rfl : some c = d := Option.some.inj (h.symm.trans hd)
      simp only [↓reduceIte, Option.map_some, Handle.exchange_self]
    · simp only [hs, ↓reduceIte]
  · intro s' cs hcs
    have hs : s' ≠ s := by
      rintro rfl
      rw [single?_eq_none_of_list? hcs] at h
      cases h
    simp only [hs, ↓reduceIte]

theorem setList_eq_renamed {cs : List Handle} (h : p.list? s = some cs) (hc : c ∈ cs) (hcount : p.handles.count c ≤ 1) :
    p.setList s (cs.map (.exchange c n)) = p.renamed (.exchange c n) := by
  rw [renamed_exchange n (slotOf?_of_list? h hc hcount) hcount]
  refine overwrite_congr ?_ ?_
  · intro s' d hd
    have hs : s' ≠ s := by
      rintro rfl
      rw [single?_eq_none_of_list? h] at hd
      cases hd
    simp only [hs, ↓reduceIte]
  · intro s' ds hds
    by_cases hs : s' = s
    · subst hs
      obtain rfl : cs = ds := Option.some.inj (h.symm.trans hds)
      simp only [↓reduceIte]
    · simp only [hs, ↓reduceIte]

end Payload

namespace Arena

/-- In `b` a new node `n`, a pair of parentheses, has taken `c` from where it hung. -/
structure Encloses (a b : Arena) (c n : Handle) : Prop where
  wellFormed : b.WellFormed
  fresh : n ∉ a
  mem_iff : ∀ x, x ∈ b ↔ x ∈ a ∨ x = n
  parent?_eq : ∀ x, b.parent? x = if x = c then some n else a.parent? x
  reading?_new : b.reading? n = some (.parenthesized (some c), {})
  reading?_old : ∀ x ∈ a, b.reading? x =
    if a.parent? c = some x then ((a.reading? x).map fun r => (r.1.without c, r.2)) else a.reading? x

/-- In `b` a pair of parentheses `n` stands around `c`, and in place of it in the payloads of some nodes, which have not
changed otherwise. -/
structure Wraps (a b : Arena) (c n : Handle) (xs : List Handle) : Prop where
  wellFormed : b.WellFormed
  reading?_new : b.reading? n = some (.parenthesized (some c), {})
  reading?_old : ∀ x ∈ xs, b.reading? x = (a.reading? x).map fun r => (r.1.renamed (.exchange c n), r.2)

/-- Nothing is to be exchanged in a node that is not the parent. -/
theorem WellFormed.reading?_exchange {a : Arena} (hw : a.WellFormed) {c x : Handle} (n : Handle)
    (hx : a.parent? c ≠ some x) : ((a.reading? x).map fun r => (r.1.renamed (.exchange c n), r.2)) = a.reading? x := by
  cases hr : a.reading? x with
  | none => rfl
  | some r =>
    obtain ⟨p, l⟩ := r
    obtain ⟨node, hn, rfl, rfl⟩ := reading?_eq_some_iff.mp hr
    have hc : c ∉ node.payload.handles := by
      rw [← handlesAt_eq hn]
      exact fun hc => hx (hw.mem_handlesAt_iff.mp hc)
    rw [Option.map_some, Payload.renamed_exchange_of_not_mem n hc]

namespace Encloses

variable {a b : Arena} {c n o : Handle} {s : Slot} (h : a.Encloses b c n)

include h

theorem mem_self : n ∈ b := (h.mem_iff n).mpr (.inr rfl)

/-- The parentheses are a root. -/
theorem parent?_self (hc : c ∈ a) : b.parent? n = none := by
  have hnc : n ≠ c := fun hn => h.fresh (hn ▸ hc)
  have hnone : a.parent? n = none := by
    rw [parent?, node?_eq_none h.fresh, Option.bind_none]
  rw [h.parent?_eq, if_neg hnc, hnone]

/-- The way up from the old parent is still there, and does not pass the parentheses. -/
theorem ascent {path : List Handle} (ho : a.Ascent o path) (hc : c ∉ path) : b.Ascent o path ∧ n ∉ path := by
  have hmem : ∀ x ∈ path, x ∈ a := fun x hx => mem_handles.mp (ho.subset_handles hx)
  refine ⟨ho.of_parent?_eq (fun x hx => (h.mem_iff x).mpr (.inl (hmem x hx))) fun x hx => ?_, ?_⟩
  · have hxc : x ≠ c := fun hxc => hc (hxc ▸ hx)
    rw [h.parent?_eq, if_neg hxc]
  · exact fun hn => h.fresh (hmem n hn)

theorem reading?_of_ne (hw : a.WellFormed) {x : Handle} (hx : x ∈ a) (hxp : a.parent? c ≠ some x) :
    b.reading? x = (a.reading? x).map fun r => (r.1.renamed (.exchange c n), r.2) := by
  rw [h.reading?_old x hx, if_neg hxp, hw.reading?_exchange n hxp]

theorem reading?_parent (hparent : a.parent? c = some o) {node : Node} (hn : a.node? o = some node) :
    b.reading? o = some (node.payload.without c, node.change) := by
  rw [h.reading?_old o (mem_of_node? hn), if_pos hparent, reading?_eq hn, Option.map_some]

/-- Away from the old parent nothing is left to do. -/
theorem wraps (hw : a.WellFormed) {xs : List Handle} (hxs : ∀ x ∈ xs, x ∈ a ∧ a.parent? c ≠ some x) :
    a.Wraps b c n xs :=
  ⟨h.wellFormed, h.reading?_new, fun x hx => h.reading?_of_ne hw (hxs x hx).1 (hxs x hx).2⟩

/-- What is left to do is to write the parentheses to the payload that the child was taken from. -/
theorem wraps_of_write (hw : a.WellFormed) {b' : Arena} (hwb : b'.WellFormed) (hparent : a.parent? c = some o)
    {node : Node} (hn : a.node? o = some node) {f : Payload → Payload}
    (hread : ∀ x, b'.reading? x = if x = o then ((b.reading? x).map fun r => (f r.1, r.2)) else b.reading? x)
    (hf : f (node.payload.without c) = node.payload.renamed (.exchange c n)) {xs : List Handle}
    (hxs : ∀ x ∈ xs, x ∈ a) : a.Wraps b' c n xs := by
  have hno : n ≠ o := by
    rintro rfl
    exact h.fresh (mem_of_node? hn)
  refine ⟨hwb, ?_, fun x hx => ?_⟩
  · rw [hread, if_neg hno, h.reading?_new]
  · by_cases hxo : x = o
    · subst hxo
      rw [hread, if_pos rfl, h.reading?_parent hparent hn, reading?_eq hn, Option.map_some, Option.map_some, hf]
    · have hxp : a.parent? c ≠ some x := fun hp => hxo (Option.some.inj (hp.symm.trans hparent))
      rw [hread, if_neg hxo, h.reading?_of_ne hw (hxs x hx) hxp]

/-! #### The slot that the child was taken from -/

theorem hasSingle (hw : a.WellFormed) (hs : a.HasSingle o s (some c)) : b.HasSingle o s none := by
  have hparent := hw.mem_handlesAt_iff.mp hs.mem_handlesAt
  obtain ⟨node, hn, hsingle⟩ := hs
  obtain ⟨node', hn', hpayload, -⟩ := reading?_eq_some_iff.mp (h.reading?_parent hparent hn)
  exact ⟨node', hn', hpayload ▸ Payload.single?_without_self hsingle (hw.count_payload_le_one hn c)⟩

theorem hasList (hw : a.WellFormed) {cs : List Handle} (hs : a.HasList o s cs) (hc : c ∈ cs) :
    b.HasList o s (cs.erase c) := by
  have hparent := hw.mem_handlesAt_iff.mp (hs.mem_handlesAt hc)
  obtain ⟨node, hn, hlist⟩ := hs
  obtain ⟨node', hn', hpayload, -⟩ := reading?_eq_some_iff.mp (h.reading?_parent hparent hn)
  exact ⟨node', hn', hpayload ▸ Payload.list?_without hlist (hw.count_payload_le_one hn c)⟩

theorem nodup_entries (hw : a.WellFormed) {cs : List Handle} (hs : a.HasList o s cs) :
    (cs.map (Handle.exchange c n)).Nodup := by
  have hn : n ∉ cs := fun hn => h.fresh (hs.child_mem hw hn)
  exact (List.nodup_map_iff_inj_on (hs.nodup hw)).mpr (Handle.exchange_injOn hn)

/-- The new list passes the check before it is written. -/
theorem checkEntries_eq (hw : a.WellFormed) {cs : List Handle} (hs : a.HasList o s cs) (hc : c ∈ cs) :
    b.checkEntries o s [] (cs.map (.exchange c n)) = .ok () := by
  have hparent : ∀ d ∈ cs, a.parent? d = some o := fun d hd => hw.mem_handlesAt_iff.mp (hs.mem_handlesAt hd)
  obtain ⟨path, hpath⟩ := hw.rooted o (hw.rooted.mem_of_parent?_eq (hparent c hc))
  obtain ⟨hpath', hnpath⟩ := h.ascent hpath (hpath.not_mem_of_parent? (hparent c hc))
  refine checkEntries_of_checkAttachable (fun d hd => ?_) (h.nodup_entries hw hs) fun d _ => List.not_mem_nil
  refine h.wellFormed.rooted.checkAttachable_eq_ok_iff.mpr ?_
  rcases Handle.eq_or_mem_erase hd with rfl | hd
  · exact ⟨h.mem_self, path, hpath', hnpath⟩
  · have hd := List.mem_of_mem_erase hd
    exact ⟨(h.mem_iff d).mpr (.inl (hs.child_mem hw hd)), path, hpath', hpath.not_mem_of_parent? (hparent d hd)⟩

end Encloses

/-- The arena with new parentheses into which a node has moved. -/
theorem Encloses.of_moved {a : Arena} (hw : a.WellFormed) {c : Handle} (hc : c ∈ a) (span : Span)
    (hwb : ((a.seeded (.parenthesized (some c)) span).moved ⟨a.size⟩ .inner c).WellFormed) :
    a.Encloses ((a.seeded (.parenthesized (some c)) span).moved ⟨a.size⟩ .inner c) c ⟨a.size⟩ := by
  have hfresh : (⟨a.size⟩ : Handle) ∉ a := Nat.lt_irrefl a.size
  have hnp : a.parent? c ≠ some ⟨a.size⟩ := fun hp => hfresh (hw.rooted.mem_of_parent?_eq hp)
  have hmem : ∀ x : Handle, x ∈ a.seeded (.parenthesized (some c)) span ↔ x ∈ a ∨ x = ⟨a.size⟩ := by
    intro x
    rw [mem_seeded, Handle.mk.injEq]
  have hread : ∀ x, ((a.seeded (.parenthesized (some c)) span).moved ⟨a.size⟩ .inner c).reading? x =
      if x = ⟨a.size⟩ then
        ((a.seeded (.parenthesized (some c)) span).reading? x).map fun r => (r.1.insertChild .inner c, r.2)
      else if a.parent? c = some x then
        ((a.seeded (.parenthesized (some c)) span).reading? x).map fun r => (r.1.without c, r.2)
      else (a.seeded (.parenthesized (some c)) span).reading? x := by
    intro x
    rw [moved, reading?_grafted, reading?_severed, parent?_seeded]
    by_cases hx : x = ⟨a.size⟩
    · simp only [hx, hnp, ↓reduceIte]
    · simp only [hx, ↓reduceIte]
  refine ⟨hwb, hfresh, fun x => mem_moved.trans (hmem x), fun x => ?_, ?_, fun x hx => ?_⟩
  · rw [moved, parent?_grafted (mem_severed.mpr ((hmem c).mpr (.inl hc))), parent?_severed, parent?_seeded]
    split <;> rfl
  · rw [hread, if_pos rfl, reading?_seeded_self]
    rfl
  · have hxn : x ≠ ⟨a.size⟩ := by
      rintro rfl
      exact hfresh hx
    rw [hread, if_neg hxn, reading?_seeded hx]

end Arena

namespace Edit

open Arena

variable {a b : Arena} (hw : a.WellFormed) {o c n : Handle} {s : Slot}

include hw

/-- Parentheses can be constructed around every node. -/
theorem run_construct_parenthesized (hc : c ∈ a) (span : Span) :
    ∃ n b, construct (.parenthesized c span) a = .ok n b ∧ a.Encloses b c n := by
  have hcontains : a.contains c = true := contains_iff_mem.mpr hc
  have hcheck : a.checkChildren .parenthesized [] [(.inner, c)] = .ok () := by
    simp only [checkChildren, hcontains]
    rfl
  have hwb : (a.allocated (.parenthesized (some c)) span).WellFormed := hw.allocated span hcheck
  exact ⟨_, _, run_construct hw rfl hcheck, .of_moved hw hc span hwb⟩

theorem encloses_of_construct (hc : c ∈ a) {span : Span} (h : construct (.parenthesized c span) a = .ok n b) :
    a.Encloses b c n := by
  obtain ⟨n', b', hrun, hencloses⟩ := run_construct_parenthesized hw hc span
  obtain ⟨rfl, rfl⟩ := EStateM.Result.ok.inj (hrun.symm.trans h)
  exact hencloses

variable (h : a.Encloses b c n)

include h

/-- The parentheses go into the slot for a single child that their construction has left empty. -/
theorem run_setChild_parentheses (hs : a.HasSingle o s (some c)) :
    ∃ b', setChild o s (some n) b = .ok none b' ∧ ∀ xs : List Handle, (∀ x ∈ xs, x ∈ a) → a.Wraps b' c n xs := by
  have hparent := hw.mem_handlesAt_iff.mp hs.mem_handlesAt
  have hempty := h.hasSingle hw hs
  obtain ⟨path, hpath⟩ := hw.rooted o (hw.rooted.mem_of_parent?_eq hparent)
  obtain ⟨hpath', hnpath⟩ := h.ascent hpath (hpath.not_mem_of_parent? hparent)
  obtain ⟨hwb, hrun⟩ := run_setChild_some h.wellFormed hempty (by simp) h.mem_self hpath' hnpath
  obtain ⟨node, hn, hsingle⟩ := hs
  have hcount := hw.count_payload_le_one hn c
  refine ⟨_, hrun, fun xs hxs => h.wraps_of_write hw hwb hparent hn (f := (·.insertChild s n)) (fun x => ?_) ?_ hxs⟩
  · rw [filled, reading?_settled, severed_of_root (h.parent?_self (mem_of_parent? hparent)), Option.toList_none]
    exact reading?_grafted x
  · show (node.payload.without c).insertChild s n = _
    rw [← Payload.setSingle_some_eq_insertChild (Payload.single?_without_self hsingle hcount),
      Payload.setSingle_without hsingle hcount, Payload.setSingle_eq_renamed n hsingle hcount]

/-- The parentheses go into the list in place of the child. -/
theorem run_setChildList_parentheses {cs : List Handle} (hs : a.HasList o s cs) (hc : c ∈ cs) :
    ∃ b', setChildList o s (cs.map (.exchange c n)) b = .ok () b' ∧
      ∀ xs : List Handle, (∀ x ∈ xs, x ∈ a) → a.Wraps b' c n xs := by
  have hparent := hw.mem_handlesAt_iff.mp (hs.mem_handlesAt hc)
  have hrest := h.hasList hw hs hc
  have hnd := h.nodup_entries hw hs
  obtain ⟨-, -, -, hwb, hrun⟩ := run_setChildList h.wellFormed hrest (h.checkEntries_eq hw hs hc)
  -- the old entries have become roots, and the parentheses are one
  have hroots : ∀ d ∈ cs.map (Handle.exchange c n), d ∈ b.severedEach (cs.erase c) ∧
      (b.severedEach (cs.erase c)).parent? d = none := by
    intro d hd
    rw [mem_severedEach, parent?_severedEach]
    rcases Handle.eq_or_mem_erase hd with rfl | hd
    · exact ⟨h.mem_self, by rw [h.parent?_self (mem_of_parent? hparent), ite_self]⟩
    · exact ⟨hrest.child_mem h.wellFormed hd, if_pos hd⟩
  obtain ⟨node, hn, hlist⟩ := hs
  have hcount := hw.count_payload_le_one hn c
  refine ⟨_, hrun, fun xs hxs =>
    h.wraps_of_write hw hwb hparent hn (f := (·.setList s (cs.map (.exchange c n)))) (fun x => ?_) ?_ hxs⟩
  · rw [reading?_movedEach (hrest.severedEach_self h.wellFormed) hroots hnd, reading?_severedEach h.wellFormed hrest]
    by_cases hx : x = o
    · simp only [hx, ↓reduceIte, Option.map_map, Function.comp_def, Payload.setList_setList, List.nil_append]
    · simp only [hx, ↓reduceIte]
  · show (node.payload.without c).setList s _ = _
    rw [Payload.setList_without hlist hc hcount, Payload.setList_eq_renamed n hlist hc hcount]

end Edit

end ScriptTree
