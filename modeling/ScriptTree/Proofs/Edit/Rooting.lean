import ScriptTree.Command
import ScriptTree.Proofs.Edit.Allocation

/-!
# Parent links where payloads are corrupt

A payload can be overwritten as it is, with handles that lead nowhere, to a node that hangs elsewhere, or round in a
circle.  The slots then say nothing about the parent links, but following parent links still ends at a root: this module
shows it of every structural edit on an arena that is only `Rooted`.

Most steps cut links at most (`Loosens`), which is harmless.  The one step that makes a link comes after the check that
the new child is not on the ascent of its owner, and what was cut in between has only made that ascent shorter
(`leads_link`).  As an edit on a corrupt arena may fail half way, the statements are about what an edit leaves behind in
either case (`Leads`).
-/

namespace ScriptTree

namespace Arena

/-! ### Cutting links -/

/-- The arenas have the same nodes, and every node of `b` has the parent that it has in `a`, or none. -/
structure Loosens (a b : Arena) : Prop where
  mem_iff : ∀ h, h ∈ b ↔ h ∈ a
  parent?_eq : ∀ h, b.parent? h = a.parent? h ∨ b.parent? h = none

namespace Loosens

variable {a b c : Arena}

theorem refl (a : Arena) : a.Loosens a := ⟨fun _ => Iff.rfl, fun _ => .inl rfl⟩

theorem trans (h : a.Loosens b) (h' : b.Loosens c) : a.Loosens c where
  mem_iff x := (h'.mem_iff x).trans (h.mem_iff x)
  parent?_eq x := by
    rcases h'.parent?_eq x with hc | hc
    · rw [hc]
      exact h.parent?_eq x
    · exact .inr hc

theorem rooted (h : a.Loosens b) (hr : a.Rooted) : b.Rooted := hr.of_cut h.mem_iff h.parent?_eq

theorem parent?_eq_none (h : a.Loosens b) {x : Handle} (hx : a.parent? x = none) : b.parent? x = none := by
  rcases h.parent?_eq x with hb | hb
  · rw [hb, hx]
  · exact hb

/-- Where links are cut the way up gets shorter. -/
theorem exists_ascent (h : a.Loosens b) {o : Handle} {path : List Handle} (ho : a.Ascent o path) :
    ∃ path', b.Ascent o path' ∧ path' ⊆ path := by
  induction ho with
  | @root o mem top => exact ⟨[o], .root ((h.mem_iff o).mpr mem) (h.parent?_eq_none top), List.Subset.refl _⟩
  | @step o p path link rest ih =>
    rcases h.parent?_eq o with hb | hb
    · obtain ⟨path', hp, hsub⟩ := ih
      exact ⟨o :: path', .step (hb.trans link) hp, List.cons_subset_cons o hsub⟩
    · refine ⟨[o], .root ((h.mem_iff o).mpr (mem_of_parent? link)) hb, ?_⟩
      exact List.cons_subset.mpr ⟨List.mem_cons_self, List.nil_subset _⟩

end Loosens

theorem loosens_update (a : Arena) (h : Handle) {f : Node → Node}
    (hf : ∀ node, (f node).parent = node.parent ∨ (f node).parent = none) : a.Loosens (a.update h f) := by
  refine ⟨fun _ => mem_update, fun x => ?_⟩
  rw [parent?_update]
  split
  · cases hn : a.node? x with
    | none => exact .inr rfl
    | some node =>
      rw [Option.bind_some, parent?_eq hn]
      exact hf node
  · exact .inl rfl

end Arena

namespace Edit

open Arena

section Cuts

variable {a : Arena}

theorem loosens_modifyNode (h : Handle) {f : Node → Node}
    (hf : ∀ node, (f node).parent = node.parent ∨ (f node).parent = none) :
    Leads a.Loosens (modifyNode h f) a.Loosens :=
  leads_modifyNode fun b hb => hb.trans (loosens_update b h hf)

theorem loosens_modifyPayload (h : Handle) (f : Payload → Payload) : Leads a.Loosens (modifyPayload h f) a.Loosens :=
  loosens_modifyNode h fun _ => .inl rfl

theorem loosens_orphan (h : Handle) : Leads a.Loosens (orphan h) a.Loosens :=
  (leads_inspect _).keep fun _ => loosens_modifyNode h fun _ => .inr rfl

theorem loosens_orphanEach (hs : List Handle) : Leads a.Loosens (orphanEach hs) a.Loosens := by
  induction hs with
  | nil => exact leads_pure ()
  | cons h hs ih => exact (loosens_orphan h).keep fun _ => ih

theorem loosens_unlink (c : Handle) : Leads a.Loosens (unlink c) a.Loosens := by
  refine (leads_inspect _).keep fun parent => ?_
  cases parent with
  | none => exact leads_pure none
  | some owner =>
    refine (leads_inspect _).keep fun p => ?_
    cases hslot : p.slotOf? c with
    | none => exact (loosens_orphan c).keep fun _ => leads_pure none
    | some slot => exact (loosens_modifyPayload owner _).keep fun _ => (loosens_orphan c).keep fun _ => leads_pure _

theorem loosens_detach (h : Handle) : Leads a.Loosens (detach h) a.Loosens := by
  refine (leads_inspect _).keep fun parent => ?_
  cases parent with
  | none => exact leads_pure none
  | some owner => exact (loosens_unlink h).keep fun _ => leads_pure _

theorem loosens_replaceSingle (o : Handle) (s : Slot) (c : Option Handle) :
    Leads a.Loosens (replaceSingle o s c) a.Loosens :=
  (leads_inspect _).keep fun _ => (loosens_modifyPayload o _).keep fun _ => leads_pure _

theorem loosens_shiftEach (distance : Int) (hs : List Handle) : Leads a.Loosens (shiftEach distance hs) a.Loosens := by
  induction hs with
  | nil => exact leads_pure ()
  | cons h hs ih =>
    refine (loosens_modifyNode h ?_).keep fun _ => ih
    exact fun _ => .inl rfl

theorem loosens_reposition (h : Handle) (start stop : Int) : Leads a.Loosens (reposition h start stop) a.Loosens := by
  refine (leads_inspect _).keep fun position => ?_
  refine (leads_inspect _).keep fun p => ?_
  refine (loosens_modifyNode h ?_).keep fun _ => loosens_shiftEach _ _
  exact fun _ => .inl rfl

theorem loosens_recomputeBounds (h : Handle) : Leads a.Loosens (recomputeBounds h) a.Loosens := by
  refine (leads_inspect _).keep fun node => ?_
  split
  · exact leads_pure ()
  · refine (leads_inspect _).keep fun bounds => ?_
    cases bounds with
    | none => exact leads_pure ()
    | some bounds => exact loosens_reposition h _ _

theorem loosens_afterFill (o : Handle) (s : Slot) : Leads a.Loosens (afterFill o s) a.Loosens := by
  unfold afterFill
  split
  · refine (leads_inspect _).keep fun v => ?_
    split
    · exact loosens_recomputeBounds o
    · exact leads_pure ()
  · exact leads_pure ()

theorem loosens_mark (h : Handle) (m : Mark) : Leads a.Loosens (mark h m) a.Loosens :=
  loosens_modifyNode h fun _ => .inl (by cases m <;> rfl)

theorem loosens_setSpan (h : Handle) (span : Span) : Leads a.Loosens (setSpan h span) a.Loosens :=
  loosens_modifyNode h fun _ => .inl rfl

theorem loosens_refine (h : Handle) (r : Refinement) : Leads a.Loosens (refine h r) a.Loosens := by
  refine (leads_inspect _).keep fun p => ?_
  split
  · exact loosens_modifyPayload h _
  · exact leads_throw _

end Cuts

theorem leads_rooted_of_loosens {α : Type} {e : Edit α} (h : ∀ a : Arena, Leads a.Loosens e a.Loosens) :
    Leads Rooted e Rooted :=
  fun a hr => (h a a (.refl a)).rooted hr

/-! ### Making links -/

/-- Linking a node writes its parent and its position, or nothing. -/
theorem leaves_link (o c : Handle) (a : Arena) : (link o c).leaves a = a ∨ c ∈ a ∧ ∃ distance,
    (link o c).leaves a = a.update c fun node => { node with span := node.span.shift distance, parent := some o } := by
  cases hbase : a.absolutePosition o with
  | error e =>
    left
    exact leaves_of_error (run_inspect_bind_error hbase _)
  | ok base =>
    by_cases hc : c ∈ a
    · right
      exact ⟨hc, -base, leaves_of_ok ((run_inspect_bind hbase _).trans (run_modifyNode hc _))⟩
    · left
      exact leaves_of_error ((run_inspect_bind hbase _).trans (if_neg hc))

/-- A node that was not on the ascent of its new owner can be linked to it, whatever links were cut since then. -/
theorem leads_link {a : Arena} (hr : a.Rooted) {o c : Handle} {path : List Handle} (ho : a.Ascent o path)
    (hc : c ∉ path) : Leads a.Loosens (link o c) Rooted := by
  intro b hb
  rcases leaves_link o c b with h | ⟨hcb, distance, h⟩
  · rw [h]
    exact hb.rooted hr
  · rw [h]
    obtain ⟨path', ho', hsub⟩ := hb.exists_ascent ho
    have hparent := parent?_update b c fun node => { node with span := node.span.shift distance, parent := some o }
    refine (hb.rooted hr).of_link (fun _ => mem_update) ho' (fun hmem => hc (hsub hmem)) (fun h hne => ?_) ?_
    · rw [hparent, if_neg hne]
    · obtain ⟨node, hn⟩ := mem_iff_node?.mp hcb
      rw [hparent, if_pos rfl, hn]
      rfl

theorem leads_setChild (o : Handle) (s : Slot) (c : Option Handle) : Leads Rooted (setChild o s c) Rooted := by
  cases c with
  | none =>
    refine leads_rooted_of_loosens fun a => ?_
    refine (leads_inspect _).keep fun required => ?_
    split
    · exact (leads_inspect _).keep fun _ => (leads_throw _).keep fun _ => (loosens_replaceSingle o s none).keep fun _ =>
        (loosens_orphanEach _).keep fun _ => leads_pure _
    · exact (loosens_replaceSingle o s none).keep fun _ => (loosens_orphanEach _).keep fun _ => leads_pure _
  | some c =>
    intro a hr
    refine leaves_inspect_bind hr fun required _ => ?_
    refine leaves_inspect_bind hr fun _ hcheck => ?_
    obtain ⟨-, path, hpath, hcpath⟩ := hr.checkAttachable_eq_ok_iff.mp hcheck
    refine leaves_inspect_bind hr fun old _ => ?_
    split
    · exact hr
    · -- from here to the link the edit cuts links only
      have hcut : ∀ b, a.Loosens b → b.Rooted := fun b hb => hb.rooted hr
      refine (loosens_unlink c).bind (fun _ => ?_) hcut a (.refl a)
      refine (loosens_replaceSingle o s (some c)).bind (fun previous => ?_) hcut
      refine (loosens_orphanEach previous.toList).bind (fun _ => ?_) hcut
      refine (leads_link hr hpath hcpath).bind (fun _ => ?_) fun _ h => h
      exact (leads_rooted_of_loosens fun _ => loosens_afterFill o s).keep fun _ => leads_pure _

theorem leads_pushChild (o : Handle) (s : Slot) (c : Handle) : Leads Rooted (pushChild o s c) Rooted := by
  intro a hr
  refine leaves_inspect_bind hr fun _ hcheck => ?_
  obtain ⟨-, path, hpath, hcpath⟩ := hr.checkAttachable_eq_ok_iff.mp hcheck
  refine leaves_inspect_bind hr fun _ _ => ?_
  have hcut : ∀ b, a.Loosens b → b.Rooted := fun b hb => hb.rooted hr
  refine (loosens_unlink c).bind (fun _ => ?_) hcut a (.refl a)
  refine (leads_inspect _).bind (fun children => ?_) hcut
  exact (loosens_modifyPayload o _).bind (fun _ => leads_link hr hpath hcpath) hcut

theorem leads_pushEach (o : Handle) (s : Slot) (cs : List Handle) : Leads Rooted (pushEach o s cs) Rooted := by
  induction cs with
  | nil => exact leads_pure ()
  | cons c cs ih => exact (leads_pushChild o s c).keep fun _ => ih

theorem leads_setChildList (o : Handle) (s : Slot) (cs : List Handle) : Leads Rooted (setChildList o s cs) Rooted := by
  refine (leads_inspect _).keep fun previous => ?_
  refine (leads_inspect _).keep fun _ => ?_
  refine (leads_rooted_of_loosens fun _ => loosens_modifyPayload o _).keep fun _ => ?_
  exact (leads_rooted_of_loosens fun _ => loosens_orphanEach previous).keep fun _ => leads_pushEach o s cs

/-! ### Allocating nodes -/

/-- A root stays one while other nodes move below it. -/
theorem leads_adopt {o : Handle} {cs : List Handle} (hne : ∀ c ∈ cs, c ≠ o) :
    Leads (fun a => a.Rooted ∧ o ∈ a ∧ a.parent? o = none) (adopt o cs)
      fun a => a.Rooted ∧ o ∈ a ∧ a.parent? o = none := by
  induction cs with
  | nil => exact leads_pure ()
  | cons c cs ih =>
    have hco : c ≠ o := hne c List.mem_cons_self
    have hunlink : Leads (fun a => a.Rooted ∧ o ∈ a ∧ a.parent? o = none) (unlink c)
        fun a => a.Rooted ∧ o ∈ a ∧ a.parent? o = none := by
      rintro a ⟨hr, ho, htop⟩
      have hcut := loosens_unlink c a (.refl a)
      exact ⟨hcut.rooted hr, (hcut.mem_iff o).mpr ho, hcut.parent?_eq_none htop⟩
    have hlink : Leads (fun a => a.Rooted ∧ o ∈ a ∧ a.parent? o = none) (link o c)
        fun a => a.Rooted ∧ o ∈ a ∧ a.parent? o = none := by
      rintro a ⟨hr, ho, htop⟩
      have hrooted := leads_link hr (.root ho htop) (by simpa using hco) a (.refl a)
      rcases leaves_link o c a with h | ⟨-, _, h⟩
      · rw [h]
        exact ⟨hr, ho, htop⟩
      · rw [h] at hrooted ⊢
        refine ⟨hrooted, mem_update.mpr ho, ?_⟩
        rw [parent?_update, if_neg (Ne.symm hco), htop]
    exact hunlink.keep fun _ => hlink.keep fun _ => ih fun x hx => hne x (List.mem_cons_of_mem _ hx)

theorem leads_alloc (p : Payload) (span : Span) : Leads Rooted (alloc p span) Rooted := by
  intro a hr
  have hdrawn : a.drawn.Rooted := hr.of_cut (fun _ => Iff.rfl) fun _ => .inl rfl
  show ((inspect (·.checkChildren p.variant [] p.placedHandles) >>= _).leaves a.drawn).Rooted
  refine leaves_inspect_bind hdrawn fun _ hcheck => ?_
  have hne : ∀ c ∈ p.handles, c ≠ ⟨a.size⟩ := by
    intro c hc hnew
    rw [← Payload.map_snd_placedHandles] at hc
    have hold : c ∈ a := ((nodup_of_checkChildren hcheck).2 c hc).1
    rw [hnew, mem_iff] at hold
    exact Nat.lt_irrefl a.size hold
  have hpush : (a.drawn.push { id := a.ids.draw.1, span, payload := p }).Rooted := hdrawn.push rfl
  have hnew : (⟨a.size⟩ : Handle) ∈ a.drawn.push { id := a.ids.draw.1, span, payload := p } := mem_push.mpr (.inr rfl)
  have htop : (a.drawn.push { id := a.ids.draw.1, span, payload := p }).parent? ⟨a.size⟩ = none := by
    have hnone : a.drawn.node? ⟨a.size⟩ = none := node?_eq_none (Nat.lt_irrefl a.size)
    rw [parent?_push rfl, parent?, hnone]
    rfl
  have hadopt := (leads_adopt hne).keep fun _ => leads_pure (⟨a.size⟩ : Handle)
  exact (hadopt _ ⟨hpush, hnew, htop⟩).1

theorem leads_construct (c : Construction) : Leads Rooted (construct c) Rooted := by
  refine (leads_inspect _).keep fun planned => ?_
  refine (leads_alloc _ _).keep fun node => ?_
  split
  · exact (leads_rooted_of_loosens fun _ => loosens_recomputeBounds node).keep fun _ => leads_pure _
  · exact leads_pure _

end Edit

end ScriptTree
