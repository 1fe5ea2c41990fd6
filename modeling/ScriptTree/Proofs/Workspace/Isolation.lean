import ScriptTree.Proofs.Command.Isolation
import ScriptTree.Proofs.External.Parentheses
import ScriptTree.Proofs.Traversal.Holes
import ScriptTree.Proofs.Workspace.Clones
import ScriptTree.Proofs.Workspace.Step

/-!
# Isolation of trees

What is done to the nodes of one tree is not seen in another one.  A command spares the trees that it is given no node of,
so an action does, whatever it does to other arenas (`Step.spares`), and so does every run of actions
(`WellFormed.spares_performAll`): the tree that a run spares is the same after each of its actions.  As a clone makes a
tree of its own (`CopyOf.hasRoot_iff`), edits of the clone leave the source as it is, and edits of the source the clone
(`trees_isolated`).
-/

namespace ScriptTree

namespace Arena

/-! ### The external forms of a spared tree -/

section Export

variable {T : Handle → Prop} {a b : Arena} {hs xs : List Handle}

theorem Separate.mem_of_subtrees (hT : a.Separate T) (hw : a.WellFormed) (h : a.Subtrees hs xs) (hhs : ∀ x ∈ hs, T x) :
    ∀ x ∈ xs, T x := by
  induction h with
  | nil => exact hhs
  | @cons h hs xs ys mem below rest ihb ihr =>
    have hh : T h := hhs h List.mem_cons_self
    have hbelow : ∀ x ∈ xs, T x := ihb fun c hc => (hT.link c h (hw.mem_handlesAt_iff.mp hc)).mpr hh
    have hrest : ∀ x ∈ ys, T x := ihr fun x hx => hhs x (List.mem_cons_of_mem _ hx)
    intro x hx
    rcases List.mem_cons.mp hx with rfl | hx
    · exact hh
    · exact (List.mem_append.mp hx).elim (hbelow x) (hrest x)

theorem Spares.subtrees (h : Spares T a b) (hsub : a.Subtrees hs xs) (hxs : ∀ x ∈ xs, T x) : b.Subtrees hs xs := by
  induction hsub with
  | nil => exact .nil
  | @cons x hs xs ys mem below rest ihb ihr =>
    have hx : T x := hxs x List.mem_cons_self
    have hchildren : b.handlesAt x = a.handlesAt x := by rw [handlesAt, handlesAt, h.node?_eq x hx]
    refine .cons (h.separate.mem x hx) ?_ (ihr fun y hy => hxs y (List.mem_cons_of_mem _ (List.mem_append_right _ hy)))
    rw [hchildren]
    exact ihb fun y hy => hxs y (List.mem_cons_of_mem _ (List.mem_append_left _ hy))

/-- A walk finds the same nodes, or the same hole. -/
theorem Spares.preOrder_eq (h : Spares T a b) (hT : a.Separate T) (ha : a.WellFormed) (hb : b.WellFormed) {x : Handle}
    (hx : T x) : b.preOrder x = a.preOrder x := by
  obtain ⟨xs, hxs⟩ := ha.exists_subtree (hT.mem x hx)
  have hmem : ∀ y ∈ xs, T y := hT.mem_of_subtrees ha hxs fun y hy => List.mem_singleton.mp hy ▸ hx
  have hholes : ∀ y ∈ xs, b.hole? y = a.hole? y := fun y hy => by rw [hole?, hole?, h.node?_eq y (hmem y hy)]
  rw [ha.preOrder_eq hxs, hb.preOrder_eq (h.subtrees hxs hmem), ← List.head?_filterMap, ← List.head?_filterMap,
    List.filterMap_congr hholes]

theorem Spares.toExternal_eq (h : Spares T a b) (hT : a.Separate T) (ha : a.WellFormed) (hb : b.WellFormed)
    {provider : AnalysisProvider} (hp : provider.ByHandle) {x : Handle} (hx : T x) :
    b.toExternal provider x = a.toExternal provider x := by
  have horder := h.preOrder_eq hT ha hb hx
  cases hpre : a.preOrder x with
  | error e => rw [ha.toExternal_eq_error hpre, hb.toExternal_eq_error (horder.trans hpre)]
  | ok order =>
    have hl := listing_of_preOrder hpre
    have hmem : ∀ y ∈ order, T y := hT.mem_of_subtrees ha hl.subtrees fun y hy => List.mem_singleton.mp hy ▸ hx
    have hmirrors : a.Mirrors b provider provider (fun y => y) order := by
      refine ⟨fun y hy => ?_, fun y _ => hp.criteria b a y, fun y _ => hp.dependencies b a y⟩
      obtain ⟨node, hn⟩ := mem_iff_node?.mp (hl.mem hy)
      have hn' : b.node? y = some node := (h.node?_eq y (hmem y hy)).trans hn
      exact ⟨node, node, get_eq hn, get_eq hn', congrArg _ (Payload.renamed_id node.payload).symm, rfl⟩
    obtain ⟨form, hform, hform'⟩ := hmirrors.toExternal_eq ha hb hl (hl.subset List.mem_cons_self)
    exact hform'.trans hform.symm

end Export

/-! ### Trees as they were -/

/-- The tree of a root is in `b` as it was: it has the same nodes, none of them has changed, and each has the same external
form as before for every analysis that goes by handles. -/
structure KeepsTree (r : Handle) (a b : Arena) : Prop where
  hasRoot_iff : ∀ x, b.HasRoot x r ↔ a.HasRoot x r
  get_eq : ∀ x, a.HasRoot x r → b.get x = a.get x
  toExternal_eq : ∀ provider : AnalysisProvider, provider.ByHandle → ∀ x, a.HasRoot x r →
    b.toExternal provider x = a.toExternal provider x

theorem Spares.get_eq {T : Handle → Prop} {a b : Arena} (h : Spares T a b) {x : Handle} (hx : T x) :
    b.get x = a.get x := by
  have hn : b.nodes[x.index]? = a.nodes[x.index]? := h.node?_eq x hx
  rw [get, get, hn]

theorem Spares.keepsTree {a b : Arena} {r : Handle} (h : Spares (a.HasRoot · r) a b) (ha : a.WellFormed)
    (hb : b.WellFormed) (hroot : a.HasRoot r r) : KeepsTree r a b :=
  ⟨fun _ => h.hasRoot_iff hroot, fun _ hx => h.get_eq hx,
    fun _ hp _ hx => h.toExternal_eq (ha.rooted.separate r) ha hb hp hx⟩

/-- The copies of a clone are a tree of their own, below the copy of the root. -/
theorem CopyOf.hasRoot_iff {a b : Arena} {n : Handle} {order : List Handle} (h : a.CopyOf a n order b) (ha : a.WellFormed)
    (hl : a.Listing [n] order) (y : Handle) : b.HasRoot y ⟨a.size⟩ ↔ y ∈ b ∧ y ∉ a := by
  have hnd := hl.nodup ha
  have hold : a.Separate (· ∈ a) :=
    ⟨fun _ hx => hx, fun _ _ hp => iff_of_true (mem_of_parent? hp) (ha.rooted.mem_of_parent?_eq hp)⟩
  have hsep := (h.spares hold hnd).separate
  constructor
  · intro hy
    exact ⟨hy.mem, fun hya => Nat.lt_irrefl a.size ((hsep.iff_of_hasRoot hy).mp hya)⟩
  · rintro ⟨hyb, hya⟩
    obtain ⟨r, hr⟩ := (h.rooted ha hl ha).exists_hasRoot hyb
    rcases h.old_or_copy hr.root_mem hnd with hra | ⟨z, hz, rfl⟩
    · exact absurd ((hsep.iff_of_hasRoot hr).mpr hra) hya
    · -- of the copies only that of the root has no parent
      have htop := hr.parent?_eq
      rw [h.parent?_copy hz] at htop
      by_cases hzn : z = n
      · rwa [hzn, hl.imageOf_root] at hr
      · obtain ⟨p, -, hp⟩ := hl.exists_parent ha hz hzn
        rw [if_neg hzn, hp] at htop
        cases htop

end Arena

namespace Workspace

open Arena

/-! ### Runs that spare a tree -/

/-- The action gives no node of `T` to a command on arena `i`. -/
def Action.Avoids (i : Nat) (T : Handle → Prop) : Action → Prop
  | .command j c => j = i → ∀ h ∈ c.handles, ¬T h
  | _ => True

section Runs

variable {w w' : Workspace} {i : Nat} {a : Arena} {T : Handle → Prop}

theorem Spares.put {b : Arena} (hi : w.arena? i = some a) (hT : a.Separate T) {k : Nat} (h : i = k → Spares T a b) :
    ∃ b', (w.put k b).arena? i = some b' ∧ Spares T a b' := by
  obtain ⟨b', hi', hnodes⟩ := exists_arena?_put hi k b
  refine ⟨b', hi', ?_⟩
  split at hnodes
  · rename_i hik
    have hspares := h hik
    exact hspares.trans (hspares.separate.of_nodes_eq hnodes)
  · exact hT.of_nodes_eq hnodes

theorem Step.spares {x : Action} (h : w.Step x w') (hw : w.WellFormed) (hi : w.arena? i = some a) (hT : a.Separate T)
    (hx : x.Avoids i T) : ∃ b, w'.arena? i = some b ∧ Spares T a b := by
  cases h with
  | idle => exact ⟨a, hi, hT.spares_self⟩
  | @command k c a' b r arena effect run =>
    refine Spares.put hi hT fun hik => ?_
    subst hik
    obtain rfl : a' = a := Option.some.inj (arena.symm.trans hi)
    exact effect.spares (hw.arena hi) hT (hx rfl)
  | @drawn k a' arena =>
    refine Spares.put hi hT fun hik => ?_
    subst hik
    obtain rfl : a' = a := Option.some.inj (arena.symm.trans hi)
    exact hT.of_nodes_eq rfl
  | @added policy => exact ⟨a, arena?_addArena hi policy, hT.spares_self⟩
  | @shared k shelf =>
    exact ⟨a, (arena?_addShelf (ne_size_of_arena? hi) #[] shelf.generator).trans hi, hT.spares_self⟩
  | @duplicated k shelf =>
    exact ⟨a, (arena?_addShelf (ne_size_of_arena? hi) shelf.nodes shelf.generator).trans hi, hT.spares_self⟩
  | @copied k j n source dest b order from_eq into_eq listed copy =>
    refine Spares.put hi hT fun hij => ?_
    subst hij
    obtain rfl : dest = a := Option.some.inj (into_eq.symm.trans hi)
    exact copy.spares hT ((hw.arena from_eq).nodup_of_preOrder listed)
  | @cloned k n source b order g =>
    have hne := ne_size_of_arena? hi
    have hi' := (arena?_addShelf hne #[] g).trans hi
    exact Spares.put hi' hT fun his => absurd his hne

theorem WellFormed.spares_performAll {actions : List Action} (hw : w.WellFormed) (hi : w.arena? i = some a)
    (hT : a.Separate T) (h : ∀ x ∈ actions, x.isChecked ∧ x.Avoids i T) :
    ∃ b, (w.performAll actions).arena? i = some b ∧ Spares T a b := by
  induction actions generalizing w a with
  | nil => exact ⟨a, hi, hT.spares_self⟩
  | cons x actions ih =>
    obtain ⟨hchecked, havoids⟩ := h x List.mem_cons_self
    obtain ⟨b, hib, hstep⟩ := (hw.step hchecked).spares hw hi hT havoids
    obtain ⟨b', hib', hrun⟩ := ih (hw.perform hchecked) hib hstep.separate fun y hy => h y (List.mem_cons_of_mem _ hy)
    exact ⟨b', hib', hstep.trans hrun⟩

/-- A tree is the same after a run that gives none of its nodes to a command on its arena. -/
theorem WellFormed.keepsTree_performAll {actions : List Action} {r : Handle} (hw : w.WellFormed) (hi : w.arena? i = some a)
    (hroot : a.HasRoot r r) (h : ∀ x ∈ actions, x.isChecked ∧ x.Avoids i (a.HasRoot · r)) :
    ∃ b, (w.performAll actions).arena? i = some b ∧ KeepsTree r a b := by
  have ha := hw.arena hi
  obtain ⟨b, hib, hspares⟩ := hw.spares_performAll hi (ha.rooted.separate r) h
  have hb := (hw.performAll fun x hx => (h x hx).1).arena hib
  exact ⟨b, hib, hspares.keepsTree ha hb hroot⟩

end Runs

/-- Trees do not see each other.  Every node has one root.  A command, whether it succeeds or fails, changes no node whose
root is not the root of one of the nodes that the command is given.  A clone that is made as a tree of its own leaves the
tree of its source as it was, and afterwards each of the two trees stays as it is through every run that gives no node of
it to a command on the arena: it keeps its nodes, their content and their external forms. -/
theorem trees_isolated {w : Workspace} (reachable : w.Reachable) {i : Nat} {a : Arena} (ha : w.arena? i = some a) :
    (∀ x ∈ a, ∃! r, a.HasRoot x r) ∧
    (∀ c : Command, c.isChecked → ∀ x r, a.HasRoot x r → (∀ h ∈ c.handles, ¬a.HasRoot h r) →
      (c.after a).get x = a.get x) ∧
    ∀ n map w', w.edit? i (Edit.cloneSubtree n none) = some (.ok map, w') →
      ∃ b r, w'.arena? i = some b ∧ a.HasRoot n r ∧ KeepsTree r a b ∧
        (∀ y, b.HasRoot y map.root ↔ y ∈ b ∧ y ∉ a) ∧
        ∀ t, t = r ∨ t = map.root → ∀ actions : List Action,
          (∀ x ∈ actions, x.isChecked ∧ x.Avoids i (b.HasRoot · t)) →
          ∃ b', (w'.performAll actions).arena? i = some b' ∧ KeepsTree t b b' := by
  have hwf := reachable.wellFormed
  have hw := hwf.arena ha
  refine ⟨fun x hx => ?_, fun c hc x r hx houtside => ?_, fun n map w' hclone => ?_⟩
  · obtain ⟨r, hr⟩ := hw.rooted.exists_hasRoot hx
    exact ⟨r, hr, fun r' hr' => hr'.unique hr⟩
  · exact (Command.spares hw hc (hw.rooted.separate r) houtside).get_eq hx
  · obtain ⟨b, hrun, rfl⟩ := (edit?_eq_ok_iff ha).mp hclone
    rcases Edit.cloneSubtree_none_cases hw n with ⟨e, -, herror⟩ | ⟨order, b', horder, hcopy, hok⟩
    · rw [herror] at hrun
      cases hrun
    · rw [hok] at hrun
      cases hrun
      have hl := listing_of_preOrder horder
      have hwb := hcopy.wellFormed hw hl hw
      obtain ⟨-, hib, -⟩ := put_of_ids_eq ha hcopy.ids_eq
      have hn := hl.mem (hl.subset List.mem_cons_self)
      obtain ⟨r, hr⟩ := hw.rooted.exists_hasRoot hn
      have hkeeps := (hcopy.spares (hw.rooted.separate r) (hl.nodup hw)).keepsTree hw hwb hr.root
      have hcopies := hcopy.hasRoot_iff hw hl
      refine ⟨b, r, hib, hr, hkeeps, hcopies, fun t ht actions hactions => ?_⟩
      have hroot : b.HasRoot t t := by
        rcases ht with rfl | rfl
        · exact (hkeeps.hasRoot_iff t).mpr hr.root
        · exact (hcopies _).mpr ⟨hcopy.root_mem hl, Nat.lt_irrefl a.size⟩
      exact (hwf.put hwb i).keepsTree_performAll hib hroot hactions

/-- The block of the run is cloned, and then the clone is emptied.  The block still has its statement. -/
theorem trees_isolated_blockRun :
    ∃ a map w' b, (({} : Workspace).performAll blockRun).arena? 0 = some a ∧
      (({} : Workspace).performAll blockRun).edit? 0 (Edit.cloneSubtree ⟨1⟩ none) = some (.ok map, w') ∧
      (w'.performAll [.command 0 (.setChildList map.root .statements [])]).arena? 0 = some b ∧
      b.get ⟨0⟩ = a.get ⟨0⟩ ∧ b.get ⟨1⟩ = a.get ⟨1⟩ := by
  have hreach : (({} : Workspace).performAll blockRun).Reachable := ⟨blockRun, by decide, rfl⟩
  obtain ⟨a, ha, hlisting, hstatement, hblock⟩ : ∃ a, (({} : Workspace).performAll blockRun).arena? 0 = some a ∧
      a.Listing [⟨1⟩] [⟨1⟩, ⟨0⟩] ∧ a.HasRoot ⟨0⟩ ⟨1⟩ ∧ a.HasRoot ⟨1⟩ ⟨1⟩ :=
    ⟨_, rfl, .cons rfl (.cons rfl .nil .nil) .nil, ⟨_, .step rfl (.root (by decide) rfl), rfl⟩,
      ⟨_, .root (by decide) rfl, rfl⟩⟩
  have horder := (hreach.wellFormed.arena ha).preOrder_eq_ok_iff.mpr hlisting
  obtain ⟨map, w', hclone, -, ⟨_, _, -, hcopy⟩, -⟩ := (clone_isomorphic hreach ha horder).1
  obtain ⟨b, r, -, hr, hkeeps, -, hrun⟩ := (trees_isolated hreach ha).2.2 ⟨1⟩ map w' hclone
  obtain rfl : r = ⟨1⟩ := hr.unique hblock
  have havoids : ∀ x ∈ [Action.command 0 (.setChildList map.root .statements [])],
      x.isChecked ∧ x.Avoids 0 (b.HasRoot · ⟨1⟩) := by
    intro x hx
    obtain rfl := List.mem_singleton.mp hx
    refine ⟨rfl, fun _ h hh hmem => ?_⟩
    obtain rfl := List.mem_singleton.mp hh
    -- the root of the clone is new, so it is in no tree of before
    have hold : map.root ∈ a := ((hkeeps.hasRoot_iff _).mp hmem).mem
    rw [hcopy.map_root] at hold
    exact Nat.lt_irrefl a.size hold
  obtain ⟨b', hb', hkept⟩ := hrun ⟨1⟩ (.inl rfl) _ havoids
  refine ⟨a, map, w', b', ha, hclone, hb', ?_, ?_⟩
  · rw [hkept.get_eq _ ((hkeeps.hasRoot_iff _).mpr hstatement), hkeeps.get_eq _ hstatement]
  · rw [hkept.get_eq _ ((hkeeps.hasRoot_iff _).mpr hblock), hkeeps.get_eq _ hblock]

end Workspace

end ScriptTree
