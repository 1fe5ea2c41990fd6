import Mathlib.Logic.Relation
import ScriptTree.Proofs.Command.Identities
import ScriptTree.Proofs.Identity
import ScriptTree.Proofs.Workspace.Step

/-!
# Identities tell lineages apart

Arenas that share a generator share a space of identities.  A node is allocated with an identity of its own, or it is a
copy and has that of its source, and its identity never changes.  So two nodes have the same identity if they come from
the same allocated node by copying; and as long as the generator has not been through its range, no two allocated nodes
have the same identity, so that nodes with the same identity do come from the same one (`id_eq_iff_same_origin`).
-/

namespace ScriptTree

open Arena

namespace Workspace

/-! ### Places of nodes -/

/-- The number of an arena and a handle in it. -/
abbrev Place := Nat × Handle

/-- The identity of the node at a place. -/
def id? (w : Workspace) (p : Place) : Option UInt32 :=
  w.shelves[p.1]?.bind fun shelf => shelf.nodes[p.2.index]?.map (·.id)

section Places

variable {w : Workspace} {i k : Nat} {a : Arena} {x : Handle}

theorem id?_of_arena? (h : w.arena? i = some a) (x : Handle) : w.id? (i, x) = a.id? x := by
  obtain ⟨shelf, hs, hnodes, -⟩ := arena?_eq_some_iff.mp h
  rw [id?, hs, Option.bind_some, hnodes]
  rfl

theorem id?_put (h : w.arena? i = some a) (b : Arena) :
    (w.put i b).id? (k, x) = if k = i then b.id? x else w.id? (k, x) := by
  obtain ⟨shelf, hs, -⟩ := arena?_eq_some_iff.mp h
  have hlt := (Array.getElem?_eq_some_iff.mp hs).1
  simp only [id?, put, hs]
  split
  · rename_i hk
    subst hk
    rw [Array.getElem?_setIfInBounds_self_of_lt hlt]
    rfl
  · rename_i hk
    rw [Array.getElem?_setIfInBounds_ne (Ne.symm hk)]

theorem id?_addShelf (nodes : Array Node) (g : Nat) :
    (w.addShelf nodes g).id? (k, x) = if k = w.size then nodes[x.index]?.map (·.id) else w.id? (k, x) := by
  have hshelf : (w.addShelf nodes g).shelves[k]? = if k = w.size then some { nodes, generator := g } else w.shelves[k]? :=
    Array.getElem?_push
  simp only [id?, hshelf]
  split <;> rfl

theorem id?_addArena (policy : IdPolicy) :
    (w.addArena policy).id? (k, x) = if k = w.size then none else w.id? (k, x) :=
  id?_addShelf (w := { w with generators := w.generators.push (.ofPolicy policy) }) #[] w.generators.size

theorem ne_size_of_id? {p : Place} {id : UInt32} (hp : w.id? p = some id) : p.1 ≠ w.size := by
  obtain ⟨shelf, hs, -⟩ := Option.bind_eq_some_iff.mp hp
  exact ne_size_of_shelf hs

end Places

/-! ### Where nodes come from -/

/-- The action makes a node at a place, with an identity of its own. -/
inductive Allocates (w : Workspace) : Action → Place → Prop
  | node {i : Nat} {c : Command} {x : Handle} {w' : Workspace} (run : w.edit? i c.run = some (.ok (.node x), w')) :
    Allocates w (.command i c) (i, x)

/-- The action makes a copy of the node at the first place, which is at the second one: the clone map of a clone says so.
The nodes of an arena that is a copy as a whole have the same handles there. -/
inductive Copies (w : Workspace) : Action → Place → Place → Prop
  | inArena {i : Nat} {c : Command} {map : CloneMap} {x y : Handle} {w' : Workspace}
    (run : w.edit? i c.run = some (.ok (.clone map), w')) (entry : map.get? x = some y) :
    Copies w (.command i c) (i, x) (i, y)
  | into {i j : Nat} {n : Handle} {map : CloneMap} {x y : Handle} {w' : Workspace}
    (run : w.copyInto? i n j = some (.ok map, w')) (entry : map.get? x = some y) :
    Copies w (.copyInto i n j) (i, x) (j, y)
  | intoNew {i : Nat} {n : Handle} {map : CloneMap} {x y : Handle} {w' : Workspace}
    (run : w.cloneIntoNewArena? i n = some (.ok map, w')) (entry : map.get? x = some y) :
    Copies w (.cloneIntoNewArena i n) (i, x) (w.size, y)
  | duplicate {i : Nat} {a : Arena} {x : Handle} (arena : w.arena? i = some a) (mem : x ∈ a) :
    Copies w (.duplicate i) (i, x) (w.size, x)

/-- Some action of a run does it, in the workspace that it finds. -/
inductive Sometime (P : Workspace → Action → Prop) : Workspace → List Action → Prop
  | now {w : Workspace} {x : Action} {actions : List Action} (now : P w x) : Sometime P w (x :: actions)
  | later {w : Workspace} {x : Action} {actions : List Action} (later : Sometime P (w.perform x) actions) :
    Sometime P w (x :: actions)

/-- A run allocates the node at a place. -/
def AllocatesIn (w : Workspace) (actions : List Action) (p : Place) : Prop := Sometime (·.Allocates · p) w actions

/-- In a run the node at `p` is copied to `q`, through any number of clones, perhaps none. -/
def CopiesIn (w : Workspace) (actions : List Action) : Place → Place → Prop :=
  Relation.ReflTransGen fun p q => Sometime (·.Copies · p q) w actions

/-- The number of identities that a run draws. -/
def draws (w : Workspace) : List Action → Nat
  | [] => 0
  | x :: actions => w.drawsIn x + (w.perform x).draws actions

def Action.sharesGenerator : Action → Bool
  | .addArena _ => false
  | _ => true

/-! ### Arenas with one generator -/

/-- All arenas draw from one generator, which has handed out `k` identities. -/
structure Shares (policy : IdPolicy) (k : Nat) (w : Workspace) : Prop where
  drawn : ∃ g, w.generators = #[g] ∧ g.HasDrawn policy k
  generator_eq : ∀ (i : Nat) (shelf : Shelf), w.shelves[i]? = some shelf → shelf.generator = 0

theorem shares_ofPolicy (policy : IdPolicy) : (ofPolicy policy).Shares policy 0 := by
  refine ⟨⟨_, rfl, IdGenerator.hasDrawn_ofPolicy policy⟩, fun i shelf hs => ?_⟩
  cases i with
  | zero =>
    obtain rfl := Option.some.inj hs
    rfl
  | succ i => cases hs

namespace Shares

variable {policy : IdPolicy} {k : Nat} {w : Workspace} (h : w.Shares policy k)

include h

theorem exists_arena? {i : Nat} {x : Handle} {id : UInt32} (hid : w.id? (i, x) = some id) :
    ∃ a, w.arena? i = some a ∧ a.id? x = some id := by
  obtain ⟨shelf, hs, hnode⟩ := Option.bind_eq_some_iff.mp hid
  obtain ⟨g, hg, -⟩ := h.drawn
  have hgen : w.generators[shelf.generator]? = some g := by rw [h.generator_eq i shelf hs, hg]; rfl
  exact ⟨{ nodes := shelf.nodes, ids := g }, arena?_eq_some_iff.mpr ⟨shelf, hs, rfl, hgen⟩, hnode⟩

theorem hasDrawn {i : Nat} {a : Arena} (hi : w.arena? i = some a) : a.ids.HasDrawn policy k := by
  obtain ⟨shelf, hs, -, hids⟩ := arena?_eq_some_iff.mp hi
  obtain ⟨g, hg, hdrawn⟩ := h.drawn
  rw [h.generator_eq i shelf hs, hg] at hids
  obtain rfl : g = a.ids := Option.some.inj hids
  exact hdrawn

theorem put {i : Nat} {a b : Arena} (hi : w.arena? i = some a) {d : Nat} (hb : b.ids.HasDrawn policy d) :
    (w.put i b).Shares policy d := by
  obtain ⟨shelf, hs, -⟩ := arena?_eq_some_iff.mp hi
  obtain ⟨g, hg, -⟩ := h.drawn
  have hzero := h.generator_eq i shelf hs
  refine ⟨⟨b.ids, ?_, hb⟩, fun j other hj => ?_⟩
  · simp only [Workspace.put, hs, hzero, hg]
    rfl
  · simp only [Workspace.put, hs, Array.getElem?_setIfInBounds] at hj
    split at hj
    · split at hj
      · obtain rfl := Option.some.inj hj
        exact hzero
      · cases hj
    · exact h.generator_eq j other hj

theorem addShelf (nodes : Array Node) : (w.addShelf nodes 0).Shares policy k := by
  refine ⟨h.drawn, fun j shelf hj => ?_⟩
  simp only [Workspace.addShelf, Array.getElem?_push] at hj
  split at hj
  · obtain rfl := Option.some.inj hj
    rfl
  · exact h.generator_eq j shelf hj

theorem step {x : Action} {w' : Workspace} (hstep : w.Step x w') (hw : w.WellFormed) (hx : x.sharesGenerator) :
    w'.Shares policy (k + w.drawsIn x) := by
  cases hstep with
  | idle drawsIn_eq => rwa [drawsIn_eq]
  | @command i c a b r arena effect =>
    refine h.put arena ?_
    rw [(effect.identities (hw.arena arena)).ids_eq, drawsIn, arena, Option.any_some]
    split
    · exact (h.hasDrawn arena).draw
    · exact h.hasDrawn arena
  | @drawn i a arena =>
    rw [drawsIn, arena]
    exact h.put arena (h.hasDrawn arena).draw
  | added => cases hx
  | @shared i shelf shelf_eq =>
    rw [h.generator_eq i shelf shelf_eq]
    exact h.addShelf #[]
  | @duplicated i shelf shelf_eq =>
    rw [h.generator_eq i shelf shelf_eq]
    exact h.addShelf shelf.nodes
  | @copied i j n source dest b order from_eq into_eq listed copy =>
    refine h.put into_eq ?_
    rw [copy.ids_eq]
    exact h.hasDrawn into_eq
  | @cloned i n source b order g from_eq generator_eq listed copy =>
    obtain ⟨generator, hgenerators, -⟩ := h.drawn
    obtain rfl : g = 0 := by
      have hlt := (Array.getElem?_eq_some_iff.mp generator_eq).1
      simpa [hgenerators] using hlt
    refine (h.addShelf #[]).put (arena?_addShelf_size generator_eq) ?_
    have hids : b.ids = source.ids := copy.ids_eq
    rw [hids]
    exact h.hasDrawn from_eq

end Shares

/-! ### One action -/

section Actions

variable {w w' : Workspace} {x : Action} {p q : Place} {id : UInt32} {policy : IdPolicy} {k : Nat}

theorem id?_put_of_kept {i : Nat} {a b : Arena} (hi : w.arena? i = some a) (hkept : ∀ y ∈ a, b.id? y = a.id? y)
    (hp : w.id? p = some id) : (w.put i b).id? p = some id := by
  obtain ⟨j, y⟩ := p
  rw [id?_put hi]
  split
  · rename_i hj
    rw [hj, id?_of_arena? hi] at hp
    rw [hkept y (mem_iff_id?.mpr ⟨id, hp⟩), hp]
  · exact hp

theorem id?_addShelf_of_old (nodes : Array Node) (g : Nat) (hp : w.id? p = some id) :
    (w.addShelf nodes g).id? p = some id := by
  obtain ⟨j, y⟩ := p
  rw [id?_addShelf, if_neg (ne_size_of_id? hp), hp]

/-- A node of the workspace is in the arena that was put back, or it was there before. -/
theorem id?_put_cases {i j : Nat} {y : Handle} {a b : Arena} (hi : w.arena? i = some a)
    (hp : (w.put i b).id? (j, y) = some id) : j = i ∧ b.id? y = some id ∨ w.id? (j, y) = some id := by
  rw [id?_put hi] at hp
  split at hp
  · rename_i hj
    exact .inl ⟨hj, hp⟩
  · exact .inr hp

theorem id?_addShelf_cases {j : Nat} {y : Handle} {nodes : Array Node} {g : Nat}
    (hp : (w.addShelf nodes g).id? (j, y) = some id) :
    j = w.size ∧ nodes[y.index]?.map (·.id) = some id ∨ w.id? (j, y) = some id := by
  rw [id?_addShelf] at hp
  split at hp
  · rename_i hj
    exact .inl ⟨hj, hp⟩
  · exact .inr hp

/-- No action changes the identity of a node. -/
theorem Step.id?_eq (h : w.Step x w') (hw : w.WellFormed) (hp : w.id? p = some id) : w'.id? p = some id := by
  cases h with
  | idle => exact hp
  | command arena effect => exact id?_put_of_kept arena (effect.identities (hw.arena arena)).kept hp
  | drawn arena => exact id?_put_of_kept arena (fun _ _ => rfl) hp
  | added =>
    obtain ⟨j, y⟩ := p
    rw [id?_addArena, if_neg (ne_size_of_id? hp), hp]
  | shared | duplicated => exact id?_addShelf_of_old _ _ hp
  | copied from_eq into_eq listed copy => exact id?_put_of_kept into_eq (fun _ => copy.id?_old) hp
  | cloned from_eq generator_eq listed copy =>
    exact id?_put_of_kept (arena?_addShelf_size generator_eq) (fun _ => copy.id?_old) (id?_addShelf_of_old _ _ hp)

/-- A node was there before, or it is allocated, or it is a copy. -/
theorem Step.old_or_new (h : w.Step x w') (hw : w.WellFormed) (hshares : w.Shares policy k) (hp : w'.id? p = some id) :
    w.id? p = some id ∨ w.Allocates x p ∨ ∃ q, w.Copies x q p := by
  obtain ⟨j, y⟩ := p
  cases h with
  | idle => exact .inl hp
  | @command i c a b r arena effect run =>
    rcases id?_put_cases arena hp with ⟨rfl, hy⟩ | hold
    · have hids := effect.identities (hw.arena arena)
      have hrun := edit?_of_result arena run
      rcases hids.old_or_new y (mem_iff_id?.mpr ⟨id, hy⟩) with hold | rfl | ⟨map, z, rfl, hentry⟩
      · left
        rw [id?_of_arena? arena, ← hids.kept y hold, hy]
      · exact .inr (.inl (.node hrun))
      · exact .inr (.inr ⟨_, .inArena hrun hentry⟩)
    · exact .inl hold
  | @drawn i a arena =>
    rcases id?_put_cases arena hp with ⟨rfl, hy⟩ | hold
    · left
      rw [id?_of_arena? arena]
      exact hy
    · exact .inl hold
  | added =>
    left
    rw [id?_addArena] at hp
    split at hp
    · cases hp
    · exact hp
  | shared =>
    rcases id?_addShelf_cases hp with ⟨-, hy⟩ | hold
    · cases hy
    · exact .inl hold
  | @duplicated i shelf shelf_eq =>
    rcases id?_addShelf_cases hp with ⟨rfl, hy⟩ | hold
    · have hsource : w.id? (i, y) = some id := by rwa [id?, shelf_eq]
      obtain ⟨a, hi, hid⟩ := hshares.exists_arena? hsource
      exact .inr (.inr ⟨_, .duplicate hi (mem_iff_id?.mpr ⟨id, hid⟩)⟩)
    · exact .inl hold
  | @copied i m n source dest b order from_eq into_eq listed copy run =>
    rcases id?_put_cases into_eq hp with ⟨rfl, hy⟩ | hold
    · have hnd := (hw.arena from_eq).nodup_of_preOrder listed
      rcases copy.old_or_copy (mem_iff_id?.mpr ⟨id, hy⟩) hnd with hold | ⟨z, hz, rfl⟩
      · left
        rw [id?_of_arena? into_eq, ← copy.id?_old hold, hy]
      · exact .inr (.inr ⟨_, .into run (get?_ofOrder hz)⟩)
    · exact .inl hold
  | @cloned i n source b order g from_eq generator_eq listed copy run =>
    rcases id?_put_cases (arena?_addShelf_size generator_eq) hp with ⟨rfl, hy⟩ | hp
    · have hnd := (hw.arena from_eq).nodup_of_preOrder listed
      rcases copy.old_or_copy (mem_iff_id?.mpr ⟨id, hy⟩) hnd with hold | ⟨z, hz, rfl⟩
      · exact absurd hold (Nat.not_lt_zero _)
      · exact .inr (.inr ⟨_, .intoNew run (get?_ofOrder hz)⟩)
    · rcases id?_addShelf_cases hp with ⟨-, hy⟩ | hold
      · cases hy
      · exact .inl hold

/-- A copy has the identity of its source. -/
theorem Copies.id?_eq (h : w.Copies x p q) (hw : w.WellFormed) (hx : x.isChecked) :
    ∃ id, w.id? p = some id ∧ (w.perform x).id? q = some id := by
  cases h with
  | @inArena i c map y z w' run entry =>
    obtain ⟨a, b, hi, heffect, rfl⟩ := hw.exists_effect hx run
    obtain ⟨hy, hid⟩ := (heffect.identities (hw.arena hi)).copy map rfl y z entry
    obtain ⟨id, hy⟩ := mem_iff_id?.mp hy
    refine ⟨id, by rw [id?_of_arena? hi, hy], ?_⟩
    rw [perform_command run, id?_put hi, if_pos rfl, hid, hy]
  | @into i j n map y z w' run entry =>
    obtain ⟨source, dest, order, b, hi, hj, listed, copy, -, rfl, rfl⟩ := hw.exists_of_copyInto? run
    obtain ⟨id, hsource, hcopy⟩ := copy.id?_of_get? (listing_of_preOrder listed) entry
    refine ⟨id, by rw [id?_of_arena? hi, hsource], ?_⟩
    rw [perform_copyInto run, id?_put hj, if_pos rfl, hcopy]
  | @intoNew i n map y z w' run entry =>
    obtain ⟨source, order, b, g, hi, listed, copy, hg, rfl, rfl⟩ := hw.exists_of_cloneIntoNewArena? run
    obtain ⟨id, hsource, hcopy⟩ := copy.id?_of_get? (listing_of_preOrder listed) entry
    refine ⟨id, by rw [id?_of_arena? hi, hsource], ?_⟩
    rw [perform_cloneIntoNewArena run, id?_put (arena?_addShelf_size hg), if_pos rfl, hcopy]
  | @duplicate i a y arena mem =>
    obtain ⟨shelf, hs, hnodes, -⟩ := arena?_eq_some_iff.mp arena
    obtain ⟨id, hid⟩ := mem_iff_id?.mp mem
    refine ⟨id, by rw [id?_of_arena? arena, hid], ?_⟩
    rw [perform_duplicate hs, id?_addShelf, if_pos rfl, hnodes]
    exact hid

/-- An allocated node has the next identity of the range. -/
theorem Allocates.id?_eq (h : w.Allocates x p) (hw : w.WellFormed) (hx : x.isChecked) (hshares : w.Shares policy k) :
    w.drawsIn x = 1 ∧ ∃ id, (w.perform x).id? p = some id ∧ id.toNat = policy.start.toNat + k % policy.count := by
  cases h with
  | @node i c y w' run =>
    obtain ⟨a, b, hi, heffect, rfl⟩ := hw.exists_effect hx run
    obtain ⟨hdraws, hid⟩ := (heffect.identities (hw.arena hi)).node y rfl
    refine ⟨?_, a.ids.peek, ?_, (hshares.hasDrawn hi).peek_eq⟩
    · rw [drawsIn, hi, Option.any_some, if_pos hdraws]
    · rw [perform_command run, id?_put hi, if_pos rfl, hid]

/-- An action allocates one node at most. -/
theorem Allocates.unique (h : w.Allocates x p) (h' : w.Allocates x q) : p = q := by
  cases h with
  | node run =>
    cases h' with
    | node run' =>
      rw [run] at run'
      cases run'
      rfl

end Actions

/-! ### Runs -/

section Runs

variable {w : Workspace} {actions : List Action} {p q : Place} {id : UInt32} {policy : IdPolicy} {k : Nat}

theorem WellFormed.id?_performAll (hw : w.WellFormed) (checked : ∀ x ∈ actions, x.isChecked) (hp : w.id? p = some id) :
    (w.performAll actions).id? p = some id :=
  hw.keeps_performAll (P := fun w => w.id? p = some id) checked (fun _ _ _ _ hw step hp => step.id?_eq hw hp) hp

theorem Shares.performAll (h : w.Shares policy k) (hw : w.WellFormed)
    (hactions : ∀ x ∈ actions, x.isChecked ∧ x.sharesGenerator) :
    (w.performAll actions).Shares policy (k + w.draws actions) := by
  induction actions generalizing w k with
  | nil => exact h
  | cons x actions ih =>
    obtain ⟨hchecked, hshares⟩ := hactions x List.mem_cons_self
    have hrest := ih (h.step (hw.step hchecked) hw hshares) (hw.perform hchecked) fun y hy =>
      hactions y (List.mem_cons_of_mem _ hy)
    rwa [draws, ← Nat.add_assoc]

/-- At the end of a run the source of a copy and the copy have the same identity. -/
theorem WellFormed.exists_id?_of_copies (hw : w.WellFormed) (checked : ∀ x ∈ actions, x.isChecked)
    (h : Sometime (·.Copies · p q) w actions) :
    ∃ id, (w.performAll actions).id? p = some id ∧ (w.performAll actions).id? q = some id := by
  induction h with
  | @now w x actions h =>
    have hx := checked x List.mem_cons_self
    have hrest : ∀ y ∈ actions, y.isChecked := fun y hy => checked y (List.mem_cons_of_mem _ hy)
    obtain ⟨id, hsource, hcopy⟩ := h.id?_eq hw hx
    have hsource' := (hw.step hx).id?_eq hw hsource
    exact ⟨id, (hw.perform hx).id?_performAll hrest hsource', (hw.perform hx).id?_performAll hrest hcopy⟩
  | later _ ih =>
    exact ih (hw.perform (checked _ List.mem_cons_self)) fun y hy => checked y (List.mem_cons_of_mem _ hy)

theorem WellFormed.id?_eq_of_copiesIn (hw : w.WellFormed) (checked : ∀ x ∈ actions, x.isChecked)
    (h : w.CopiesIn actions p q) : (w.performAll actions).id? q = (w.performAll actions).id? p := by
  induction h with
  | refl => rfl
  | tail _ hstep ih =>
    obtain ⟨id, hsource, hcopy⟩ := hw.exists_id?_of_copies checked hstep
    rw [hcopy, ← hsource, ih]

theorem CopiesIn.later {x : Action} (h : (w.perform x).CopiesIn actions p q) : w.CopiesIn (x :: actions) p q :=
  Relation.ReflTransGen.mono (fun _ _ hstep => Sometime.later hstep) p q h

/-- Every node comes from one that was there before the run, or from one that the run allocates. -/
theorem WellFormed.exists_origin (hw : w.WellFormed) (hshares : w.Shares policy k)
    (hactions : ∀ x ∈ actions, x.isChecked ∧ x.sharesGenerator) (hp : (w.performAll actions).id? p = some id) :
    ∃ o, ((∃ id, w.id? o = some id) ∨ w.AllocatesIn actions o) ∧ w.CopiesIn actions o p := by
  induction actions generalizing w k with
  | nil => exact ⟨p, .inl ⟨id, hp⟩, .refl⟩
  | cons x actions ih =>
    obtain ⟨hchecked, hshared⟩ := hactions x List.mem_cons_self
    have hstep := hw.step hchecked
    obtain ⟨o, ho, hcopies⟩ := ih (hw.perform hchecked) (hshares.step hstep hw hshared)
      (fun y hy => hactions y (List.mem_cons_of_mem _ hy)) hp
    rcases ho with ⟨id, ho⟩ | ho
    · -- the origin in the rest of the run is old, or new in the first action
      rcases hstep.old_or_new hw hshares ho with hold | hnew | ⟨source, hcopy⟩
      · exact ⟨o, .inl ⟨id, hold⟩, hcopies.later⟩
      · exact ⟨o, .inr (.now hnew), hcopies.later⟩
      · obtain ⟨id, hsource, -⟩ := hcopy.id?_eq hw hchecked
        exact ⟨source, .inl ⟨id, hsource⟩, .head (.now hcopy) hcopies.later⟩
    · exact ⟨o, .inr (.later ho), hcopies.later⟩

/-- The identity of an allocated node says how many had been drawn before, if the range is not exhausted. -/
theorem WellFormed.exists_id?_of_allocatesIn (hw : w.WellFormed) (hshares : w.Shares policy k)
    (hactions : ∀ x ∈ actions, x.isChecked ∧ x.sharesGenerator) (enough : k + w.draws actions ≤ policy.count)
    (h : w.AllocatesIn actions p) :
    ∃ id j, (w.performAll actions).id? p = some id ∧ k ≤ j ∧ id.toNat = policy.start.toNat + j := by
  induction actions generalizing w k with
  | nil => cases h
  | cons x actions ih =>
    obtain ⟨hchecked, hshared⟩ := hactions x List.mem_cons_self
    have hrest : ∀ y ∈ actions, y.isChecked ∧ y.sharesGenerator := fun y hy => hactions y (List.mem_cons_of_mem _ hy)
    rw [draws, ← Nat.add_assoc] at enough
    cases h with
    | now hnow =>
      obtain ⟨hdraws, id, hid, hplace⟩ := hnow.id?_eq hw hchecked hshares
      rw [Nat.mod_eq_of_lt (by omega)] at hplace
      exact ⟨id, k, (hw.perform hchecked).id?_performAll (fun y hy => (hrest y hy).1) hid, Nat.le_refl k, hplace⟩
    | later hlater =>
      obtain ⟨id, j, hid, hj, hplace⟩ := ih (hw.perform hchecked) (hshares.step (hw.step hchecked) hw hshared) hrest
        enough hlater
      exact ⟨id, j, hid, by omega, hplace⟩

/-- Allocated nodes have different identities, if the range is not exhausted. -/
theorem WellFormed.eq_of_allocatesIn (hw : w.WellFormed) (hshares : w.Shares policy k)
    (hactions : ∀ x ∈ actions, x.isChecked ∧ x.sharesGenerator) (enough : k + w.draws actions ≤ policy.count)
    (hp : w.AllocatesIn actions p) (hq : w.AllocatesIn actions q)
    (hid : (w.performAll actions).id? p = (w.performAll actions).id? q) : p = q := by
  induction actions generalizing w k with
  | nil => cases hp
  | cons x actions ih =>
    obtain ⟨hchecked, hshared⟩ := hactions x List.mem_cons_self
    have hrest : ∀ y ∈ actions, y.isChecked ∧ y.sharesGenerator := fun y hy => hactions y (List.mem_cons_of_mem _ hy)
    have hwx := hw.perform hchecked
    have hsharesx := hshares.step (hw.step hchecked) hw hshared
    rw [draws, ← Nat.add_assoc] at enough
    -- what is allocated now has an identity before all those of later
    have before : ∀ p q, w.Allocates x p → (w.perform x).AllocatesIn actions q →
        (w.performAll (x :: actions)).id? p ≠ (w.performAll (x :: actions)).id? q := by
      intro p q hnow hlater hsame
      obtain ⟨hdraws, id, hid, hplace⟩ := hnow.id?_eq hw hchecked hshares
      obtain ⟨id', j, hid', hj, hplace'⟩ := hwx.exists_id?_of_allocatesIn hsharesx hrest enough hlater
      have hend := hwx.id?_performAll (fun y hy => (hrest y hy).1) hid
      obtain rfl : id = id' := Option.some.inj (hend.symm.trans (hsame.trans hid'))
      rw [Nat.mod_eq_of_lt (by omega)] at hplace
      omega
    cases hp with
    | now hp =>
      cases hq with
      | now hq => exact hp.unique hq
      | later hq => exact absurd hid (before p q hp hq)
    | later hp =>
      cases hq with
      | now hq => exact absurd hid.symm (before q p hq hp)
      | later hq => exact ih hwx hsharesx hrest enough hp hq hid

end Runs

/-! ### Lineages -/

theorem id?_ofPolicy (policy : IdPolicy) (p : Place) : (ofPolicy policy).id? p = none := by
  obtain ⟨i, x⟩ := p
  have hempty : (ofPolicy policy).id? (i, x) = if i = 0 then none else ({} : Workspace).id? (i, x) := id?_addArena policy
  rw [hempty]
  split <;> rfl

/-- Identities tell lineages apart.  In a run on arenas that share one generator, in which no more identities are drawn than
its range has, by allocations, by failed ones and as such, two nodes have the same identity if and only if they are copies
of the same allocated node, or that node itself.  The identity of a node never changes. -/
theorem id_eq_iff_same_origin (policy : IdPolicy) (actions : List Action)
    (hactions : ∀ x ∈ actions, x.isChecked ∧ x.sharesGenerator)
    (enough : (ofPolicy policy).draws actions ≤ policy.count) :
    (∀ i j a b x y id id', ((ofPolicy policy).performAll actions).arena? i = some a →
      ((ofPolicy policy).performAll actions).arena? j = some b → a.id x = .ok id → b.id y = .ok id' →
      (id = id' ↔ ∃ o, (ofPolicy policy).AllocatesIn actions o ∧ (ofPolicy policy).CopiesIn actions o (i, x) ∧
        (ofPolicy policy).CopiesIn actions o (j, y))) ∧
    ∀ n i a x id, ((ofPolicy policy).performAll (actions.take n)).arena? i = some a → a.id x = .ok id →
      ∃ b, ((ofPolicy policy).performAll actions).arena? i = some b ∧ b.id x = .ok id := by
  have hw : (ofPolicy policy).WellFormed := wellFormed_empty.perform (x := .addArena policy) rfl
  have hshares := shares_ofPolicy policy
  have checked : ∀ x ∈ actions, x.isChecked := fun x hx => (hactions x hx).1
  refine ⟨fun i j a b x y id id' hi hj hx hy => ?_, fun n i a x id hi hx => ?_⟩
  · rw [← id?_eq_some_iff, ← id?_of_arena? hi] at hx
    rw [← id?_eq_some_iff, ← id?_of_arena? hj] at hy
    constructor
    · rintro rfl
      obtain ⟨o, ho, hox⟩ := hw.exists_origin hshares hactions hx
      obtain ⟨o', ho', hoy⟩ := hw.exists_origin hshares hactions hy
      simp only [id?_ofPolicy, reduceCtorEq, exists_false, false_or] at ho ho'
      have hid := hw.id?_eq_of_copiesIn checked hox
      have hid' := hw.id?_eq_of_copiesIn checked hoy
      rw [hx] at hid
      rw [hy] at hid'
      have hsame := hw.eq_of_allocatesIn hshares hactions (by rwa [Nat.zero_add]) ho ho' (hid.symm.trans hid')
      exact ⟨o, ho, hox, hsame ▸ hoy⟩
    · rintro ⟨o, -, hox, hoy⟩
      have hsame := (hw.id?_eq_of_copiesIn checked hox).trans (hw.id?_eq_of_copiesIn checked hoy).symm
      rw [hx, hy] at hsame
      exact Option.some.inj hsame
  · rw [← id?_eq_some_iff, ← id?_of_arena? hi] at hx
    have hprefix : ∀ x ∈ actions.take n, x.isChecked := fun x hx => checked x (List.mem_of_mem_take hx)
    have hsuffix : ∀ x ∈ actions.drop n, x.isChecked := fun x hx => checked x (List.mem_of_mem_drop hx)
    have hend := (hw.performAll hprefix).id?_performAll hsuffix hx
    have hrun : ((ofPolicy policy).performAll (actions.take n)).performAll (actions.drop n) =
        (ofPolicy policy).performAll actions := by
      rw [Workspace.performAll, Workspace.performAll, Workspace.performAll, ← List.foldl_append, List.take_append_drop]
    rw [hrun] at hend
    obtain ⟨b, hb, hid⟩ := (hshares.performAll hw hactions).exists_arena? hend
    exact ⟨b, hb, id?_eq_some_iff.mp hid⟩

/-- A block with a statement is allocated after another block was refused, so that the range is used up.  The block is
copied into a new arena, and the statement of the copy back into the first one. -/
def copiedBackRun : List Action :=
  [.command 0 (.alloc .empty {}), .command 0 (.alloc (.block [⟨7⟩]) {}), .command 0 (.alloc (.block [⟨0⟩]) {}),
    .cloneIntoNewArena 0 ⟨1⟩, .copyInto 1 ⟨1⟩ 0]

theorem id_eq_iff_same_origin_copiedBackRun :
    (∃ o, (ofPolicy { start := 5, max := 7 }).AllocatesIn copiedBackRun o ∧
      (ofPolicy { start := 5, max := 7 }).CopiesIn copiedBackRun o (0, ⟨0⟩) ∧
      (ofPolicy { start := 5, max := 7 }).CopiesIn copiedBackRun o (0, ⟨2⟩)) ∧
    ¬∃ o, (ofPolicy { start := 5, max := 7 }).AllocatesIn copiedBackRun o ∧
      (ofPolicy { start := 5, max := 7 }).CopiesIn copiedBackRun o (0, ⟨1⟩) ∧
      (ofPolicy { start := 5, max := 7 }).CopiesIn copiedBackRun o (0, ⟨2⟩) := by
  have hids : (((ofPolicy { start := 5, max := 7 }).performAll copiedBackRun).arena? 0).map
      (fun a => (a.id? ⟨0⟩, a.id? ⟨1⟩, a.id? ⟨2⟩)) = some (some 5, some 7, some 5) := by decide +kernel
  obtain ⟨a, ha, hids⟩ := Option.map_eq_some_iff.mp hids
  simp only [Prod.mk.injEq, id?_eq_some_iff] at hids
  obtain ⟨hstatement, hblock, hcopy⟩ := hids
  have hiff := (id_eq_iff_same_origin { start := 5, max := 7 } copiedBackRun (by decide) (by decide +kernel)).1
  exact ⟨(hiff 0 0 a a _ _ _ _ ha ha hstatement hcopy).mp rfl,
    fun h => absurd ((hiff 0 0 a a _ _ _ _ ha ha hblock hcopy).mpr h) (by decide)⟩

end Workspace

end ScriptTree
