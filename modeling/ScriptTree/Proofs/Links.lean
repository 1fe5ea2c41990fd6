import Mathlib.Data.List.Nodup
import Mathlib.Data.List.Perm.Subperm
import ScriptTree.Arena

/-!
# Parent links

What can be said of an arena from its parent links alone.  An ascent lists the nodes from a node up to its root
(`Ascent`); it meets no node twice, so it is no longer than the arena (`Ascent.length_le`).  In a rooted arena, where
every node has an ascent, climbing therefore always ends: positions in the source are sums along the ascent
(`absolutePosition_eq`), and the ancestors of a node are the nodes on its ascent (`isAncestor_eq`).  The last node of an
ascent is the root of the tree that the node is in (`HasRoot`), and every node has one root.

The last part says how ascents change when a link is cut or made: cutting keeps an arena rooted, and so does hanging a
node below one whose ascent does not pass it.
-/

namespace ScriptTree

theorem bind_eq_ok_iff {α β : Type} {x : Except TreeError α} {f : α → Except TreeError β} {r : β} :
    (x >>= f) = .ok r ↔ ∃ y, x = .ok y ∧ f y = .ok r := by
  cases x <;> simp [bind, Except.bind]

namespace Arena

/-! ### Views -/

def node? (a : Arena) (h : Handle) : Option Node := a.nodes[h.index]?

def parent? (a : Arena) (h : Handle) : Option Handle := (a.node? h).bind (·.parent)

/-- The children of a node in the order of its slots; a handle without a node has none. -/
def handlesAt (a : Arena) (h : Handle) : List Handle := ((a.node? h).map (·.payload.handles)).getD []

/-- The position of a node as it is stored. -/
def offset (a : Arena) (h : Handle) : Int := ((a.node? h).map (·.span.position)).getD 0

instance : Membership Handle Arena := ⟨fun a h => h.index < a.size⟩

instance (a : Arena) (h : Handle) : Decidable (h ∈ a) := inferInstanceAs (Decidable (h.index < a.size))

theorem mem_iff {a : Arena} {h : Handle} : h ∈ a ↔ h.index < a.size := Iff.rfl

theorem contains_iff_mem {a : Arena} {h : Handle} : a.contains h = true ↔ h ∈ a := by
  simp [contains, mem_iff]

theorem mem_iff_node? {a : Arena} {h : Handle} : h ∈ a ↔ ∃ node, a.node? h = some node := by
  constructor
  · intro hh
    exact ⟨_, Array.getElem?_eq_getElem hh⟩
  · rintro ⟨node, hn⟩
    exact (Array.getElem?_eq_some_iff.mp hn).1

theorem mem_of_node? {a : Arena} {h : Handle} {node : Node} (hn : a.node? h = some node) : h ∈ a :=
  mem_iff_node?.mpr ⟨node, hn⟩

theorem parent?_eq {a : Arena} {h : Handle} {node : Node} (hn : a.node? h = some node) : a.parent? h = node.parent := by
  rw [parent?, hn, Option.bind_some]

theorem handlesAt_eq {a : Arena} {h : Handle} {node : Node} (hn : a.node? h = some node) :
    a.handlesAt h = node.payload.handles := by
  rw [handlesAt, hn, Option.map_some, Option.getD_some]

theorem node?_eq_none {a : Arena} {h : Handle} (hh : h ∉ a) : a.node? h = none :=
  Array.getElem?_eq_none (Nat.le_of_not_lt hh)

theorem get_eq {a : Arena} {h : Handle} {node : Node} (hn : a.node? h = some node) : a.get h = .ok node :=
  get_eq_ok_iff.mpr hn

theorem get_eq_error {a : Arena} {h : Handle} (hh : h ∉ a) : a.get h = .error (.unknownNode h) :=
  get_eq_error_iff.mpr ⟨Nat.le_of_not_lt hh, rfl⟩

theorem mem_of_parent? {a : Arena} {h p : Handle} (hp : a.parent? h = some p) : h ∈ a := by
  obtain ⟨node, hn, -⟩ := Option.bind_eq_some_iff.mp hp
  exact mem_of_node? hn

theorem mem_of_mem_handlesAt {a : Arena} {p c : Handle} (hc : c ∈ a.handlesAt p) : p ∈ a := by
  by_contra hp
  simp [handlesAt, node?_eq_none hp] at hc

@[simp] theorem mem_update {a : Arena} {h x : Handle} {f : Node → Node} : x ∈ a.update h f ↔ x ∈ a := by
  simp [mem_iff]

theorem node?_update (a : Arena) (h : Handle) (f : Node → Node) (x : Handle) :
    (a.update h f).node? x = if x = h then (a.node? x).map f else a.node? x := by
  simp only [node?, update, Array.getElem?_modify]
  by_cases hx : x = h
  · subst hx
    simp
  · have hi : h.index ≠ x.index := fun hi => hx (Handle.index_injective hi.symm)
    simp [hx, hi]

theorem node?_push (a : Arena) (node : Node) (x : Handle) :
    (a.push node).node? x = if x.index = a.size then some node else a.node? x := by
  simp only [node?, push, size, Array.getElem?_push]
  by_cases hx : x.index = a.nodes.size <;> simp only [hx, ↓reduceIte]

theorem mem_push {a : Arena} {node : Node} {x : Handle} : x ∈ a.push node ↔ x ∈ a ∨ x.index = a.size := by
  rw [mem_iff, mem_iff, size_push]
  omega

theorem parent?_update (a : Arena) (h : Handle) (f : Node → Node) (x : Handle) :
    (a.update h f).parent? x = if x = h then (a.node? x).bind fun node => (f node).parent else a.parent? x := by
  simp only [parent?, node?_update]
  split
  · rw [Option.bind_map]
    rfl
  · rfl

theorem handlesAt_update (a : Arena) (h : Handle) (f : Node → Node) (x : Handle) :
    (a.update h f).handlesAt x =
      if x = h then ((a.node? x).map fun node => (f node).payload.handles).getD [] else a.handlesAt x := by
  simp only [handlesAt, node?_update]
  split <;> simp [Option.map_map, Function.comp_def]

theorem offset_update (a : Arena) (h : Handle) (f : Node → Node) (x : Handle) :
    (a.update h f).offset x =
      if x = h then ((a.node? x).map fun node => (f node).span.position).getD 0 else a.offset x := by
  simp only [offset, node?_update]
  split <;> simp only [Option.map_map, Function.comp_def]

theorem ext_node? {a b : Arena} (hids : a.ids = b.ids) (h : ∀ x, a.node? x = b.node? x) : a = b := by
  obtain ⟨as, ids⟩ := a
  obtain ⟨bs, ids'⟩ := b
  obtain rfl : ids = ids' := hids
  obtain rfl : as = bs := Array.ext_getElem? fun i => h ⟨i⟩
  rfl

theorem update_congr {a : Arena} {h : Handle} {node : Node} {f g : Node → Node} (hn : a.node? h = some node)
    (hfg : f node = g node) : a.update h f = a.update h g := by
  refine ext_node? rfl fun x => ?_
  simp only [node?_update]
  split
  · rename_i hx
    rw [hx, hn, Option.map_some, Option.map_some, hfg]
  · rfl

theorem update_eq_self {a : Arena} {h : Handle} {node : Node} {f : Node → Node} (hn : a.node? h = some node)
    (hf : f node = node) : a.update h f = a := by
  refine ext_node? rfl fun x => ?_
  rw [node?_update]
  split
  · rename_i hx
    rw [hx, hn, Option.map_some, hf]
  · rfl

theorem update_update (a : Arena) (h : Handle) (f g : Node → Node) :
    (a.update h f).update h g = a.update h fun node => g (f node) := by
  refine ext_node? rfl fun x => ?_
  simp only [node?_update]
  split
  · rw [Option.map_map, Function.comp_def]
  · rfl

theorem update_comm (a : Arena) {h k : Handle} (hk : h ≠ k) (f g : Node → Node) :
    (a.update h f).update k g = (a.update k g).update h f := by
  refine ext_node? rfl fun x => ?_
  simp only [node?_update]
  by_cases hx : x = h
  · have hxk : x ≠ k := hx ▸ hk
    simp only [hx, hk, ↓reduceIte]
  · simp only [hx, ↓reduceIte]

/-! ### Ascents -/

/-- The nodes from a node up to its root. -/
inductive Ascent (a : Arena) : Handle → List Handle → Prop
  | root {h : Handle} (mem : h ∈ a) (top : a.parent? h = none) : Ascent a h [h]
  | step {h p : Handle} {path : List Handle} (link : a.parent? h = some p) (rest : Ascent a p path) :
    Ascent a h (h :: path)

/-- Every node has an ascent: parent links lead to nodes, and never round in a circle. -/
def Rooted (a : Arena) : Prop := ∀ h ∈ a, ∃ path, a.Ascent h path

namespace Ascent

variable {a : Arena} {h : Handle} {path : List Handle}

theorem unique {path' : List Handle} (hp : a.Ascent h path) (hp' : a.Ascent h path') : path = path' := by
  induction hp generalizing path' with
  | root mem top =>
    cases hp' with
    | root => rfl
    | step link => rw [top] at link; cases link
  | step link rest ih =>
    cases hp' with
    | root _ top => rw [link] at top; cases top
    | step link' rest' =>
      rw [link, Option.some.injEq] at link'
      subst link'
      rw [ih rest']

theorem self_mem (hp : a.Ascent h path) : h ∈ path := by
  cases hp <;> exact List.mem_cons_self

theorem mem (hp : a.Ascent h path) : h ∈ a := by
  cases hp with
  | root mem => exact mem
  | step link => exact mem_of_parent? link

/-- Every node of an ascent has the rest of it as its own ascent. -/
theorem suffix (hp : a.Ascent h path) {x : Handle} (hx : x ∈ path) : ∃ rest, a.Ascent x rest ∧ rest <:+ path := by
  induction hp with
  | root mem top =>
    obtain rfl := List.mem_singleton.mp hx
    exact ⟨_, .root mem top, List.suffix_refl _⟩
  | @step h p path link rest ih =>
    rcases List.mem_cons.mp hx with rfl | hx
    · exact ⟨_, .step link rest, List.suffix_refl _⟩
    · obtain ⟨l, hl, hs⟩ := ih hx
      exact ⟨l, hl, hs.trans (List.suffix_cons h path)⟩

/-- An ascent meets no node twice: from the second time on it would be as long as from the first. -/
theorem nodup (hp : a.Ascent h path) : path.Nodup := by
  induction hp with
  | root => exact List.nodup_singleton _
  | step link rest ih =>
    refine List.nodup_cons.mpr ⟨fun hmem => ?_, ih⟩
    obtain ⟨l, hl, hs⟩ := rest.suffix hmem
    have hlen := hs.length_le
    rw [hl.unique (.step link rest), List.length_cons] at hlen
    omega

theorem subset_handles (hp : a.Ascent h path) : path ⊆ a.handles := by
  induction hp with
  | root mem => exact List.cons_subset.mpr ⟨mem_handles.mpr mem, List.nil_subset _⟩
  | step link rest ih => exact List.cons_subset.mpr ⟨mem_handles.mpr (mem_of_parent? link), ih⟩

theorem length_le (hp : a.Ascent h path) : path.length ≤ a.size := by
  have hle := (List.subperm_of_subset hp.nodup hp.subset_handles).length_le
  simpa [handles] using hle

theorem not_mem_of_parent? {p : Handle} (hp : a.Ascent p path) (hh : a.parent? h = some p) : h ∉ path :=
  (List.nodup_cons.mp (Ascent.step hh hp).nodup).1

/-- Two nodes that are on the way up from each other are the same. -/
theorem antisymm {x : Handle} {path' : List Handle} (hp : a.Ascent h path) (hp' : a.Ascent x path') (hx : x ∈ path)
    (hh : h ∈ path') : h = x := by
  obtain ⟨l, hl, hs⟩ := hp.suffix hx
  obtain ⟨l', hl', hs'⟩ := hp'.suffix hh
  obtain rfl := hl.unique hp'
  obtain rfl := hl'.unique hp
  obtain rfl := hs.eq_of_length_le hs'.length_le
  cases hp <;> cases hp' <;> rfl

/-! ### Climbing -/

theorem positionWithin_eq (hp : a.Ascent h path) {fuel : Nat} (hf : path.length ≤ fuel) :
    a.positionWithin fuel h = .ok (path.foldr (fun x total => a.offset x + total) 0) := by
  induction hp generalizing fuel with
  | @root h mem top =>
    obtain ⟨fuel, rfl⟩ : ∃ k, fuel = k + 1 := ⟨fuel - 1, by simp at hf; omega⟩
    obtain ⟨node, hn⟩ := mem_iff_node?.mp mem
    have hpar : node.parent = none := (parent?_eq hn).symm.trans top
    simp [positionWithin, get_eq hn, hpar, offset, hn, bind, Except.bind, pure, Except.pure]
  | @step h p path link rest ih =>
    obtain ⟨fuel, rfl⟩ : ∃ k, fuel = k + 1 := ⟨fuel - 1, by simp at hf; omega⟩
    obtain ⟨node, hn, hpar⟩ := Option.bind_eq_some_iff.mp link
    have ih' := @ih fuel (by simp at hf; omega)
    simp [positionWithin, get_eq hn, hpar, ih', offset, hn, bind, Except.bind, pure, Except.pure]

theorem isAncestorWithin_eq (hp : a.Ascent h path) (x : Handle) {fuel : Nat} (hf : path.length ≤ fuel) :
    a.isAncestorWithin x fuel h = .ok (decide (x ∈ path)) := by
  induction hp generalizing fuel with
  | @root h mem top =>
    obtain ⟨fuel, rfl⟩ : ∃ k, fuel = k + 1 := ⟨fuel - 1, by simp at hf; omega⟩
    obtain ⟨node, hn⟩ := mem_iff_node?.mp mem
    have hpar : node.parent = none := (parent?_eq hn).symm.trans top
    by_cases hx : h = x
    · simp [isAncestorWithin, hx, pure, Except.pure]
    · simp [isAncestorWithin, hx, Ne.symm hx, get_eq hn, hpar, bind, Except.bind, pure, Except.pure]
  | @step h p path link rest ih =>
    obtain ⟨fuel, rfl⟩ : ∃ k, fuel = k + 1 := ⟨fuel - 1, by simp at hf; omega⟩
    obtain ⟨node, hn, hpar⟩ := Option.bind_eq_some_iff.mp link
    have ih' := @ih fuel (by simp at hf; omega)
    by_cases hx : h = x
    · simp [isAncestorWithin, hx, pure, Except.pure]
    · simp [isAncestorWithin, hx, Ne.symm hx, get_eq hn, hpar, ih', bind, Except.bind]

theorem absolutePosition_eq (hp : a.Ascent h path) :
    a.absolutePosition h = .ok (path.foldr (fun x total => a.offset x + total) 0) :=
  hp.positionWithin_eq (Nat.le_succ_of_le hp.length_le)

theorem isAncestor_eq (hp : a.Ascent h path) (x : Handle) : a.isAncestor x h = .ok (decide (x ∈ path)) :=
  hp.isAncestorWithin_eq x (Nat.le_succ_of_le hp.length_le)

/-- An ascent stays one where the links of its nodes stay. -/
theorem of_parent?_eq {b : Arena} (hp : a.Ascent h path) (hmem : ∀ x ∈ path, x ∈ b)
    (hpar : ∀ x ∈ path, b.parent? x = a.parent? x) : b.Ascent h path := by
  induction hp with
  | root mem top =>
    exact .root (hmem _ List.mem_cons_self) (by rw [hpar _ List.mem_cons_self, top])
  | step link rest ih =>
    refine .step (by rw [hpar _ List.mem_cons_self, link]) (ih ?_ ?_)
    · exact fun x hx => hmem x (List.mem_cons_of_mem _ hx)
    · exact fun x hx => hpar x (List.mem_cons_of_mem _ hx)

end Ascent

/-! ### Places in the source -/

/-- The place of a node in the source; `0` where climbing fails. -/
def place (a : Arena) (h : Handle) : Int := (a.absolutePosition h).toOption.getD 0

theorem Ascent.place_eq {a : Arena} {h : Handle} {path : List Handle} (hp : a.Ascent h path) :
    a.place h = (path.foldr (fun x total => a.offset x + total) 0) := by
  rw [place, hp.absolutePosition_eq]
  rfl

/-- A place depends on the links and the stored positions of the ascent only. -/
theorem Ascent.place_congr {a b : Arena} {h : Handle} {path : List Handle} (hp : a.Ascent h path)
    (hmem : ∀ x ∈ path, x ∈ b) (hpar : ∀ x ∈ path, b.parent? x = a.parent? x)
    (hoffset : ∀ x ∈ path, b.offset x = a.offset x) : b.place h = a.place h := by
  rw [(hp.of_parent?_eq hmem hpar).place_eq, hp.place_eq]
  exact List.foldr_ext _ _ 0 fun x hx total => by rw [hoffset x hx]

theorem place_of_root {a : Arena} {h : Handle} (hh : h ∈ a) (top : a.parent? h = none) : a.place h = a.offset h := by
  simp [(Ascent.root hh top).place_eq]

namespace Rooted

variable {a : Arena} (hr : a.Rooted)

include hr

theorem absolutePosition_eq {h : Handle} (hh : h ∈ a) : a.absolutePosition h = .ok (a.place h) := by
  obtain ⟨path, hp⟩ := hr h hh
  rw [hp.place_eq, hp.absolutePosition_eq]

theorem mem_of_parent?_eq {h p : Handle} (hp : a.parent? h = some p) : p ∈ a := by
  obtain ⟨path, hpath⟩ := hr h (mem_of_parent? hp)
  cases hpath with
  | root _ top => rw [hp] at top; cases top
  | step link rest =>
    rw [hp, Option.some.injEq] at link
    exact link ▸ rest.mem

theorem place_of_parent? {h p : Handle} (hp : a.parent? h = some p) : a.place h = a.offset h + a.place p := by
  obtain ⟨path, hpath⟩ := hr p (hr.mem_of_parent?_eq hp)
  simp [(Ascent.step hp hpath).place_eq, hpath.place_eq]

/-- A function that agrees with the stored positions at every root and along every link gives the places. -/
theorem place_eq_of_links (total : Handle → Int) (hroot : ∀ h ∈ a, a.parent? h = none → total h = a.offset h)
    (hlink : ∀ h p, a.parent? h = some p → total h = a.offset h + total p) {h : Handle} (hh : h ∈ a) :
    a.place h = total h := by
  obtain ⟨path, hp⟩ := hr h hh
  clear hh
  induction hp with
  | @root h mem top => rw [place_of_root mem top, hroot h mem top]
  | @step h p path link rest ih => rw [hr.place_of_parent? link, ih, hlink h p link]

theorem ne_of_parent? {h p : Handle} (hp : a.parent? h = some p) : h ≠ p := by
  rintro rfl
  obtain ⟨path, hpath⟩ := hr h (mem_of_parent? hp)
  exact hpath.not_mem_of_parent? hp hpath.self_mem

/-! ### Cutting and making links -/

/-- Cutting links leaves every node with an ascent. -/
theorem of_cut {b : Arena} (hmem : ∀ h, h ∈ b ↔ h ∈ a)
    (hpar : ∀ h, b.parent? h = a.parent? h ∨ b.parent? h = none) : b.Rooted := by
  intro h hh
  obtain ⟨path, hp⟩ := hr h ((hmem h).mp hh)
  clear hh
  induction hp with
  | @root h mem top =>
    refine ⟨[h], .root ((hmem h).mpr mem) ?_⟩
    rcases hpar h with hb | hb
    · rw [hb, top]
    · exact hb
  | @step h p path link rest ih =>
    rcases hpar h with hb | hb
    · obtain ⟨path', hp'⟩ := ih
      exact ⟨_, .step (hb.trans link) hp'⟩
    · exact ⟨[h], .root ((hmem h).mpr (mem_of_parent? link)) hb⟩

/-- Hanging `c` below `o` leaves every node with an ascent, unless `o` hangs below `c`. -/
theorem of_link {b : Arena} (hmem : ∀ h, h ∈ b ↔ h ∈ a) {o c : Handle} {path : List Handle} (ho : a.Ascent o path)
    (hc : c ∉ path) (hpar : ∀ h, h ≠ c → b.parent? h = a.parent? h) (hbc : b.parent? c = some o) : b.Rooted := by
  have ho' : b.Ascent o path :=
    ho.of_parent?_eq (fun x hx => (hmem x).mpr (mem_handles.mp (ho.subset_handles hx)))
      (fun x hx => hpar x (fun hxc => hc (hxc ▸ hx)))
  intro h hh
  obtain ⟨path, hp⟩ := hr h ((hmem h).mp hh)
  clear hh
  induction hp with
  | @root h mem top =>
    by_cases hhc : h = c
    · subst hhc
      exact ⟨_, .step hbc ho'⟩
    · exact ⟨[h], .root ((hmem h).mpr mem) ((hpar h hhc).trans top)⟩
  | @step h p path link rest ih =>
    by_cases hhc : h = c
    · subst hhc
      exact ⟨_, .step hbc ho'⟩
    · obtain ⟨path', hp'⟩ := ih
      exact ⟨_, .step ((hpar h hhc).trans link) hp'⟩

end Rooted

/-! ### Roots -/

/-- The parents of a node, followed to the end, lead to `r`. -/
def HasRoot (a : Arena) (h r : Handle) : Prop := ∃ path, a.Ascent h path ∧ path.getLast? = some r

theorem Ascent.getLast?_cons {a : Arena} {h : Handle} {path : List Handle} (hp : a.Ascent h path) (x : Handle) :
    (x :: path).getLast? = path.getLast? := by
  cases hp <;> rfl

section Roots

variable {a : Arena} {h p r : Handle}

theorem HasRoot.mem (hr : a.HasRoot h r) : h ∈ a := by
  obtain ⟨path, hp, -⟩ := hr
  exact hp.mem

theorem HasRoot.unique {r' : Handle} (hr : a.HasRoot h r) (hr' : a.HasRoot h r') : r = r' := by
  obtain ⟨path, hp, hlast⟩ := hr
  obtain ⟨path', hp', hlast'⟩ := hr'
  rw [hp'.unique hp, hlast] at hlast'
  exact Option.some.inj hlast'

theorem hasRoot_self (hh : h ∈ a) (top : a.parent? h = none) : a.HasRoot h h := ⟨[h], .root hh top, rfl⟩

/-- What is at the end of the links is a root. -/
theorem HasRoot.parent?_eq (hr : a.HasRoot h r) : a.parent? r = none := by
  obtain ⟨path, hp, hlast⟩ := hr
  induction hp with
  | root mem top => exact Option.some.inj hlast ▸ top
  | step link rest ih => exact ih (by rwa [rest.getLast?_cons] at hlast)

theorem HasRoot.root_mem (hr : a.HasRoot h r) : r ∈ a := by
  obtain ⟨path, hp, hlast⟩ := hr
  exact mem_handles.mp (hp.subset_handles (List.mem_of_getLast? hlast))

/-- A root is the root of its own tree. -/
theorem HasRoot.root (hr : a.HasRoot h r) : a.HasRoot r r := hasRoot_self hr.root_mem hr.parent?_eq

theorem Rooted.exists_hasRoot (hr : a.Rooted) (hh : h ∈ a) : ∃ r, a.HasRoot h r := by
  obtain ⟨path, hp⟩ := hr h hh
  exact ⟨_, path, hp, List.getLast?_eq_some_getLast (List.ne_nil_of_mem hp.self_mem)⟩

theorem Rooted.hasRoot_of_parent? (hr : a.Rooted) (hp : a.parent? h = some p) : a.HasRoot h r ↔ a.HasRoot p r := by
  obtain ⟨path, hpath⟩ := hr p (hr.mem_of_parent?_eq hp)
  constructor
  · rintro ⟨path', hpath', hlast⟩
    rw [hpath'.unique (.step hp hpath), hpath.getLast?_cons] at hlast
    exact ⟨path, hpath, hlast⟩
  · rintro ⟨path', hpath', hlast⟩
    exact ⟨h :: path', .step hp hpath', (hpath'.getLast?_cons h).trans hlast⟩

end Roots

end Arena

end ScriptTree
