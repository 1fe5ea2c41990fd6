import Mathlib.Order.Interval.Finset.Nat
import ScriptTree.Proofs.Identity

/-!
# Sequences of calls

A generator is asked for identities, and what the next one would be, in any order and any number of times.  The answer to
a call tells how many identities were drawn before it, up to whole rounds through the range (`map_toNat_calls`); looking
ahead leaves no trace (`calls_draws`).  So the identities that are drawn run through the range in order, over and over,
and as many consecutive ones as the range has are all of the range (`calls_ofPolicy`).
-/

namespace ScriptTree

/-- The range of a policy ends at `max`, unless that comes before `start`. -/
theorem IdPolicy.toNat_max_effective (p : IdPolicy) : p.effective.max.toNat = Max.max p.start.toNat p.max.toNat := by
  show (if p.max < p.start then p.start else p.max).toNat = _
  split
  · rename_i hlt
    have hlt := UInt32.lt_iff_toNat_lt.mp hlt
    omega
  · rename_i hle
    have hle := mt UInt32.lt_iff_toNat_lt.mpr hle
    omega

theorem IdPolicy.count_pos (p : IdPolicy) : 0 < p.count := Nat.succ_pos _

namespace IdGenerator

/-- What a generator is asked: to hand out the next identity, or to show it. -/
inductive Call
  | draw
  | peek
deriving DecidableEq, Repr

def call (g : IdGenerator) : Call → UInt32 × IdGenerator
  | .draw => g.draw
  | .peek => (g.peek, g)

/-- The answers to some calls in order, and the generator after the last one. -/
def calls (g : IdGenerator) : List Call → List UInt32 × IdGenerator
  | [] => ([], g)
  | c :: cs => ((g.call c).1 :: ((g.call c).2.calls cs).1, ((g.call c).2.calls cs).2)

/-- The identities that are handed out in the course of some calls. -/
def drawn (g : IdGenerator) (cs : List Call) : List UInt32 :=
  ((cs.zip (g.calls cs).1).filter (·.1 = .draw)).map (·.2)

section Calls

variable {p : IdPolicy} {k : Nat} {g : IdGenerator}

theorem fst_call (g : IdGenerator) (c : Call) : (g.call c).1 = g.peek := by
  cases c with
  | draw => exact fst_draw g
  | peek => rfl

theorem drawn_cons_draw (g : IdGenerator) (cs : List Call) : g.drawn (.draw :: cs) = g.draw.1 :: g.draw.2.drawn cs := by
  simp [drawn, calls, call]

theorem drawn_cons_peek (g : IdGenerator) (cs : List Call) : g.drawn (.peek :: cs) = g.drawn cs := by
  simp [drawn, calls, call]

/-- Looking ahead changes nothing. -/
theorem calls_draws (g : IdGenerator) (cs : List Call) :
    (g.calls (List.replicate (cs.count .draw) .draw)).2 = (g.calls cs).2 ∧
      (g.calls (List.replicate (cs.count .draw) .draw)).1 = g.drawn cs := by
  induction cs generalizing g with
  | nil => exact ⟨rfl, rfl⟩
  | cons c cs ih =>
    cases c with
    | draw =>
      rw [List.count_cons_self, List.replicate_succ, drawn_cons_draw, ← (ih g.draw.2).2]
      exact ⟨(ih g.draw.2).1, rfl⟩
    | peek =>
      rw [List.count_cons_of_ne (by decide), drawn_cons_peek]
      exact ih g

namespace HasDrawn

variable (h : g.HasDrawn p k)

include h

theorem call (c : Call) : (g.call c).2.HasDrawn p (k + [c].count .draw) := by
  cases c with
  | draw => exact h.draw
  | peek => exact h

theorem calls (cs : List Call) : (g.calls cs).2.HasDrawn p (k + cs.count .draw) := by
  induction cs generalizing g k with
  | nil => exact h
  | cons c cs ih =>
    have hrest := ih (h.call c)
    rwa [Nat.add_assoc, ← List.count_append, List.singleton_append] at hrest

/-- Every call answers with the identity whose turn it is. -/
theorem map_toNat_calls (cs : List Call) :
    (g.calls cs).1.map (·.toNat) =
      (List.range cs.length).map fun j => p.start.toNat + (k + (cs.take j).count .draw) % p.count := by
  induction cs generalizing g k with
  | nil => rfl
  | cons c cs ih =>
    rw [IdGenerator.calls, List.map_cons, fst_call, h.peek_eq, ih (h.call c), List.length_cons,
      List.range_succ_eq_map, List.map_cons, List.map_map]
    refine congrArg₂ _ rfl (List.map_congr_left fun j _ => ?_)
    rw [Function.comp_apply, List.take_succ_cons, Nat.add_assoc, ← List.count_append, List.singleton_append]

/-- The identities that are handed out are those at the next places of the range, counted round and round. -/
theorem map_toNat_drawn (cs : List Call) :
    (g.drawn cs).map (·.toNat) = (List.range (cs.count .draw)).map fun j => p.start.toNat + (k + j) % p.count := by
  rw [← (calls_draws g cs).2, h.map_toNat_calls, List.length_replicate]
  refine List.map_congr_left fun j hj => ?_
  rw [List.take_replicate, List.count_replicate_self, Nat.min_eq_left (List.mem_range.mp hj).le]

end HasDrawn

/-! ### The range -/

theorem place_mem (p : IdPolicy) (k : Nat) :
    p.start.toNat ≤ p.start.toNat + k % p.count ∧ p.start.toNat + k % p.count ≤ max p.start.toNat p.max.toNat := by
  have hmod := Nat.mod_lt k p.count_pos
  have hcount : p.count = p.effective.max.toNat - p.start.toNat + 1 := rfl
  rw [p.toNat_max_effective] at hcount
  omega

/-- As many consecutive places as the range has are all of its places, each once. -/
theorem places_window (p : IdPolicy) (i : Nat) :
    ((List.range' i p.count).map fun k => p.start.toNat + k % p.count).Nodup ∧
      ∀ x, x ∈ (List.range' i p.count).map (fun k => p.start.toNat + k % p.count) ↔
        p.start.toNat ≤ x ∧ x ≤ max p.start.toNat p.max.toNat := by
  constructor
  · have hplaces : (List.range' i p.count).Nodup := List.nodup_range'
    refine hplaces.map_on fun x hx y hy hxy => ?_
    have hxy : x % p.count = y % p.count := Nat.add_left_cancel hxy
    refine Nat.mod_injOn_Ico i p.count ?_ ?_ hxy
    · simpa [List.mem_range'_1] using hx
    · simpa [List.mem_range'_1] using hy
  · intro x
    constructor
    · intro hx
      obtain ⟨k, -, rfl⟩ := List.mem_map.mp hx
      exact place_mem p k
    · rintro ⟨hstart, hmax⟩
      have hcount : p.count = p.effective.max.toNat - p.start.toNat + 1 := rfl
      rw [p.toNat_max_effective] at hcount
      -- the remainders of the places are all that there are
      have hrem : x - p.start.toNat ∈ (Finset.Ico i (i + p.count)).image (· % p.count) := by
        rw [Nat.image_Ico_mod, Finset.mem_range]
        omega
      obtain ⟨k, hk, hkx⟩ := Finset.mem_image.mp hrem
      refine List.mem_map.mpr ⟨k, by simpa [List.mem_range'_1] using hk, ?_⟩
      have hkx : k % p.count = x - p.start.toNat := hkx
      omega

end Calls

/-- What a new generator answers to any sequence of calls.  Each call shows the identity at the place of the range that
is the number of the identities drawn before it, counted round and round; the identities drawn are those at the places
`0`, `1`, `2`, and so on.  Looking ahead changes neither the generator nor what is drawn.  All answers are in the range;
as many consecutive identities as the range has are all of it; and the counter is in the range or one past its end. -/
theorem calls_ofPolicy (p : IdPolicy) (cs : List Call) :
    p.count = max p.start.toNat p.max.toNat - p.start.toNat + 1 ∧
    ((ofPolicy p).calls cs).1.map (·.toNat) =
      (List.range cs.length).map (fun j => p.start.toNat + (cs.take j).count .draw % p.count) ∧
    ((ofPolicy p).drawn cs).map (·.toNat) =
      (List.range (cs.count .draw)).map (fun k => p.start.toNat + k % p.count) ∧
    (ofPolicy p).calls (List.replicate (cs.count .draw) .draw) = ((ofPolicy p).drawn cs, ((ofPolicy p).calls cs).2) ∧
    (∀ x ∈ ((ofPolicy p).calls cs).1, p.start.toNat ≤ x.toNat ∧ x.toNat ≤ max p.start.toNat p.max.toNat) ∧
    (∀ i, i + p.count ≤ cs.count .draw →
      ((((ofPolicy p).drawn cs).drop i).take p.count).Nodup ∧
        ∀ x, x ∈ (((ofPolicy p).drawn cs).drop i).take p.count ↔
          p.start.toNat ≤ x.toNat ∧ x.toNat ≤ max p.start.toNat p.max.toNat) ∧
    p.start.toNat ≤ ((ofPolicy p).calls cs).2.counter.toNat ∧
      ((ofPolicy p).calls cs).2.counter.toNat ≤ max p.start.toNat p.max.toNat + 1 := by
  have hnew := hasDrawn_ofPolicy p
  have hanswers := hnew.map_toNat_calls cs
  have hdrawn := hnew.map_toNat_drawn cs
  have hlast := hnew.calls cs
  have hcount : p.count = p.effective.max.toNat - p.start.toNat + 1 := rfl
  simp only [Nat.zero_add] at hanswers hdrawn
  rw [p.toNat_max_effective] at hcount
  refine ⟨hcount, hanswers, hdrawn, ?_, fun x hx => ?_, fun i hi => ?_, hlast.start_le, ?_⟩
  · exact Prod.ext (calls_draws _ cs).2 (calls_draws _ cs).1
  · have hx := List.mem_map_of_mem (f := UInt32.toNat) hx
    rw [hanswers] at hx
    obtain ⟨j, -, hj⟩ := List.mem_map.mp hx
    rw [← hj]
    exact place_mem p _
  · have hwindow : ((((ofPolicy p).drawn cs).drop i).take p.count).map (·.toNat) =
        (List.range' i p.count).map fun k => p.start.toNat + k % p.count := by
      rw [List.map_take, List.map_drop, hdrawn, ← List.map_drop, ← List.map_take, List.take_drop, List.take_range,
        Nat.min_eq_left hi, List.range_eq_range', List.drop_range', Nat.add_sub_cancel_left, Nat.zero_add, Nat.mul_one]
    obtain ⟨hnodup, hmem⟩ := places_window p i
    rw [← hwindow] at hnodup hmem
    refine ⟨hnodup.of_map _, fun x => ?_⟩
    rw [← hmem, List.mem_map_of_injective fun _ _ => UInt32.toNat_inj.mp]
  · have hmax := hlast.le_max
    rwa [p.toNat_max_effective] at hmax

/-- A range of two identities, drawn from three times with a look ahead. -/
theorem calls_ofPolicy_twoIds :
    ((ofPolicy { start := 3, max := 4 }).calls [.draw, .peek, .draw, .draw]).1 = [3, 4, 4, 3] ∧
      (((ofPolicy { start := 3, max := 4 }).drawn [.draw, .peek, .draw, .draw]).drop 1).take 2 = [4, 3] ∧
      ([4, 3] : List UInt32).Nodup := by
  obtain ⟨-, -, -, -, -, hwindow, -⟩ := calls_ofPolicy { start := 3, max := 4 } [.draw, .peek, .draw, .draw]
  exact ⟨by decide, by decide, (hwindow 1 (by decide)).1⟩

end IdGenerator

end ScriptTree
