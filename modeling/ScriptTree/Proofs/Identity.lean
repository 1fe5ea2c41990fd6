import ScriptTree.Identity

/-!
# What a generator hands out

The counter of a generator runs through its range, one past the end, and then through the range again.  So the identity
that comes after `k` others is the one at place `k` of the range, counted round and round (`HasDrawn.peek_eq`): no
identity comes twice before the range is exhausted.
-/

namespace ScriptTree

/-- The number of identities in a range. -/
def IdPolicy.count (p : IdPolicy) : Nat := p.effective.max.toNat - p.start.toNat + 1

theorem IdPolicy.start_le_max (p : IdPolicy) : p.start.toNat ≤ p.effective.max.toNat := by
  show p.start.toNat ≤ (if p.max < p.start then p.start else p.max).toNat
  split
  · exact Nat.le_refl _
  · rename_i hlt
    exact Nat.le_of_not_lt fun h => hlt (UInt32.lt_iff_toNat_lt.mpr h)

namespace IdGenerator

/-- The generator has handed out `k` identities since it was made.  The counter is at the next place of the range, or one
past the end. -/
structure HasDrawn (p : IdPolicy) (k : Nat) (g : IdGenerator) : Prop where
  policy_eq : g.policy = p.effective
  start_le : p.start.toNat ≤ g.counter.toNat
  le_max : g.counter.toNat ≤ p.effective.max.toNat + 1
  place_eq : (g.counter.toNat - p.start.toNat) % p.count = k % p.count

theorem hasDrawn_ofPolicy (p : IdPolicy) : (ofPolicy p).HasDrawn p 0 := by
  refine ⟨rfl, ?_, ?_, ?_⟩
  · simp [ofPolicy]
  · have := p.start_le_max
    simp only [ofPolicy, UInt32.toNat_toUInt64]
    omega
  · simp [ofPolicy]

namespace HasDrawn

variable {p : IdPolicy} {k : Nat} {g : IdGenerator} (h : g.HasDrawn p k)

include h

theorem isExhausted_iff : g.isExhausted = true ↔ g.counter.toNat = p.effective.max.toNat + 1 := by
  have hmax := h.le_max
  rw [isExhausted, decide_eq_true_iff, UInt64.lt_iff_toNat_lt, h.policy_eq, UInt32.toNat_toUInt64]
  omega

theorem counter_le_of_left (hleft : ¬g.isExhausted = true) : g.counter.toNat ≤ p.effective.max.toNat := by
  have hmax := h.le_max
  have hend := mt h.isExhausted_iff.mpr hleft
  omega

/-- Past the end of the range all its identities have been handed out the same number of times. -/
theorem mod_count_of_isExhausted (hexhausted : g.isExhausted = true) : k % p.count = 0 := by
  have hrange := p.start_le_max
  have hround : g.counter.toNat - p.start.toNat = p.count := by
    rw [h.isExhausted_iff.mp hexhausted, IdPolicy.count]
    omega
  rw [← h.place_eq, hround, Nat.mod_self]

/-- The next identity is at place `k` of the range, counted round and round. -/
theorem peek_eq : g.peek.toNat = p.start.toNat + k % p.count := by
  unfold peek
  split
  · rename_i hexhausted
    rw [h.mod_count_of_isExhausted hexhausted, h.policy_eq]
    rfl
  · rename_i hleft
    have hstart := h.start_le
    have hcounter := h.counter_le_of_left hleft
    have hfits := p.effective.max.toNat_lt
    have hsmall : g.counter.toNat - p.start.toNat < p.count := by
      rw [IdPolicy.count]
      omega
    rw [← h.place_eq, Nat.mod_eq_of_lt hsmall, UInt64.toNat_toUInt32, Nat.mod_eq_of_lt (by omega)]
    omega

theorem draw : g.draw.2.HasDrawn p (k + 1) := by
  unfold IdGenerator.draw
  split
  · rename_i hexhausted
    have hrange := p.start_le_max
    have hcounter : (g.policy.start.toUInt64 + 1).toNat = p.start.toNat + 1 := by
      rw [h.policy_eq, UInt64.toNat_add, UInt32.toNat_toUInt64]
      exact Nat.mod_eq_of_lt (Nat.lt_of_lt_of_le (Nat.succ_lt_succ p.start.toNat_lt) (by decide))
    refine ⟨h.policy_eq, ?_, ?_, ?_⟩
    · show _ ≤ (g.policy.start.toUInt64 + 1).toNat
      omega
    · show (g.policy.start.toUInt64 + 1).toNat ≤ _
      omega
    · show ((g.policy.start.toUInt64 + 1).toNat - _) % _ = _
      rw [hcounter, Nat.add_sub_cancel_left, Nat.add_mod k, h.mod_count_of_isExhausted hexhausted, Nat.zero_add,
        Nat.mod_mod]
  · rename_i hleft
    have hstart := h.start_le
    have hmax := h.counter_le_of_left hleft
    have hfits := p.effective.max.toNat_lt
    have hcounter : (g.counter + 1).toNat = g.counter.toNat + 1 := by
      rw [UInt64.toNat_add]
      exact Nat.mod_eq_of_lt (by simp only [UInt64.reduceToNat]; omega)
    refine ⟨h.policy_eq, ?_, ?_, ?_⟩
    · show _ ≤ (g.counter + 1).toNat
      omega
    · show (g.counter + 1).toNat ≤ _
      omega
    · show ((g.counter + 1).toNat - _) % _ = _
      rw [hcounter, Nat.sub_add_comm hstart, Nat.add_mod, h.place_eq, ← Nat.add_mod]

end HasDrawn

end IdGenerator

end ScriptTree
