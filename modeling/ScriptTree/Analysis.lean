import ScriptTree.Clone
import ScriptTree.Json
import Std.Data.HashMap

/-!
# Results of analyses

The exported form of some nodes holds the results of analyses that run elsewhere: their criteria and their dependencies.
A provider supplies both; a table is a provider that keeps them by handle.
-/

namespace ScriptTree

/-- A source of analysis results.  `null` stands for no results. -/
structure AnalysisProvider where
  criteria : Arena → Handle → Json
  dependencies : Arena → Handle → Json

namespace AnalysisProvider

def none : AnalysisProvider := { criteria := fun _ _ => .array [], dependencies := fun _ _ => .array [] }

end AnalysisProvider

structure AnalysisTable where
  criteria : Std.HashMap Handle Json := ∅
  dependencies : Std.HashMap Handle Json := ∅

namespace AnalysisTable

def setCriteria (t : AnalysisTable) (h : Handle) (v : Json) : AnalysisTable :=
  { t with criteria := t.criteria.insert h v }

def setDependencies (t : AnalysisTable) (h : Handle) (v : Json) : AnalysisTable :=
  { t with dependencies := t.dependencies.insert h v }

/-- What the table answers for an entry: an empty array in place of a missing entry and of `null`. -/
def answer (entry : Option Json) : Json := (entry.getD (.array [])).orEmptyArray

def provider (t : AnalysisTable) : AnalysisProvider :=
  { criteria := fun _ h => answer t.criteria[h]?
    dependencies := fun _ h => answer t.dependencies[h]? }

/-- The entries with the one of `source`, if there is one, written at `copy` too. -/
def carryEntry (entries : Std.HashMap Handle Json) (source copy : Handle) : Std.HashMap Handle Json :=
  match entries[source]? with
  | some v => entries.insert copy v
  | none => entries

/-- Only the entry of the copy may change, and it does so when the source has one. -/
theorem getElem?_carryEntry (entries : Std.HashMap Handle Json) (source copy x : Handle) :
    (carryEntry entries source copy)[x]? = (if x = copy then entries[source]? else none).or entries[x]? := by
  unfold carryEntry
  split
  · rename_i v hv
    rw [Std.HashMap.getElem?_insert]
    by_cases hx : x = copy
    · simp [hx, hv]
    · have hc : copy ≠ x := fun h => hx h.symm
      simp [hx, hc]
  · rename_i hv
    simp [hv]

/-- Writes the results of nodes at their copies too, pair by pair; each pair sees what the pairs before it have
written. -/
def carryPairs (t : AnalysisTable) (pairs : List (Handle × Handle)) : AnalysisTable :=
  pairs.foldl
    (fun t (source, copy) =>
      { criteria := carryEntry t.criteria source copy
        dependencies := carryEntry t.dependencies source copy })
    t

/-- Writes the results of cloned nodes at their copies too, in the order in which they were copied. -/
def carryOver (t : AnalysisTable) (map : CloneMap) : AnalysisTable := t.carryPairs map.entries

end AnalysisTable

end ScriptTree
