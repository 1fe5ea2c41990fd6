import ScriptTree.External.Assemble
import ScriptTree.Json.Text

/-!
# Export

The external form of a subtree is assembled from the leaves up with a list of tasks, so that the depth of a tree is not
limited by the depth of calls.  A node is entered first, which schedules its children; it is finished when they are, and
its form waits in a table until the parent takes it out.  A form that was taken is gone: two places for one node, which
only overwritten payloads can have, make the export fail.
-/

namespace ScriptTree

/-- How the text of an export is laid out. -/
structure ExportOptions where
  pretty : Bool := false
deriving DecidableEq, Repr

inductive ExportTask
  /-- Schedule the children of a node, which may be followed to the given depth. -/
  | enter (depth : Nat) (node : Handle)
  /-- Assemble the form of a node whose children are finished. -/
  | finish (node : Handle)

abbrev Finished := Std.HashMap Handle Json

namespace Finished

/-- Takes the form of a node out of the table. -/
def take (h : Handle) : StateT Finished (Except TreeError) Json := fun done =>
  match done[h]? with
  | some v => .ok (v, done.erase h)
  | none => .error (.unknownNode h)

end Finished

namespace ExportTask

/-- The depth to which a task still reaches. -/
def depth : ExportTask → Nat
  | enter depth _ => depth
  | finish _ => 0

end ExportTask

namespace Arena

/-- Assembles the form of a node from finished forms, which are taken out of the table. -/
def finishNode (a : Arena) (provider : AnalysisProvider) (h : Handle) : StateT Finished (Except TreeError) Unit := do
  let node ← a.get h
  let form ← Subject.assemble { arena := a, provider, handle := h, node } Finished.take
  modify (·.insert h form)

def runTasks (a : Arena) (provider : AnalysisProvider) :
    List ExportTask → Finished → Except TreeError Finished
  | [], done => .ok done
  | .enter 0 h :: _, _ => .error (.cyclic h)
  | .enter (depth + 1) h :: rest, done =>
    match _hc : a.children h with
    | .error e => .error e
    | .ok cs => a.runTasks provider (cs.map (.enter depth) ++ .finish h :: rest) done
  | .finish h :: rest, done =>
    match (a.finishNode provider h).run done with
    | .error e => .error e
    | .ok ((), done) => a.runTasks provider rest done
termination_by tasks => a.weight (tasks.map ExportTask.depth)
decreasing_by
  · have := weight_children_lt _hc depth
    simp only [List.map_append, List.map_map, List.map_cons, weight_append, weight, Function.comp_def,
      ExportTask.depth, Nat.succ_eq_add_one, depthWeight_zero]
    omega
  · simp only [List.map_cons, weight, ExportTask.depth, depthWeight_zero]
    omega

/-- Entering a node schedules its children and then its own end. -/
theorem runTasks_enter (a : Arena) (provider : AnalysisProvider) (depth : Nat) (h : Handle) (rest : List ExportTask)
    (done : Finished) :
    a.runTasks provider (.enter (depth + 1) h :: rest) done =
      match a.children h with
      | .error e => .error e
      | .ok cs => a.runTasks provider (cs.map (.enter depth) ++ .finish h :: rest) done := by
  rw [runTasks]
  split <;> simp only [*]

/-- Finishing a node puts its form into the table. -/
theorem runTasks_finish (a : Arena) (provider : AnalysisProvider) (h : Handle) (rest : List ExportTask)
    (done : Finished) :
    a.runTasks provider (.finish h :: rest) done =
      match (a.finishNode provider h).run done with
      | .error e => .error e
      | .ok ((), done) => a.runTasks provider rest done := by
  rw [runTasks]

/-- The external form of the subtree of a node. -/
def toExternal (a : Arena) (provider : AnalysisProvider) (root : Handle) : Except TreeError Json := do
  let done ← a.runTasks provider [.enter (a.size + 1) root] ∅
  match (Finished.take root).run done with
  | .ok (form, _) => return form
  | .error e => throw e

/-- The external form of a subtree as JSON text. -/
def exportText (a : Arena) (provider : AnalysisProvider) (options : ExportOptions) (root : Handle) :
    Except TreeError String := do
  let form ← a.toExternal provider root
  return if options.pretty then form.pretty else form.compact

end Arena

end ScriptTree
