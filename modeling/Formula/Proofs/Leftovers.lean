import Formula.Proofs.Uses

/-!
# What failed uses leave behind

A use of a context that is answered with a fault leaves the context as it was, with one
exception: to put a value into a cell and its slot on the stack are two steps, and where the
second one fails the cell remains taken (`use_of_fault`). So the failed uses can be deleted
from a sequence, those apart that run out of stack behind a cell, and neither the other answers
nor the context at the end change (`log_filter_leaves`).

That those cannot be deleted, too, is seen when the heap runs out early
(`cell_left_by_failed_use`).
-/

namespace Formula.Context

/-- Whether a use with this answer can have changed the context: it has not failed, or not
    before it had taken a cell. -/
def leaves : Use × Answer → Bool
  | (.pushValue _, .fault (.stackOverflow _)) => true
  | (_, .fault _) => false
  | _ => true

variable {c : Context} {u : Use}

/-- What a failed use leaves: the context as it was, or the value in a cell. -/
theorem use_of_fault {f : Fault} (h : c.answer u = .fault f) :
    (leaves (u, .fault f) = false ∧ c.use u = c) ∨
      ∃ v, u = .pushValue v ∧ f = .stackOverflow c.capacities.stack ∧
        c.use u = { c with heap := c.heap.push v } := by
  have hdoes := c.does u
  rw [h] at hdoes
  generalize c.use u = c' at hdoes
  cases hdoes with
  | noRoom | nothing | noCell | noCellForValue => exact .inl ⟨rfl, rfl⟩
  | noRoomForValue v => exact .inr ⟨v, rfl, rfl, rfl⟩

/-- A use that leaves nothing behind leaves the context as it was. -/
theorem use_of_not_leaves (h : leaves (u, c.answer u) = false) : c.use u = c := by
  have hdoes := c.does u
  generalize c.answer u = a at h hdoes
  generalize c.use u = c' at hdoes
  cases hdoes with
  | noRoom | nothing | noCell | noCellForValue => rfl
  | pushed | popped | stored | pushedValue | noRoomForValue | reset | run => cases h

/-- Of uses that are answered with a fault, whatever they are, only a value that has been put
    into a cell and finds no room on the stack leaves something behind, and this is that cell.
    All others can be deleted from a sequence of uses: the others are answered as before, and
    the context at the end is the same. -/
theorem log_filter_leaves (c : Context) (uses : List Use) :
    (∀ (c : Context) u f, c.answer u = .fault f →
      (leaves (u, .fault f) = false ∧ c.use u = c) ∨
        ∃ v, u = .pushValue v ∧ f = .stackOverflow c.capacities.stack ∧
          c.use u = { c with heap := c.heap.push v }) ∧
      let kept := (c.log uses).filter leaves
      c.log (kept.map Prod.fst) = kept ∧ c.useAll (kept.map Prod.fst) = c.useAll uses := by
  refine ⟨fun _ _ _ => use_of_fault, ?_⟩
  induction uses generalizing c with
  | nil => exact ⟨rfl, rfl⟩
  | cons u uses ih =>
    obtain ⟨hlog, hcontext⟩ := ih (c.use u)
    by_cases h : leaves (u, c.answer u)
    · simp only [log, List.filter_cons_of_pos h, List.map_cons]
      exact ⟨congrArg _ hlog, hcontext⟩
    · have hsame : c.use u = c := use_of_not_leaves (Bool.eq_false_iff.2 h)
      rw [hsame] at hlog hcontext
      simp only [log, List.filter_cons_of_neg h, hsame]
      refine ⟨hlog, hcontext.trans ?_⟩
      show _ = (c.use u).useAll uses
      rw [hsame]

/-- Without any room on the stack, a value that is to be put on it fails, and yet takes the only
    cell: another value, which would have had it, finds the heap exhausted. -/
theorem cell_left_by_failed_use :
    let c : Context := { capacities := ⟨0, 1⟩ }
    c.log [.pushValue .undefined, .alloc .undefined] =
        [(.pushValue .undefined, .fault (.stackOverflow 0)),
          (.alloc .undefined, .fault (.heapExhausted 1))] ∧
      c.log [.alloc .undefined] = [(.alloc .undefined, .slot (.scratch 0))] ∧
      (c.use (.pushValue .undefined)).heap ≠ c.heap :=
  ⟨rfl, rfl, fun h => absurd (congrArg Array.size h) (by decide)⟩

end Formula.Context
