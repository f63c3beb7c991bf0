import Mathlib.Data.List.Basic

/-!
This module contains queues that are filled in blocks and emptied one element at a time, with the
history of a run: what was taken out of the queue followed by what is left in it is what was put in.
-/

namespace Fifo

variable {α : Type u}

inductive Op (α : Type u) where
  | push (xs : List α)
  | pop
  | peek

/--
`none` for a `push`, else what was found at the front of the queue.
-/
abbrev Answer (α : Type u) := Option (Option α)

def step (q : List α) : Op α → Answer α × List α
  | .push xs => (none, q ++ xs)
  | .pop => (some q.head?, q.tail)
  | .peek => (some q.head?, q)

def run (q : List α) : List (Op α) → List (Answer α) × List α
  | [] => ([], q)
  | op :: ops =>
    let (answer, q) := step q op
    let (answers, q) := run q ops
    (answer :: answers, q)

def added : List (Op α) → List α
  | [] => []
  | .push xs :: ops => xs ++ added ops
  | .pop :: ops | .peek :: ops => added ops

def taken : List (Op α) → List (Answer α) → List α
  | .pop :: ops, some (some x) :: answers => x :: taken ops answers
  | _ :: ops, _ :: answers => taken ops answers
  | _, _ => []

theorem taken_append (q : List α) (ops : List (Op α))
    : taken ops (run q ops).1 ++ (run q ops).2 = q ++ added ops := by
  induction ops generalizing q with
  | nil => simp [taken, run, added]
  | cons op ops ih =>
    cases op with
    | push xs =>
      have := ih (q ++ xs)
      simpa [run, step, taken, added] using this
    | peek => simpa [run, step, taken, added] using ih q
    | pop =>
      cases q with
      | nil => simpa [run, step, taken, added] using ih []
      | cons x q => simpa [run, step, taken, added] using ih q

theorem taken_eq_added_iff (ops : List (Op α))
    : taken ops (run [] ops).1 = added ops ↔ (run [] ops).2 = [] := by
  have := taken_append [] ops
  simp only [List.nil_append] at this
  rw [← this]
  simp

end Fifo
