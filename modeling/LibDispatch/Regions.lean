namespace LibDispatch

/-!
# Sequences cut into regions

A byte string that is held in several pieces of memory is a list of regions.
This module cuts such a list at a position that need not be a region boundary,
and relates the cuts to `List.take` and `List.drop` of the whole sequence.
-/

namespace Regions

variable {α : Type}

/-- Remove the first `count` elements; a region used up is removed. -/
def dropFront : Nat → List (List α) → List (List α)
  | _, [] => []
  | count, region :: rest =>
    if count < region.length then
      region.drop count :: rest
    else
      dropFront (count - region.length) rest

/-- Keep the first `count` elements; no region is left empty. -/
def takeFront : Nat → List (List α) → List (List α)
  | 0, _ => []
  | _, [] => []
  | count, region :: rest =>
    if count ≤ region.length then
      [region.take count]
    else
      region :: takeFront (count - region.length) rest

@[simp]
theorem flatten_dropFront
    (count : Nat)
    (regions : List (List α)) :
    (dropFront count regions).flatten = regions.flatten.drop count := by
  induction regions generalizing count with
  | nil =>
    simp [dropFront]
  | cons region rest inductionHypothesis =>
    by_cases inside : count < region.length
    · simp [dropFront, inside, List.drop_append,
        Nat.sub_eq_zero_of_le (Nat.le_of_lt inside)]
    · simp [dropFront, inside, inductionHypothesis, List.drop_append,
        List.drop_eq_nil_of_le (Nat.le_of_not_lt inside)]

@[simp]
theorem flatten_takeFront
    (count : Nat)
    (regions : List (List α)) :
    (takeFront count regions).flatten = regions.flatten.take count := by
  induction regions generalizing count with
  | nil =>
    cases count <;> simp [takeFront]
  | cons region rest inductionHypothesis =>
    cases count with
    | zero =>
      simp [takeFront]
    | succ count =>
      by_cases inside : count + 1 ≤ region.length
      · simp [takeFront, inside, List.take_append,
          Nat.sub_eq_zero_of_le inside]
      · simp [takeFront, inside, inductionHypothesis, List.take_append,
          List.take_of_length_le (Nat.le_of_not_le inside)]

end Regions

end LibDispatch
