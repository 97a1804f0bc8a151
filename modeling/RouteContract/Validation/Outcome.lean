/-!
# Outcomes of a computation that may fail or not end

References between schemas can run in a circle without ever reaching a part of the value. A
traversal of such a schema has no result, which is neither success nor failure: `Outcome.looping`.
`Outcome.gather` runs siblings to the end and joins what they report, in order.
-/

namespace RouteContract

/-- Result of a computation: a value, a reason for failure, or no end. -/
inductive Outcome (ε α : Type) where
  /-- The computation succeeded. -/
  | ok (value : α)
  /-- The computation failed. -/
  | failed (reason : ε)
  /-- The computation does not end. -/
  | looping
deriving DecidableEq

namespace Outcome

variable {ε ζ α β : Type}

/-- Applies a function to a result. -/
def map (f : α → β) : Outcome ε α → Outcome ε β
  | ok a => ok (f a)
  | failed e => failed e
  | looping => looping

/-- Applies a function to a reason. -/
def mapReason (f : ε → ζ) : Outcome ε α → Outcome ζ α
  | ok a => ok a
  | failed e => failed (f e)
  | looping => looping

/-- The reason of a failure. -/
def reason? : Outcome ε α → Option ε
  | failed e => some e
  | _ => none

/-- Continues with a result. -/
def bind (o : Outcome ε α) (f : α → Outcome ε β) : Outcome ε β :=
  match o with
  | ok a => f a
  | failed e => failed e
  | looping => looping

/-- Joins a result with those after it: one sibling without end is enough for no end, and all
reasons are kept. -/
def gatherCons (head : Outcome (List ε) α) (tail : Outcome (List ε) (List α)) :
    Outcome (List ε) (List α) :=
  match head, tail with
  | looping, _ => looping
  | _, looping => looping
  | ok a, ok as => ok (a :: as)
  | ok _, failed es => failed es
  | failed es, ok _ => failed es
  | failed es, failed fs => failed (es ++ fs)

/-- The results of siblings, or everything that went wrong with them. -/
def gather : List (Outcome (List ε) α) → Outcome (List ε) (List α)
  | [] => ok []
  | o :: rest => gatherCons o (gather rest)

/-! ## Laws -/

@[simp] theorem map_ok (f : α → β) (a : α) : map f (ok a : Outcome ε α) = ok (f a) := rfl

@[simp] theorem bind_ok (a : α) (f : α → Outcome ε β) : bind (ok a) f = f a := rfl

theorem map_eq_ok_iff {f : α → β} {o : Outcome ε α} {b : β} :
    map f o = ok b ↔ ∃ a, o = ok a ∧ f a = b := by
  cases o <;> simp [map]

theorem bind_eq_ok_iff {o : Outcome ε α} {f : α → Outcome ε β} {b : β} :
    bind o f = ok b ↔ ∃ a, o = ok a ∧ f a = ok b := by
  cases o <;> simp [bind]

/-- Siblings succeed together exactly when each of them does. -/
theorem gather_eq_ok_iff {os : List (Outcome (List ε) α)} {as : List α} :
    gather os = ok as ↔ os = as.map ok := by
  induction os generalizing as with
  | nil => cases as <;> simp [gather]
  | cons o rest ih =>
    cases as with
    | nil =>
      simp only [gather, List.map_nil, reduceCtorEq, iff_false]
      cases o <;> cases gather rest <;> simp [gatherCons]
    | cons a as =>
      simp only [gather, List.map_cons, List.cons.injEq, ← ih]
      cases o <;> cases gather rest <;> simp [gatherCons]

end Outcome

end RouteContract
