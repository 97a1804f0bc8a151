import Mathlib.Data.List.Forall2
import RouteContract.Validation.Outcome

/-!
# Verdict -- how a computation ended

`Outcome.verdict` forgets outputs and reasons and keeps how a computation ended. Siblings succeed
together exactly when each of them does, and their verdict depends on the set of their verdicts
alone, neither on their order nor on their number (`gather_verdict_congr`). If they all end they
succeed together or report everything that went wrong with any of them (`gather_cases`).
-/

namespace RouteContract

namespace Outcome

variable {ε ζ α β : Type}

/-! ## Verdicts -/

/-- How a computation ended, without output and reason. -/
def verdict (o : Outcome ε α) : Outcome Unit Unit := (o.map fun _ => ()).mapReason fun _ => ()

@[simp] theorem verdict_ok (a : α) : verdict (ok a : Outcome ε α) = ok () := rfl

@[simp] theorem verdict_failed (e : ε) : verdict (failed e : Outcome ε α) = failed () := rfl

@[simp] theorem verdict_looping : verdict (looping : Outcome ε α) = looping := rfl

@[simp] theorem verdict_map (f : α → β) (o : Outcome ε α) : (o.map f).verdict = o.verdict := by
  cases o <;> rfl

theorem verdict_eq_ok_iff {o : Outcome ε α} : o.verdict = ok () ↔ ∃ a, o = ok a := by
  cases o <;> simp

theorem verdict_eq_failed_iff {o : Outcome ε α} : o.verdict = failed () ↔ ∃ e, o = failed e := by
  cases o <;> simp

theorem verdict_eq_looping_iff {o : Outcome ε α} : o.verdict = looping ↔ o = looping := by
  cases o <;> simp

/-- A verdict is known from when it is success and when it is no end. -/
theorem verdict_ext {o : Outcome ε α} {o' : Outcome ζ β}
    (hok : (∃ a, o = ok a) ↔ ∃ b, o' = ok b) (hloop : o = looping ↔ o' = looping) :
    o.verdict = o'.verdict := by
  cases o <;> cases o' <;> simp_all

theorem mapReason_eq_ok_iff {f : ε → ζ} {o : Outcome ε α} {a : α} :
    o.mapReason f = ok a ↔ o = ok a := by
  cases o <;> simp [mapReason]

/-! ## Siblings -/

/-- Siblings have no end exactly when one of them has none. -/
theorem gather_eq_looping_iff {os : List (Outcome (List ε) α)} :
    gather os = looping ↔ looping ∈ os := by
  induction os with
  | nil => simp [gather]
  | cons o rest ih =>
      rw [gather, List.mem_cons, ← ih]
      cases o <;> cases gather rest <;> simp [gatherCons]

theorem exists_gather_eq_ok_iff {os : List (Outcome (List ε) α)} :
    (∃ as, gather os = ok as) ↔ ∀ o ∈ os, ∃ a, o = ok a := by
  constructor
  · rintro ⟨as, h⟩ o ho
    rw [gather_eq_ok_iff.mp h] at ho
    obtain ⟨a, _, rfl⟩ := List.mem_map.mp ho
    exact ⟨a, rfl⟩
  · intro h
    induction os with
    | nil => exact ⟨[], rfl⟩
    | cons o rest ih =>
        rw [List.forall_mem_cons] at h
        obtain ⟨a, rfl⟩ := h.1
        obtain ⟨as, has⟩ := ih h.2
        exact ⟨a :: as, by rw [gather, has]; rfl⟩

/-- Siblings made by one function succeed together exactly when they do so one by one. -/
theorem gather_map_eq_ok_iff {f : β → Outcome (List ε) α} {xs : List β} {as : List α} :
    gather (xs.map f) = ok as ↔ List.Forall₂ (fun x a => f x = ok a) xs as := by
  rw [gather_eq_ok_iff, ← List.forall₂_eq_eq_eq, List.forall₂_map_left_iff,
    List.forall₂_map_right_iff]

/-- A result that is labelled is the labelled result. -/
theorem map_label_eq_ok_iff {κ : Type} {o : Outcome ε α} {key : κ} {field : κ × α} :
    (o.map fun a => (key, a)) = ok field ↔ field.1 = key ∧ o = ok field.2 := by
  obtain ⟨k, a⟩ := field
  rw [map_eq_ok_iff]
  constructor
  · rintro ⟨b, hb, heq⟩
    cases heq
    exact ⟨rfl, hb⟩
  · rintro ⟨rfl, ha⟩
    exact ⟨a, ha, rfl⟩

theorem verdict_bind_congr {γ δ : Type} {o : Outcome ε α} {o' : Outcome ζ β}
    {f : α → Outcome ε γ} {f' : β → Outcome ζ δ} (h : o.verdict = o'.verdict)
    (hf : ∀ a b, o = ok a → o' = ok b → (f a).verdict = (f' b).verdict) :
    (o.bind f).verdict = (o'.bind f').verdict := by
  cases o with
  | ok a =>
      obtain ⟨b, rfl⟩ := verdict_eq_ok_iff.mp h.symm
      exact hf a b rfl rfl
  | failed e =>
      obtain ⟨e', rfl⟩ := verdict_eq_failed_iff.mp h.symm
      rfl
  | looping =>
      rw [verdict_eq_looping_iff.mp h.symm]
      rfl

/-- Every computation of the one list ends as some computation of the other does. -/
def Covers (os : List (Outcome ε α)) (ps : List (Outcome ζ β)) : Prop :=
  ∀ o ∈ os, ∃ p ∈ ps, o.verdict = p.verdict

/-- **The verdict of siblings depends on the set of their verdicts only.** -/
theorem gather_verdict_congr {os : List (Outcome (List ε) α)} {ps : List (Outcome (List ζ) β)}
    (h : Covers os ps) (h' : Covers ps os) : (gather os).verdict = (gather ps).verdict := by
  apply verdict_ext
  · rw [exists_gather_eq_ok_iff, exists_gather_eq_ok_iff]
    constructor
    · intro hok p hp
      obtain ⟨o, ho, hv⟩ := h' p hp
      rw [← verdict_eq_ok_iff, hv, verdict_eq_ok_iff]
      exact hok o ho
    · intro hok o ho
      obtain ⟨p, hp, hv⟩ := h o ho
      rw [← verdict_eq_ok_iff, hv, verdict_eq_ok_iff]
      exact hok p hp
  · rw [gather_eq_looping_iff, gather_eq_looping_iff]
    constructor
    · intro hloop
      obtain ⟨p, hp, hv⟩ := h _ hloop
      rw [verdict_eq_looping_iff.mp hv.symm] at hp
      exact hp
    · intro hloop
      obtain ⟨o, ho, hv⟩ := h' _ hloop
      rw [verdict_eq_looping_iff.mp hv.symm] at ho
      exact ho

/-! ## Outputs and reasons of siblings -/

variable {ι : Type}

/-- Labels may be put on before siblings are joined or after. -/
theorem gather_map_label (label : ι → α → β) (visit : ι → Outcome (List ε) α) (xs : List ι) :
    gather (xs.map fun x => (visit x).map (label x)) =
      (gather (xs.map visit)).map (List.zipWith label xs) := by
  induction xs with
  | nil => rfl
  | cons x rest ih =>
      rw [List.map_cons, List.map_cons, gather, gather, ih]
      cases visit x <;> cases gather (rest.map visit) <;> rfl

theorem gather_map (f : α → β) (visit : ι → Outcome (List ε) α) (xs : List ι) :
    gather (xs.map fun x => (visit x).map f) = (gather (xs.map visit)).map (List.map f) := by
  induction xs with
  | nil => rfl
  | cons x rest ih =>
      rw [List.map_cons, List.map_cons, gather, gather, ih]
      cases visit x <;> cases gather (rest.map visit) <;> rfl

/-- Siblings that succeed add their values at the end. -/
theorem gather_append_ok (os : List (Outcome (List ε) α)) (xs : List ι) (f : ι → α) :
    gather (os ++ xs.map fun x => ok (f x)) = (gather os).map fun as => as ++ xs.map f := by
  induction os with
  | nil => exact gather_eq_ok_iff.mpr List.map_map.symm
  | cons o rest ih =>
      rw [List.cons_append, gather, gather, ih]
      cases o <;> cases gather rest <;> rfl

/-- Everything that went wrong with siblings. -/
def reasons (os : List (Outcome (List ε) α)) : List ε := os.flatMap fun o => o.reason?.getD []

theorem reasons_cons (o : Outcome (List ε) α) (os : List (Outcome (List ε) α)) :
    reasons (o :: os) = o.reason?.getD [] ++ reasons os :=
  List.flatMap_cons

theorem reasons_append (os ps : List (Outcome (List ε) α)) :
    reasons (os ++ ps) = reasons os ++ reasons ps :=
  List.flatMap_append

theorem reasons_map_ok (as : List α) : reasons (as.map (ok : α → Outcome (List ε) α)) = [] := by
  simp [reasons, reason?]

/-- What siblings that fail together report is everything that went wrong. -/
theorem reason_of_gather_eq_failed {os : List (Outcome (List ε) α)} {es : List ε}
    (h : gather os = failed es) : es = reasons os := by
  induction os generalizing es with
  | nil => cases h
  | cons o rest ih =>
      rw [gather] at h
      rw [reasons_cons]
      cases o with
      | looping => cases h
      | ok a =>
          cases hrest : gather rest with
          | failed fs => rw [hrest] at h; cases h; exact ih hrest
          | _ => rw [hrest] at h; cases h
      | failed e =>
          cases hrest : gather rest with
          | looping => rw [hrest] at h; cases h
          | failed fs => rw [hrest] at h; cases h; rw [ih hrest]; rfl
          | ok as =>
              rw [hrest] at h
              cases h
              rw [gather_eq_ok_iff.mp hrest, reasons_map_ok]
              exact (List.append_nil _).symm

/-- Siblings that all end either all succeed, or fail with everything that went wrong. -/
theorem gather_cases {os : List (Outcome (List ε) α)} (hends : looping ∉ os) :
    (∃ as, os = List.map ok as ∧ gather os = ok as) ∨
      ((∃ o ∈ os, ∃ e, o = failed e) ∧ gather os = failed (reasons os)) := by
  cases h : gather os with
  | looping => exact absurd (gather_eq_looping_iff.mp h) hends
  | ok as => exact .inl ⟨as, gather_eq_ok_iff.mp h, rfl⟩
  | failed es =>
      refine .inr ⟨?_, by rw [reason_of_gather_eq_failed h]⟩
      by_contra hnone
      have hok : ∀ o ∈ os, ∃ a, o = ok a := by
        intro o ho
        cases o with
        | ok a => exact ⟨a, rfl⟩
        | failed e => exact absurd ⟨_, ho, e, rfl⟩ hnone
        | looping => exact absurd ho hends
      obtain ⟨as, has⟩ := exists_gather_eq_ok_iff.mpr hok
      rw [h] at has
      cases has

theorem map_congr_ok {o : Outcome ε α} {f g : α → β} (h : ∀ a, o = ok a → f a = g a) :
    o.map f = o.map g := by
  cases o with
  | ok a => exact congrArg ok (h a rfl)
  | _ => rfl

theorem map_map {γ : Type} (f : α → β) (g : β → γ) (o : Outcome ε α) :
    (o.map f).map g = o.map fun a => g (f a) := by
  cases o <;> rfl

end Outcome

end RouteContract
