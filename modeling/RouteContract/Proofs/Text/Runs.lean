import Mathlib.Data.List.TakeWhile
import RouteContract.Text.Blank

/-!
# Runs -- texts taken apart where a class of characters ends

A run of characters of one class ends at the first character outside the class, so a run and what
stands behind it are told apart (`run_append_inj`). Trimming takes the runs of blanks off both ends
of a text (`trimmed_iff`).
-/

namespace RouteContract.Text

variable {p : Char → Bool} {l l' r r' cs inner : List Char}

/-! ## Runs -/

/-- A text that does not begin with a character of the class. -/
def Stops (p : Char → Bool) (r : List Char) : Prop := ∀ c, r.head? = some c → p c = false

theorem takeWhile_of_stops (h : Stops p r) : r.takeWhile p = [] := by
  cases r with
  | nil => rfl
  | cons c rest => rw [List.takeWhile_cons, h c rfl]; rfl

theorem dropWhile_of_stops (h : Stops p r) : r.dropWhile p = r := by
  cases r with
  | nil => rfl
  | cons c rest => rw [List.dropWhile_cons, h c rfl]; rfl

theorem stops_dropWhile (p : Char → Bool) (cs : List Char) : Stops p (cs.dropWhile p) := by
  intro c hc
  have hnot := List.head?_dropWhile_not p cs
  rw [hc] at hnot
  exact hnot

theorem takeWhile_run (hl : ∀ c ∈ l, p c = true) (hr : Stops p r) : (l ++ r).takeWhile p = l := by
  rw [List.takeWhile_append_of_pos hl, takeWhile_of_stops hr, List.append_nil]

theorem dropWhile_run (hl : ∀ c ∈ l, p c = true) (hr : Stops p r) : (l ++ r).dropWhile p = r := by
  rw [List.dropWhile_append_of_pos hl, dropWhile_of_stops hr]

/-- A run ends where its class does, so it can be told from what stands behind it. -/
theorem run_append_inj (hl : ∀ c ∈ l, p c = true) (hl' : ∀ c ∈ l', p c = true) (hr : Stops p r)
    (hr' : Stops p r') (h : l ++ r = l' ++ r') : l = l' ∧ r = r' := by
  have hrun := congrArg (List.takeWhile p) h
  have hbehind := congrArg (List.dropWhile p) h
  rw [takeWhile_run hl hr, takeWhile_run hl' hr'] at hrun
  rw [dropWhile_run hl hr, dropWhile_run hl' hr'] at hbehind
  exact ⟨hrun, hbehind⟩

/-! ## Blank ends -/

/-- A text and what is left of it without the blanks at its ends. -/
structure Trimmed (cs inner : List Char) : Prop where
  /-- All that is taken off is blank. -/
  around : ∃ before after, cs = before ++ inner ++ after ∧
    (∀ c ∈ before, isBlank c = true) ∧ ∀ c ∈ after, isBlank c = true
  /-- What is left does not begin with a blank. -/
  first : ∀ c, inner.head? = some c → isBlank c = false
  /-- What is left does not end with a blank. -/
  last : ∀ c, inner.getLast? = some c → isBlank c = false

theorem Trimmed.trimChars_eq (h : Trimmed cs inner) : trimChars cs = inner := by
  obtain ⟨⟨before, after, rfl, hbefore, hafter⟩, hfirst, hlast⟩ := h
  have hend : (after.reverse ++ inner.reverse).dropWhile isBlank = inner.reverse := by
    refine dropWhile_run (fun c hc => hafter c (List.mem_reverse.mp hc)) fun c hc => hlast c ?_
    rwa [List.head?_reverse] at hc
  unfold trimChars
  rw [List.append_assoc, List.dropWhile_append_of_pos hbefore]
  cases inner with
  | nil => rw [List.nil_append, List.dropWhile_eq_nil_iff.mpr hafter]; rfl
  | cons c rest =>
      have hbegin : (c :: rest ++ after).dropWhile isBlank = c :: rest ++ after :=
        dropWhile_of_stops hfirst
      rw [hbegin, List.reverse_append, hend, List.reverse_reverse]

theorem trimmed_trimChars (cs : List Char) : Trimmed cs (trimChars cs) := by
  -- what is left behind the leading blanks, and what is taken off its end
  generalize hbehind : cs.dropWhile isBlank = behind
  generalize hafter : behind.reverse.takeWhile isBlank = after
  have hinner : behind = trimChars cs ++ after.reverse := by
    rw [trimChars, hbehind, ← hafter, ← List.reverse_append, List.takeWhile_append_dropWhile,
      List.reverse_reverse]
  refine ⟨⟨cs.takeWhile isBlank, after.reverse, ?_, fun c => List.mem_takeWhile_imp, fun c hc => ?_⟩,
    fun c hc => ?_, fun c hc => ?_⟩
  · rw [List.append_assoc, ← hinner, ← hbehind, List.takeWhile_append_dropWhile]
  · rw [List.mem_reverse, ← hafter] at hc
    exact List.mem_takeWhile_imp hc
  · refine stops_dropWhile isBlank cs c ?_
    rw [hbehind, hinner, List.head?_append, hc]
    rfl
  · refine stops_dropWhile isBlank behind.reverse c ?_
    rwa [trimChars, hbehind, List.getLast?_reverse] at hc

/-- **Trimming leaves what stands between the blank ends**, and nothing else is that. -/
theorem trimmed_iff : Trimmed cs inner ↔ trimChars cs = inner :=
  ⟨Trimmed.trimChars_eq, fun h => h ▸ trimmed_trimChars cs⟩

end RouteContract.Text
