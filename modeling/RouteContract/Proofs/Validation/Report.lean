import Mathlib.Data.List.Induction
import Mathlib.Data.List.Nodup
import RouteContract.Proofs.Validation.Verdict
import RouteContract.Validation.Report

/-!
# Report -- what recording findings does to a report

A report only grows: a message is added, and those recorded before keep their places (`Extends`).
Starting from nothing it names every path once and never without a message (`Tidy`).

A report groups findings by path, so that findings read off it come in another order than they were
recorded in. Recording them again under other paths makes no difference: paths come in the order in
which they first failed, and messages at one path in the order in which they were found
(`record_regrouped`).
-/

namespace RouteContract

/-- The finding with its path replaced. -/
def Finding.mapPath (f : String → String) (finding : Finding) : Finding :=
  ⟨f finding.path, finding.message⟩

/-- The issue with its path replaced. -/
def Issue.mapPath (f : String → String) (issue : Issue) : Issue := ⟨f issue.path, issue.errors⟩

namespace Report

variable {r s t : Report} {path other message : String}

@[simp] theorem record_nil (r : Report) : r.record [] = r := rfl

@[simp] theorem record_cons (r : Report) (finding : Finding) (findings : List Finding) :
    r.record (finding :: findings) = (r.push finding.path finding.message).record findings := rfl

theorem record_append (r : Report) (findings others : List Finding) :
    r.record (findings ++ others) = (r.record findings).record others :=
  List.foldl_append

/-! ## Growth -/

/-- Number of recorded messages. -/
def messageCount (r : Report) : Nat := (r.issues.flatMap Issue.errors).length

/-- Everything in the first report is in the second: each issue at its position, each message at its
position in the issue. -/
def Extends (r s : Report) : Prop :=
  ∀ (i : Nat) (issue : Issue), r.issues[i]? = some issue →
    ∃ issue', s.issues[i]? = some issue' ∧ issue'.path = issue.path ∧ issue.errors <+: issue'.errors

theorem Extends.refl (r : Report) : r.Extends r :=
  fun _ issue h => ⟨issue, h, rfl, List.prefix_refl _⟩

theorem Extends.trans (h : r.Extends s) (h' : s.Extends t) : r.Extends t := by
  intro i issue hi
  obtain ⟨issue', hi', hpath, herrors⟩ := h i issue hi
  obtain ⟨issue'', hi'', hpath', herrors'⟩ := h' i issue' hi'
  exact ⟨issue'', hi'', hpath'.trans hpath, herrors.trans herrors'⟩

theorem extends_push (r : Report) (path message : String) : r.Extends (r.push path message) := by
  obtain ⟨issues⟩ := r
  simp only [Extends, push]
  induction issues with
  | nil => simp
  | cons first rest ih =>
      intro i issue hi
      by_cases hfirst : first.path = path
      · rw [pushTo, if_pos hfirst]
        cases i with
        | zero => cases hi; exact ⟨_, rfl, rfl, List.prefix_append _ _⟩
        | succ i => exact ⟨issue, hi, rfl, List.prefix_refl _⟩
      · rw [pushTo, if_neg hfirst]
        cases i with
        | zero => cases hi; exact ⟨_, rfl, rfl, List.prefix_refl _⟩
        | succ i => exact ih i issue hi

theorem messageCount_push (r : Report) (path message : String) :
    (r.push path message).messageCount = r.messageCount + 1 := by
  obtain ⟨issues⟩ := r
  simp only [push, messageCount]
  induction issues with
  | nil => rfl
  | cons first rest ih =>
      rw [pushTo, List.flatMap_cons, List.length_append]
      split
      · rw [List.flatMap_cons, List.length_append, List.length_append, List.length_singleton]
        omega
      · rw [List.flatMap_cons, List.length_append, ih]
        omega

theorem extends_record (r : Report) (findings : List Finding) : r.Extends (r.record findings) := by
  induction findings generalizing r with
  | nil => exact .refl r
  | cons finding rest ih => exact (extends_push r _ _).trans (ih _)

theorem messageCount_record (r : Report) (findings : List Finding) :
    (r.record findings).messageCount = r.messageCount + findings.length := by
  induction findings generalizing r with
  | nil => rfl
  | cons finding rest ih =>
      rw [record_cons, ih, messageCount_push, List.length_cons]
      omega

/-! ## Tidy reports -/

/-- Every path has one issue, and every issue has a message. -/
structure Tidy (r : Report) : Prop where
  /-- No two issues are at one path. -/
  nodup : r.paths.Nodup
  /-- Every issue says something. -/
  errors : ∀ issue ∈ r.issues, issue.errors ≠ []

theorem tidy_empty : Tidy {} := ⟨List.nodup_nil, by simp⟩

theorem mem_pushTo {issues : List Issue} {issue : Issue} (h : issue ∈ pushTo path message issues) :
    issue ∈ issues ∨ issue.errors ≠ [] := by
  induction issues with
  | nil =>
      rw [pushTo, List.mem_singleton] at h
      exact .inr (by simp [h])
  | cons first rest ih =>
      rw [pushTo] at h
      split at h
      · rcases List.mem_cons.mp h with rfl | h
        · exact .inr (by simp)
        · exact .inl (List.mem_cons_of_mem _ h)
      · rcases List.mem_cons.mp h with rfl | h
        · exact .inl List.mem_cons_self
        · exact (ih h).imp_left (List.mem_cons_of_mem _)

theorem Tidy.push (h : r.Tidy) (path message : String) : (r.push path message).Tidy := by
  refine ⟨?_, fun issue hissue => (mem_pushTo hissue).elim (h.errors issue) id⟩
  rw [paths_push]
  split
  · exact h.nodup
  · next hnew => exact h.nodup.append (List.nodup_singleton _) (by simpa using hnew)

theorem Tidy.record (h : r.Tidy) (findings : List Finding) : (r.record findings).Tidy := by
  induction findings generalizing r with
  | nil => exact h
  | cons finding rest ih => exact ih (h.push _ _)

theorem tidy_ofFindings (findings : List Finding) : (ofFindings findings).Tidy :=
  tidy_empty.record findings

theorem issues_push_ne_nil (r : Report) (path message : String) : (r.push path message).issues ≠ [] := by
  have h := push_ne_empty r path message
  rw [isEmpty] at h
  exact List.isEmpty_eq_false_iff.mp h

theorem issues_ofFindings_eq_nil_iff {findings : List Finding} :
    (ofFindings findings).issues = [] ↔ findings = [] := by
  cases findings using List.reverseRecOn with
  | nil => exact iff_of_true rfl rfl
  | append_singleton findings finding =>
      rw [ofFindings, record_append]
      exact iff_of_false (issues_push_ne_nil _ _ _) (by simp)

/-! ## Regrouping -/

theorem findingsOf_append (issues others : List Issue) :
    findingsOf (issues ++ others) = findingsOf issues ++ findingsOf others :=
  List.flatMap_append

theorem findingsOf_cons (issue : Issue) (issues : List Issue) :
    findingsOf (issue :: issues) =
      issue.errors.map (fun message => ⟨issue.path, message⟩) ++ findingsOf issues :=
  List.flatMap_cons

theorem path_of_mem_findingsOf {issues : List Issue} {finding : Finding}
    (h : finding ∈ findingsOf issues) : ∃ issue ∈ issues, issue.path = finding.path := by
  obtain ⟨issue, hissue, h⟩ := List.mem_flatMap.mp h
  obtain ⟨_, _, rfl⟩ := List.mem_map.mp h
  exact ⟨issue, hissue, rfl⟩

/-- A message at a path that is there already may as well be recorded before one at another
path. -/
theorem push_comm (h : path ∈ r.paths) (hne : path ≠ other) (m n : String) :
    (r.push other n).push path m = (r.push path m).push other n := by
  obtain ⟨issues⟩ := r
  simp only [push, mk.injEq]
  replace h : path ∈ issues.map Issue.path := h
  induction issues with
  | nil => simp at h
  | cons first rest ih =>
      by_cases hpath : first.path = path
      · have hother : ¬ path = other := hne
        simp [pushTo, hpath, hother]
      · have hrest : path ∈ rest.map Issue.path := by
          rw [List.map_cons, List.mem_cons] at h
          exact h.resolve_left fun heq => hpath heq.symm
        by_cases hother : first.path = other
        · have hpath' : ¬ other = path := fun heq => hne heq.symm
          simp [pushTo, hother, hpath']
        · simp [pushTo, hpath, hother, ih hrest]

/-- The same for any number of messages at other paths. -/
theorem push_record_comm {findings : List Finding} (h : path ∈ r.paths)
    (hne : ∀ finding ∈ findings, path ≠ finding.path) :
    (r.push path message).record findings = (r.record findings).push path message := by
  induction findings generalizing r with
  | nil => rfl
  | cons finding rest ih =>
      rw [List.forall_mem_cons] at hne
      rw [record_cons, record_cons, ← push_comm h hne.1]
      refine ih ?_ hne.2
      rw [paths_push]
      split
      · exact h
      · exact List.mem_append_left _ h

theorem mem_paths_push (r : Report) (path message : String) : path ∈ (r.push path message).paths := by
  rw [paths_push]
  split
  · assumption
  · simp

theorem mem_paths_record_errors {errors : List String} (h : errors ≠ []) :
    path ∈ (r.record (errors.map fun message => ⟨path, message⟩)).paths := by
  cases errors using List.reverseRecOn with
  | nil => exact absurd rfl h
  | append_singleton errors message =>
      rw [List.map_append, record_append]
      exact mem_paths_push _ _ _

variable {f : String → String}

/-- Recording the findings of a report to which one was added. -/
theorem record_pushTo (hf : Function.Injective f) {issues : List Issue} (h : Tidy ⟨issues⟩)
    (r : Report) :
    r.record (findingsOf ((pushTo path message issues).map (Issue.mapPath f))) =
      (r.record (findingsOf (issues.map (Issue.mapPath f)))).push (f path) message := by
  induction issues generalizing r with
  | nil => rfl
  | cons first rest ih =>
      have hnodup : first.path ∉ rest.map Issue.path ∧ (rest.map Issue.path).Nodup :=
        List.nodup_cons.mp h.nodup
      have herrors := List.forall_mem_cons.mp h.errors
      by_cases hpath : first.path = path
      · subst hpath
        rw [pushTo, if_pos rfl, List.map_cons, List.map_cons, findingsOf_cons, findingsOf_cons,
          record_append, record_append]
        simp only [Issue.mapPath, List.map_append, record_append, List.map_cons, List.map_nil,
          record_cons, record_nil]
        refine push_record_comm (mem_paths_record_errors herrors.1) fun finding hfinding heq => ?_
        obtain ⟨mapped, hmapped, hpath⟩ := path_of_mem_findingsOf hfinding
        obtain ⟨issue, hissue, rfl⟩ := List.mem_map.mp hmapped
        have hsame : first.path = issue.path := hf (heq.trans hpath.symm)
        exact hnodup.1 (hsame ▸ List.mem_map_of_mem hissue)
      · rw [pushTo, if_neg hpath, List.map_cons, List.map_cons, findingsOf_cons, findingsOf_cons,
          record_append, record_append]
        exact ih ⟨hnodup.2, herrors.2⟩ _

/-- **Findings may be grouped before they are recorded**, also under other paths, as long as those
are as different as before. -/
theorem record_regrouped (hf : Function.Injective f) (r : Report) (findings : List Finding) :
    r.record (findingsOf ((ofFindings findings).issues.map (Issue.mapPath f))) =
      r.record (findings.map (Finding.mapPath f)) := by
  -- on the findings, from the end: each is pushed to what is grouped already
  induction findings using List.reverseRecOn with
  | nil => rfl
  | append_singleton findings finding ih =>
      have hlast : ofFindings (findings ++ [finding]) =
          (ofFindings findings).push finding.path finding.message := record_append _ _ _
      rw [hlast, List.map_append, record_append, ← ih]
      exact record_pushTo hf (tidy_ofFindings findings) r

/-- The same for several lists of findings, each under paths of its own. -/
theorem record_flatMap_regrouped {ι : Type} (parts : List ι) {f : ι → String → String}
    (hf : ∀ part ∈ parts, Function.Injective (f part)) (findings : ι → List Finding) (r : Report) :
    r.record (findingsOf (parts.flatMap fun part =>
        (ofFindings (findings part)).issues.map (Issue.mapPath (f part)))) =
      r.record (parts.flatMap fun part => (findings part).map (Finding.mapPath (f part))) := by
  induction parts generalizing r with
  | nil => rfl
  | cons part rest ih =>
      rw [List.forall_mem_cons] at hf
      rw [List.flatMap_cons, List.flatMap_cons, findingsOf_append, record_append, record_append,
        record_regrouped hf.1]
      exact ih hf.2 _

end Report

end RouteContract
