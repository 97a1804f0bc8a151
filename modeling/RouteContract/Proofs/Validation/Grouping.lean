import RouteContract.Proofs.Entries
import RouteContract.Proofs.Validation.Report

/-!
# Grouping -- a report is its findings, grouped by path

Whatever is pushed to an empty report, and in whatever order, its issues are the paths of the
findings, each where it came first, with the messages found there in the order in which they were
found (`Report.issues_ofFindings`). So nothing is lost, said twice or moved past another message of
the same path.

Taking a report apart into its issues and putting these together again gives back the report exactly
if it is one that pushes can make: if every path has one issue and every issue says something.
Reports that are read from where they were stored need not be like that.
-/

namespace RouteContract

namespace Report

variable {r : Report} {path message : String}

/-- The messages found at a path, in the order in which they were found. -/
def messagesAt (path : String) (findings : List Finding) : List String :=
  (findings.filter fun finding => finding.path = path).map Finding.message

theorem messagesAt_concat (path : String) (findings : List Finding) (finding : Finding) :
    messagesAt path (findings ++ [finding]) =
      messagesAt path findings ++ if path = finding.path then [finding.message] else [] := by
  unfold messagesAt
  rw [List.filter_append, List.map_append]
  by_cases hpath : path = finding.path
  · simp [hpath]
  · have hpath' : ¬finding.path = path := fun heq => hpath heq.symm
    simp [hpath, hpath']

theorem messagesAt_eq_nil_iff {findings : List Finding} :
    messagesAt path findings = [] ↔ path ∉ findings.map Finding.path := by
  simp [messagesAt]

/-! ## Issues as groups -/

/-- One issue for each path, with the given messages. -/
def groups (paths : List String) (messages : String → List String) : List Issue :=
  paths.map fun path => ⟨path, messages path⟩

theorem paths_groups (paths : List String) (messages : String → List String) :
    (groups paths messages).map Issue.path = paths := by
  rw [groups, List.map_map]
  exact List.map_id _

theorem groups_append (paths others : List String) (messages : String → List String) :
    groups (paths ++ others) messages = groups paths messages ++ groups others messages :=
  List.map_append

/-- The groups of other paths do not hold a message. -/
theorem groups_add_of_not_mem {paths : List String} (h : path ∉ paths)
    (messages : String → List String) :
    (groups paths fun other => messages other ++ if other = path then [message] else []) =
      groups paths messages := by
  refine List.map_congr_left fun other hother => ?_
  have hne : ¬other = path := fun heq => h (heq ▸ hother)
  simp only [hne, if_false, List.append_nil]

/-- A push passes by the issues at other paths. -/
theorem pushTo_append {issues : List Issue} (h : path ∉ issues.map Issue.path) (message : String)
    (rest : List Issue) : pushTo path message (issues ++ rest) = issues ++ pushTo path message rest := by
  induction issues with
  | nil => rfl
  | cons first others ih =>
      rw [List.map_cons, List.mem_cons, not_or] at h
      rw [List.cons_append, pushTo, if_neg fun heq => h.1 heq.symm, ih h.2, List.cons_append]

/-- A push at a path that is not there yet makes a new group. -/
theorem pushTo_groups_of_not_mem {paths : List String} (h : path ∉ paths)
    (messages : String → List String) :
    pushTo path message (groups paths messages) = groups paths messages ++ [⟨path, [message]⟩] := by
  have hnew : path ∉ (groups paths messages).map Issue.path := by rwa [paths_groups]
  have hpushed := pushTo_append hnew message []
  rwa [List.append_nil] at hpushed

/-- A push adds its message to the group of its path. -/
theorem pushTo_groups_of_mem {paths : List String} (hnodup : paths.Nodup) (hmem : path ∈ paths)
    (messages : String → List String) :
    pushTo path message (groups paths messages) =
      groups paths fun other => messages other ++ if other = path then [message] else [] := by
  obtain ⟨before, after, rfl⟩ := List.append_of_mem hmem
  have hbefore : path ∉ before := fun h =>
    (List.nodup_append.mp hnodup).2.2 path h path List.mem_cons_self rfl
  have hafter : path ∉ after := (List.nodup_cons.mp (List.nodup_append.mp hnodup).2.1).1
  have hsplit : ∀ messages, groups (before ++ path :: after) messages =
      groups before messages ++ ⟨path, messages path⟩ :: groups after messages :=
    fun messages => groups_append before (path :: after) messages
  rw [hsplit, hsplit, groups_add_of_not_mem hbefore, groups_add_of_not_mem hafter,
    pushTo_append (by rwa [paths_groups]), pushTo, if_pos rfl, if_pos rfl]

/-- **The issues of a report** are the paths of what was recorded, each once and where it came first,
with everything that was found there. -/
theorem issues_ofFindings (findings : List Finding) :
    (ofFindings findings).issues =
      groups (findings.map Finding.path).eraseDups fun path => messagesAt path findings := by
  -- on the findings, from the end: each is pushed to the groups of those before it
  induction findings using List.reverseRecOn with
  | nil => rfl
  | append_singleton findings finding ih =>
      have hpushed : (ofFindings (findings ++ [finding])).issues =
          pushTo finding.path finding.message (ofFindings findings).issues := by
        rw [ofFindings, record_append]
        rfl
      have hnodup : (findings.map Finding.path).eraseDups.Nodup := by
        have hpaths := (tidy_ofFindings findings).nodup
        rwa [paths, ih, paths_groups] at hpaths
      rw [hpushed, ih, List.map_append, List.map_singleton, Entries.eraseDups_concat]
      simp only [messagesAt_concat]
      split
      · next hmem => exact pushTo_groups_of_mem hnodup (List.mem_eraseDups.mpr hmem) _
      · next hnew =>
          have hother : finding.path ∉ (findings.map Finding.path).eraseDups := fun h =>
            hnew (List.mem_eraseDups.mp h)
          rw [pushTo_groups_of_not_mem hother, groups_append, groups_add_of_not_mem hother]
          simp [groups, messagesAt_eq_nil_iff.mpr hnew]

example : (ofFindings [⟨"a", "1"⟩, ⟨"b", "2"⟩, ⟨"a", "3"⟩]).issues = [⟨"a", ["1", "3"]⟩, ⟨"b", ["2"]⟩] := by
  decide

theorem paths_ofFindings (findings : List Finding) :
    (ofFindings findings).paths = (findings.map Finding.path).eraseDups := by
  rw [paths, issues_ofFindings, paths_groups]

theorem errorsAt?_groups (paths : List String) (messages : String → List String) (path : String) :
    errorsAt? ⟨groups paths messages⟩ path = if path ∈ paths then some (messages path) else none := by
  unfold errorsAt?
  induction paths with
  | nil => rfl
  | cons first rest ih =>
      rw [groups, List.map_cons, List.find?_cons]
      by_cases heq : first = path
      · simp [heq]
      · have hmem : path ∈ first :: rest ↔ path ∈ rest := by
          rw [List.mem_cons, or_iff_right fun hsame => heq hsame.symm]
        simp only [beq_false_of_ne heq, hmem]
        exact ih

theorem errorsAt?_ofFindings (findings : List Finding) (path : String) :
    (ofFindings findings).errorsAt? path =
      if path ∈ findings.map Finding.path then some (messagesAt path findings) else none := by
  have hgroups : ofFindings findings = ⟨(ofFindings findings).issues⟩ := rfl
  rw [hgroups, issues_ofFindings, errorsAt?_groups]
  simp only [List.mem_eraseDups]

/-! ## Taking apart and putting together -/

/-- A push adds one finding to those of the issues. -/
theorem perm_findingsOf_pushTo (path message : String) (issues : List Issue) :
    (findingsOf (pushTo path message issues)).Perm (findingsOf issues ++ [⟨path, message⟩]) := by
  induction issues with
  | nil => exact .refl _
  | cons first rest ih =>
      rw [pushTo]
      split
      · next hpath =>
          subst hpath
          rw [findingsOf_cons, findingsOf_cons, List.map_append, List.append_assoc, List.append_assoc]
          exact List.perm_append_comm.append_left _
      · rw [findingsOf_cons, findingsOf_cons, List.append_assoc]
        exact ih.append_left _

/-- Grouping loses nothing and says nothing twice. -/
theorem perm_findingsOf_ofFindings (findings : List Finding) :
    (findingsOf (ofFindings findings).issues).Perm findings := by
  induction findings using List.reverseRecOn with
  | nil => exact .refl _
  | append_singleton findings finding ih =>
      rw [ofFindings, record_append]
      exact (perm_findingsOf_pushTo _ _ _).trans (ih.append_right _)

/-- Issues are put together by pushing their messages, one issue after the other. -/
theorem ofIssues_eq_foldl (issues : List Issue) :
    ofIssues issues =
      issues.foldl (fun r issue => issue.errors.foldl (fun r message => r.push issue.path message) r)
        {} := by
  have hissue : ∀ (r : Report) (issue : Issue), r.record (issue.errors.map (Finding.mk issue.path)) =
      issue.errors.foldl (fun r message => r.push issue.path message) r :=
    fun r issue => List.foldl_map
  have hgeneral : ∀ r : Report, r.record (findingsOf issues) =
      issues.foldl (fun r issue => issue.errors.foldl (fun r message => r.push issue.path message) r)
        r := by
    induction issues with
    | nil => exact fun r => rfl
    | cons issue rest ih =>
        intro r
        rw [findingsOf_cons, record_append, List.foldl_cons, ← hissue]
        exact ih _
  exact hgeneral {}

/-- Messages at a path that is not there yet make an issue of their own, at the end. -/
theorem record_new {errors : List String} (h : path ∉ r.paths) (herrors : errors ≠ []) :
    r.record (errors.map (Finding.mk path)) = ⟨r.issues ++ [⟨path, errors⟩]⟩ := by
  induction errors using List.reverseRecOn with
  | nil => exact absurd rfl herrors
  | append_singleton errors message ih =>
      rw [List.map_append, record_append]
      cases errors with
      | nil =>
          refine congrArg mk ?_
          have hpushed := pushTo_append h message []
          rwa [List.append_nil] at hpushed
      | cons first rest =>
          rw [ih (by simp)]
          refine congrArg mk ?_
          show pushTo path message (r.issues ++ [⟨path, first :: rest⟩]) = _
          rw [pushTo_append h, pushTo, if_pos rfl]

/-- Issues at new paths, each with something to say, are recorded as they are. -/
theorem record_findingsOf {issues : List Issue} (h : Tidy ⟨r.issues ++ issues⟩) :
    r.record (findingsOf issues) = ⟨r.issues ++ issues⟩ := by
  induction issues generalizing r with
  | nil => rw [List.append_nil]; rfl
  | cons issue rest ih =>
      have hpath : issue.path ∉ r.paths := by
        have hnodup : (r.paths ++ issue.path :: rest.map Issue.path).Nodup := by
          have hpaths := h.nodup
          rwa [paths, List.map_append] at hpaths
        exact fun hmem => (List.nodup_append.mp hnodup).2.2 _ hmem _ List.mem_cons_self rfl
      have herrors : issue.errors ≠ [] := h.errors issue (List.mem_append_right _ List.mem_cons_self)
      rw [findingsOf_cons, record_append, record_new hpath herrors]
      rw [List.append_cons] at h
      have hrest := ih (r := ⟨r.issues ++ [issue]⟩) h
      exact hrest.trans (congrArg mk (List.append_cons _ _ _).symm)

/-- **Tidy reports are what taking apart and putting together leaves as it is.** -/
theorem ofIssues_issues_iff : ofIssues r.issues = r ↔ r.Tidy := by
  refine ⟨fun h => h ▸ tidy_ofFindings _, fun h => ?_⟩
  exact record_findingsOf (r := {}) h

/-- The reports that come of an empty one by pushing messages, and those put together from issues. -/
inductive Reachable : Report → Prop
  | empty : Reachable {}
  | push {r : Report} (h : Reachable r) (path message : String) : Reachable (r.push path message)
  | ofIssues (issues : List Issue) : Reachable (ofIssues issues)

theorem reachable_iff_tidy : r.Reachable ↔ r.Tidy := by
  refine ⟨fun h => ?_, fun h => ?_⟩
  · induction h with
    | empty => exact tidy_empty
    | push _ path message ih => exact ih.push path message
    | ofIssues issues => exact tidy_ofFindings _
  · rw [← ofIssues_issues_iff.mpr h]
    exact .ofIssues _

/-- **A report groups what is pushed to it and keeps the order.** Pushing findings to an empty report
gives one issue for each path, in the order in which the paths came first. The messages at a path are
those pushed there, in the order in which they were pushed, and there are none exactly if nothing was
pushed there; all issues together hold what was pushed, no more and no less. Putting a report together
from issues pushes their messages in order, and the reports that can come of all this are those that
are put together again from their own issues. -/
theorem findings_grouped (findings : List Finding) (issues : List Issue) (r : Report) :
    (ofFindings findings).paths.Nodup ∧
      (ofFindings findings).paths = (findings.map Finding.path).eraseDups ∧
      (∀ path, (ofFindings findings).errorsAt? path =
        if path ∈ findings.map Finding.path then some (messagesAt path findings) else none) ∧
      (findingsOf (ofFindings findings).issues).Perm findings ∧
      ofIssues issues =
        issues.foldl (fun r issue => issue.errors.foldl (fun r message => r.push issue.path message) r)
          {} ∧
      (r.Reachable ↔ ofIssues r.issues = r) :=
  ⟨(tidy_ofFindings findings).nodup, paths_ofFindings findings, errorsAt?_ofFindings findings,
    perm_findingsOf_ofFindings findings, ofIssues_eq_foldl issues,
    reachable_iff_tidy.trans ofIssues_issues_iff.symm⟩

end Report

end RouteContract
