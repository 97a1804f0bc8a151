import Mathlib.Data.List.Induction
import RouteContract.Route.Segments

/-!
# Segments -- paths written from segments are read back

A path is determined by its segments up to slashes: `Path.ofSegments` puts one slash before each,
and `Path.segments` finds exactly those again (`segments_ofSegments`). The paths written in this way
are the normal ones (`normal_iff`). Joining paths therefore gives normal paths and concatenates
segments (`segments_join`, `joinAll_eq`).
-/

namespace RouteContract.Path

/-! ## Parts between separators -/

/-- The parts are those of the standard function that splits lists. -/
theorem splitChars_eq_splitOn (separator : Char) (cs : List Char) :
    splitChars separator cs = cs.splitOn separator := by
  induction cs with
  | nil => rfl
  | cons c rest ih =>
      rw [splitChars, List.splitOn, List.splitOnP_cons_eq_if_modifyHead, ← List.splitOn, ← ih]
      by_cases hc : c = separator
      · rw [if_pos hc, if_pos (beq_iff_eq.mpr hc)]
      · rw [if_neg hc, if_neg fun heq => hc (beq_iff_eq.mp heq)]
        cases hparts : splitChars separator rest with
        | nil => exact absurd hparts (splitChars_ne_nil separator rest)
        | cons part parts => rfl

theorem splitChars_of_not_mem {separator : Char} {part : List Char} (h : separator ∉ part) :
    splitChars separator part = [part] := by
  induction part with
  | nil => rfl
  | cons c rest ih =>
      have hne : c ≠ separator := fun heq => h (heq ▸ List.mem_cons_self)
      rw [splitChars, if_neg hne, ih fun hmem => h (List.mem_cons_of_mem c hmem)]

/-- A separator ends the part before it. -/
theorem splitChars_append_cons {separator : Char} {part : List Char} (h : separator ∉ part)
    (rest : List Char) :
    splitChars separator (part ++ separator :: rest) = part :: splitChars separator rest := by
  induction part with
  | nil => simp [splitChars]
  | cons c part ih =>
      have hne : c ≠ separator := fun heq => h (heq ▸ List.mem_cons_self)
      rw [List.cons_append, splitChars, if_neg hne, ih fun hmem => h (List.mem_cons_of_mem c hmem)]

/-- Parts with a separator before each are the parts found, after an empty one. -/
theorem splitChars_flatMap {separator : Char} {parts : List (List Char)}
    (h : ∀ part ∈ parts, separator ∉ part) :
    splitChars separator (parts.flatMap (separator :: ·)) = [] :: parts := by
  have hafter : ∀ parts : List (List Char), (∀ part ∈ parts, separator ∉ part) →
      ∀ part, separator ∉ part →
        splitChars separator (part ++ parts.flatMap (separator :: ·)) = part :: parts := by
    intro parts
    induction parts with
    | nil =>
        intro _ part hpart
        rw [List.flatMap_nil, List.append_nil, splitChars_of_not_mem hpart]
    | cons first others ih =>
        intro hparts part hpart
        obtain ⟨hfirst, hothers⟩ := List.forall_mem_cons.mp hparts
        rw [List.flatMap_cons, List.cons_append, splitChars_append_cons hpart,
          ih hothers first hfirst]
  simpa using hafter parts h [] List.not_mem_nil

/-- Putting a separator before each part writes the text again, after a separator. -/
theorem flatMap_splitChars (separator : Char) (cs : List Char) :
    (splitChars separator cs).flatMap (separator :: ·) = separator :: cs := by
  induction cs with
  | nil => rfl
  | cons c rest ih =>
      rw [splitChars]
      by_cases hc : c = separator
      · rw [if_pos hc, List.flatMap_cons, ih, hc]
        rfl
      · rw [if_neg hc]
        cases hparts : splitChars separator rest with
        | nil => exact absurd hparts (splitChars_ne_nil separator rest)
        | cons part parts =>
            rw [hparts, List.flatMap_cons, List.cons_append, List.cons.injEq] at ih
            rw [List.flatMap_cons, List.cons_append, List.cons_append, ih.2]

/-- A path is determined by its parts. -/
theorem split_injective {path path' : String} (h : split path = split path') : path = path' := by
  have hparts : splitChars '/' path.toList = splitChars '/' path'.toList :=
    (List.map_inj_right fun _ _ heq => String.ofList_injective heq).mp h
  have htext := congrArg (List.flatMap ('/' :: ·)) hparts
  rw [flatMap_splitChars, flatMap_splitChars, List.cons.injEq] at htext
  exact String.toList_injective htext.2

theorem not_mem_of_mem_split {path part : String} (h : part ∈ split path) : '/' ∉ part.toList := by
  obtain ⟨cs, hcs, rfl⟩ := List.mem_map.mp h
  rw [String.toList_ofList]
  exact not_mem_of_mem_splitChars hcs

/-! ## Segments -/

/-- A text that can stand between two slashes. -/
def IsSegment (text : String) : Prop := text ≠ "" ∧ '/' ∉ text.toList

theorem isSegment_of_mem_segments {path text : String} (h : text ∈ segments path) :
    IsSegment text := by
  obtain ⟨hsplit, hne⟩ := List.mem_filter.mp h
  obtain ⟨part, hpart, rfl⟩ := List.mem_map.mp hsplit
  refine ⟨by simpa using hne, ?_⟩
  rw [String.toList_ofList]
  exact not_mem_of_mem_splitChars hpart

theorem toList_ofSegments {parts : List String} (h : parts ≠ []) :
    (ofSegments parts).toList = parts.flatMap fun part => '/' :: part.toList := by
  induction parts with
  | nil => exact absurd rfl h
  | cons first others ih =>
      cases others with
      | nil => simp [ofSegments]
      | cons second others =>
          have hothers := ih (List.cons_ne_nil _ _)
          simp only [ofSegments, String.toList_append, String.intercalate_cons_cons] at hothers ⊢
          rw [List.flatMap_cons, ← hothers]
          simp [List.append_assoc]

/-- Parts without slashes are found again behind the slash that a path starts with. -/
theorem splitChars_ofSegments {parts : List String} (hne : parts ≠ [])
    (h : ∀ part ∈ parts, '/' ∉ part.toList) :
    splitChars '/' (ofSegments parts).toList = [] :: parts.map String.toList := by
  have hmap : (parts.flatMap fun part => '/' :: part.toList) =
      (parts.map String.toList).flatMap ('/' :: ·) := by
    rw [List.flatMap_map]
  rw [toList_ofSegments hne, hmap, splitChars_flatMap (List.forall_mem_map.mpr h)]

/-- Parts without slashes are determined by what is written from them. -/
theorem ofSegments_injective {parts parts' : List String} (hne : parts ≠ []) (hne' : parts' ≠ [])
    (h : ∀ part ∈ parts, '/' ∉ part.toList) (h' : ∀ part ∈ parts', '/' ∉ part.toList)
    (heq : ofSegments parts = ofSegments parts') : parts = parts' := by
  have hchars := splitChars_ofSegments hne h
  rw [heq, splitChars_ofSegments hne' h', List.cons.injEq] at hchars
  exact ((List.map_inj_right fun _ _ htext => String.toList_injective htext).mp hchars.2).symm

/-- The segments of a text with a slash before each of them, and perhaps one more at the end. -/
theorem segments_flatMap {parts : List String} (h : ∀ part ∈ parts, IsSegment part)
    {last : List Char} (hlast : last = [] ∨ last = ['/']) :
    segments (String.ofList ((parts.flatMap fun part => '/' :: part.toList) ++ last)) = parts := by
  have hparts : ∀ part ∈ parts.map String.toList, '/' ∉ part := by
    simpa using fun part hpart => (h part hpart).2
  have hkept : (parts.filter fun s => !s.isEmpty) = parts :=
    List.filter_eq_self.mpr fun part hpart => by simpa using (h part hpart).1
  have hmap : (parts.flatMap fun part => '/' :: part.toList) =
      (parts.map String.toList).flatMap ('/' :: ·) := by
    rw [List.flatMap_map]
  unfold segments split
  rw [String.toList_ofList, hmap]
  rcases hlast with rfl | rfl
  · rw [List.append_nil, splitChars_flatMap hparts]
    simpa [Function.comp_def] using hkept
  -- A slash at the end is one more part, and an empty one.
  · have hone : (parts.map String.toList).flatMap ('/' :: ·) ++ ['/'] =
        (parts.map String.toList ++ [[]]).flatMap ('/' :: ·) := by
      rw [List.flatMap_append]
      rfl
    have hall : ∀ part ∈ parts.map String.toList ++ [[]], '/' ∉ part := by
      intro part hpart
      rcases List.mem_append.mp hpart with hpart | hpart
      · exact hparts part hpart
      · simp [List.mem_singleton.mp hpart]
    rw [hone, splitChars_flatMap hall]
    simpa [Function.comp_def] using hkept

/-- **A path written from segments has these segments.** -/
theorem segments_ofSegments {parts : List String} (h : ∀ part ∈ parts, IsSegment part) :
    segments (ofSegments parts) = parts := by
  cases parts with
  | nil => rfl
  | cons first others =>
      have hlist := toList_ofSegments (List.cons_ne_nil first others)
      have hsegments := segments_flatMap h (.inl rfl)
      rwa [List.append_nil, ← hlist, String.ofList_toList] at hsegments

/-! ## Normal paths -/

/-- A path in normal form: a slash before each segment, and `/` if there are no segments. -/
structure Normal (path : String) : Prop where
  /-- It starts with a slash. -/
  rooted : path.toList.head? = some '/'
  /-- No part behind this slash is empty. -/
  filled : path ≠ "/" → "" ∉ (split path).tail
  /-- No slash stands at the end. -/
  closed : path ≠ "/" → path.toList.getLast? ≠ some '/'

/-- A separator at the end has an empty part behind it. -/
theorem splitChars_concat (separator : Char) (cs : List Char) :
    splitChars separator (cs ++ [separator]) = splitChars separator cs ++ [[]] := by
  induction cs with
  | nil => simp [splitChars]
  | cons c rest ih =>
      rw [List.cons_append, splitChars, splitChars, ih]
      by_cases hc : c = separator
      · rw [if_pos hc, if_pos hc, List.cons_append]
      · rw [if_neg hc, if_neg hc]
        cases hparts : splitChars separator rest with
        | nil => exact absurd hparts (splitChars_ne_nil separator rest)
        | cons part parts => rfl

theorem empty_mem_split_of_getLast? {path : String} (h : path.toList.getLast? = some '/') :
    "" ∈ (split path).tail := by
  obtain ⟨init, hpath⟩ := List.getLast?_eq_some_iff.mp h
  have hinit : (splitChars '/' init).map String.ofList ≠ [] := fun hnil =>
    splitChars_ne_nil '/' init (List.map_eq_nil_iff.mp hnil)
  rw [split, hpath, splitChars_concat, List.map_append, List.tail_append_of_ne_nil hinit]
  exact List.mem_append_right _ List.mem_cons_self

/-- What is written from segments is normal. -/
theorem normal_ofSegments {parts : List String} (h : ∀ part ∈ parts, IsSegment part) :
    Normal (ofSegments parts) := by
  cases parts with
  | nil => exact ⟨rfl, absurd rfl, absurd rfl⟩
  | cons first others =>
      have hne := List.cons_ne_nil first others
      have hfilled : "" ∉ (split (ofSegments (first :: others))).tail := by
        rw [split, splitChars_ofSegments hne fun part hpart => (h part hpart).2, List.map_cons,
          List.tail_cons, List.map_map]
        simp only [Function.comp_def, String.ofList_toList, List.map_id']
        exact fun hempty => (h "" hempty).1 rfl
      refine ⟨?_, fun _ => hfilled, fun _ hlast => hfilled (empty_mem_split_of_getLast? hlast)⟩
      rw [toList_ofSegments hne]
      rfl

/-- **Normal paths** are the ones that are written from their own segments. -/
theorem normal_iff {path : String} : Normal path ↔ ofSegments (segments path) = path := by
  constructor
  · intro h
    by_cases hroot : path = "/"
    · rw [hroot]
      rfl
    · obtain ⟨rest, hpath⟩ := List.head?_eq_some_iff.mp h.rooted
      have hsplit : split path = "" :: (splitChars '/' rest).map String.ofList := by
        rw [split, hpath, splitChars, if_pos rfl]
        rfl
      have hfilled := h.filled hroot
      rw [hsplit, List.tail_cons] at hfilled
      have hsegments : segments path = (splitChars '/' rest).map String.ofList := by
        rw [segments, hsplit, List.filter_cons_of_neg (by simp), List.filter_eq_self]
        intro part hpart
        have hne : part ≠ "" := fun hempty => hfilled (hempty ▸ hpart)
        simpa using hne
      have hne : (splitChars '/' rest).map String.ofList ≠ [] := fun hnil =>
        splitChars_ne_nil '/' rest (List.map_eq_nil_iff.mp hnil)
      apply String.toList_injective
      rw [hsegments, toList_ofSegments hne, hpath, ← flatMap_splitChars, List.flatMap_map]
      simp only [String.toList_ofList]
  · intro h
    rw [← h]
    exact normal_ofSegments fun _ => isSegment_of_mem_segments

/-! ## Joined paths -/

theorem isSegment_of_mem_append {base fragment part : String}
    (h : part ∈ segments base ++ segments fragment) : IsSegment part := by
  rcases List.mem_append.mp h with h | h
  · exact isSegment_of_mem_segments h
  · exact isSegment_of_mem_segments h

/-- **Joining paths** appends their segments. -/
theorem segments_join (base fragment : String) :
    segments (join base fragment) = segments base ++ segments fragment :=
  segments_ofSegments fun _ => isSegment_of_mem_append

theorem normal_join (base fragment : String) : Normal (join base fragment) :=
  normal_ofSegments fun _ => isSegment_of_mem_append

theorem join_assoc (base fragment path : String) :
    join (join base fragment) path = join base (join fragment path) := by
  show ofSegments (segments (join base fragment) ++ segments path) =
    ofSegments (segments base ++ segments (join fragment path))
  rw [segments_join, segments_join, List.append_assoc]

/-- Below the root, normal paths stay as they are. -/
theorem join_root {path : String} (h : Normal path) : join "/" path = path := by
  have hroot : segments "/" = [] := rfl
  rw [join, hroot, List.nil_append, normal_iff.mp h]

/-- The paths of nested routers joined, the outermost first; `/` if there are none. -/
def joinAll (fragments : List String) : String := fragments.foldl join "/"

theorem joinAll_concat (fragments : List String) (last : String) :
    joinAll (fragments ++ [last]) = join (joinAll fragments) last := by
  simp [joinAll]

theorem isSegment_of_mem_flatMap {fragments : List String} {part : String}
    (h : part ∈ fragments.flatMap segments) : IsSegment part := by
  obtain ⟨fragment, _, hmem⟩ := List.mem_flatMap.mp h
  exact isSegment_of_mem_segments hmem

/-- **A joined path** is written from the segments of all its parts. -/
theorem joinAll_eq (fragments : List String) :
    joinAll fragments = ofSegments (fragments.flatMap segments) := by
  induction fragments using List.reverseRecOn with
  | nil => rfl
  | append_singleton fragments last ih =>
      rw [joinAll_concat, ih, join, segments_ofSegments fun _ => isSegment_of_mem_flatMap,
        List.flatMap_append, List.flatMap_singleton]

theorem segments_joinAll (fragments : List String) :
    segments (joinAll fragments) = fragments.flatMap segments := by
  rw [joinAll_eq, segments_ofSegments fun _ => isSegment_of_mem_flatMap]

end RouteContract.Path
