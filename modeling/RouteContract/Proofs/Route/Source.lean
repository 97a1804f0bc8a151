import RouteContract.Proofs.Route.Pattern
import RouteContract.Proofs.Route.Reconstruction

/-!
# Source -- the template that is read from a path

`PathPattern.source` writes the pattern of a mounted path. It is a pattern of the language that is
read back (`PathPattern.Written.source_eq`): a slash and the characters of the text for a literal, a
slash and a capture in a group for a parameter. So reading the source gives back the path
(`PathPattern.Written.reconstruct_source`).
-/

namespace RouteContract

/-- Anything without a slash: what a parameter stands for. -/
def CaptureBody.segment : CaptureBody where
  text := "[^\\/]+?".toList
  balanced := @Balanced.bracket ['^', '\\', '/'] ['+', '?']
    (.plain (by decide) (by decide) (.escape .nil)) (.plain (by decide) (.plain (by decide) .nil))
  plain := by decide
  noLookahead := by decide

namespace Piece

/-- The characters of a text; slashes are left out. -/
def literals (text : List Char) : List Piece :=
  text.filterMap fun c => if h : c ≠ '/' then some (.literal c h) else none

theorem literals_cons {c : Char} (h : c ≠ '/') (text : List Char) :
    literals (c :: text) = .literal c h :: literals text :=
  List.filterMap_cons_some (dif_pos h)

theorem printAll_literals {text : List Char} (h : '/' ∉ text) :
    printAll (literals text) = text.flatMap PathPattern.escaped := by
  induction text with
  | nil => rfl
  | cons c text ih =>
      obtain ⟨hc, htext⟩ := not_or.mp (List.mem_cons.not.mp h)
      rw [literals_cons (Ne.symm hc), printAll, print, ih htext, List.flatMap_cons]

theorem outlineAll_literals {text : List Char} (h : '/' ∉ text) :
    outlineAll (literals text) = text.map some := by
  induction text with
  | nil => rfl
  | cons c text ih =>
      obtain ⟨hc, htext⟩ := not_or.mp (List.mem_cons.not.mp h)
      rw [literals_cons (Ne.symm hc), outlineAll, outline, ih htext]
      rfl

end Piece

theorem fill_map_some_append (text : List Char) (outline : List (Option Char))
    (names : List String) : fill (text.map some ++ outline) names = text ++ fill outline names := by
  induction text with
  | nil => rfl
  | cons c text ih => exact congrArg (c :: ·) ih

/-! ## Segments -/

namespace Segment

/-- The pieces of a segment, with the slash in front. -/
def pieces : Segment → List Piece
  | literal text => .slash false :: Piece.literals text.toList
  | param _ => [.slash false, .group [.capture .segment false] false]

theorem printAll_pieces {s : Segment} (h : '/' ∉ s.text.toList) :
    Piece.printAll s.pieces = PathPattern.segmentSource s := by
  cases s with
  | param name => rfl
  | literal text =>
      have htext : '/' ∉ text.toList := h
      rw [pieces, Piece.printAll, Piece.printAll_literals htext]
      rfl

/-- A literal needs no name, and a parameter takes one. -/
theorem fill_pieces {s : Segment} (h : '/' ∉ s.text.toList) (path : String)
    (others : List Segment) (outline : List (Option Char)) :
    fill (Piece.outlineAll s.pieces ++ outline) (PathPattern.names ⟨path, s :: others⟩) =
      '/' :: (s.text.toList ++ fill outline (PathPattern.names ⟨path, others⟩)) := by
  cases s with
  | param name =>
      rw [text, String.toList_append]
      rfl
  | literal text =>
      have htext : '/' ∉ text.toList := h
      have hnames : PathPattern.names ⟨path, .literal text :: others⟩ =
          PathPattern.names ⟨path, others⟩ := rfl
      rw [pieces, Piece.outlineAll, Piece.outlineAll_literals htext, hnames]
      exact congrArg ('/' :: ·) (fill_map_some_append _ _ _)

theorem count_pieces {s : Segment} (h : '/' ∉ s.text.toList) (path : String)
    (others : List Segment) :
    (Piece.outlineAll s.pieces).count none + (PathPattern.names ⟨path, others⟩).length =
      (PathPattern.names ⟨path, s :: others⟩).length := by
  cases s with
  | param name => exact Nat.add_comm _ _
  | literal text =>
      have htext : '/' ∉ text.toList := h
      have hnone : (text.toList.map some).count none = 0 := List.count_eq_zero.mpr (by simp)
      rw [pieces, Piece.outlineAll, Piece.outlineAll_literals htext, Piece.outline,
        List.singleton_append, List.count_cons_of_ne (by simp), hnone, Nat.zero_add]
      rfl

end Segment

/-! ## Paths -/

namespace PathPattern

/-- A mounted path as a pattern of the language. -/
def toHost (p : PathPattern) : HostPattern where
  pieces := p.segments.flatMap Segment.pieces
  ending := .before "(?=\\/|$)".toList List.mem_cons_self
  flags := some ⟨['i'], by decide⟩

variable {segments : List Segment} (h : ∀ s ∈ segments, '/' ∉ s.text.toList)
include h

theorem printAll_pieces :
    Piece.printAll (segments.flatMap Segment.pieces) = segments.flatMap segmentSource := by
  induction segments with
  | nil => rfl
  | cons s others ih =>
      obtain ⟨hs, hothers⟩ := List.forall_mem_cons.mp h
      rw [List.flatMap_cons, Piece.printAll_append, Segment.printAll_pieces hs, ih hothers,
        List.flatMap_cons]

theorem count_pieces (path : String) :
    (Piece.outlineAll (segments.flatMap Segment.pieces)).count none =
      (names ⟨path, segments⟩).length := by
  induction segments with
  | nil => rfl
  | cons s others ih =>
      obtain ⟨hs, hothers⟩ := List.forall_mem_cons.mp h
      rw [List.flatMap_cons, Piece.outlineAll_append, List.count_append, ih hothers,
        Segment.count_pieces hs]

theorem fill_pieces (path : String) (outline : List (Option Char)) :
    fill (Piece.outlineAll (segments.flatMap Segment.pieces) ++ outline) (names ⟨path, segments⟩) =
      (segments.flatMap fun s => '/' :: s.text.toList) ++ fill outline [] := by
  induction segments with
  | nil => rfl
  | cons s others ih =>
      obtain ⟨hs, hothers⟩ := List.forall_mem_cons.mp h
      rw [List.flatMap_cons, Piece.outlineAll_append, List.append_assoc, Segment.fill_pieces hs,
        ih hothers, List.flatMap_cons, List.cons_append, List.cons_append, List.append_assoc]

omit h

/-- **The source of a mounted path** is the text of a pattern of the language. -/
theorem Written.source_eq {p : PathPattern} (h : p.Written) :
    p.source = String.ofList p.toHost.print := by
  have hpieces := printAll_pieces fun s hs => (h.isSegment hs).2
  rw [HostPattern.print, toHost, HostPattern.anchored, HostPattern.path, Piece.printAll_append,
    hpieces]
  apply String.toList_injective
  simp [source, Ending.slash, Ending.anchor, Piece.printAll, Piece.print, Piece.mark]

/-- **The template of a mounted path** is the path with single slashes and one more at its end. -/
theorem Written.reconstruct_source {p : PathPattern} (h : p.Written) :
    Template.reconstruct p.source p.names =
      .ok (String.ofList (((Path.segments p.path).flatMap fun text => '/' :: text.toList) ++ ['/'])) := by
  have hslash : ∀ s ∈ p.segments, '/' ∉ s.text.toList := fun s hs => (h.isSegment hs).2
  have hcaptures : p.toHost.captures = p.names.length := count_pieces hslash p.path
  have htemplate : p.toHost.template p.names =
      (p.segments.flatMap fun s => '/' :: s.text.toList) ++ ['/'] := by
    rw [HostPattern.template, HostPattern.path, Piece.outlineAll_append]
    exact fill_pieces hslash p.path [some '/']
  rw [h.source_eq, HostPattern.reconstruct_eq, String.toList_ofList, HostPattern.body_print,
    HostPattern.sequence_print, if_pos (Nat.le_of_eq hcaptures), htemplate, ← h.texts,
    List.flatMap_map]
  cases p.segments <;> rfl

theorem Written.exists_template {p : PathPattern} (h : p.Written) :
    ∃ template, Template.reconstruct p.source p.names = .ok template ∧
      Path.segments template = Path.segments p.path :=
  ⟨_, h.reconstruct_source, Path.segments_flatMap (fun _ => Path.isSegment_of_mem_segments) (.inr rfl)⟩

end PathPattern

end RouteContract
