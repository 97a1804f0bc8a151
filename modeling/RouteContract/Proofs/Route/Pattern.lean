import Mathlib.Data.List.Forall2
import RouteContract.Proofs.Route.Segments
import RouteContract.Proofs.Text.Runs
import RouteContract.Route.Pattern

/-!
# Pattern -- what a pattern matches

A path matches a pattern when it is made of pieces, one for each segment and with a slash before
each, that fit the segments (`Segment.Fits`); what the parameters stand for is captured
(`matchSegments_eq_some_iff`, `leaf?_eq_some_iff`). Matching a mount and then a leaf on the path that
the mount leaves is matching the segments of both at once (`leaf?_append`).
-/

namespace RouteContract

/-! ## Results -/

section Results

variable {ε α β : Type} {b : β}

theorem exists_of_map {x : Except ε α} {f : α → β} (h : x.map f = .ok b) :
    ∃ a, x = .ok a ∧ f a = b := by
  cases x with
  | error e => cases h
  | ok a => exact ⟨a, rfl, Except.ok.inj h⟩

theorem exists_of_bind {x : Except ε α} {f : α → Except ε β} (h : (x >>= f) = .ok b) :
    ∃ a, x = .ok a ∧ f a = .ok b := by
  cases x with
  | error e => cases h
  | ok a => exact ⟨a, rfl, h⟩

theorem mapM_eq_ok_iff {f : α → Except ε β} {as : List α} {bs : List β} :
    as.mapM f = .ok bs ↔ List.Forall₂ (fun a b => f a = .ok b) as bs := by
  induction as generalizing bs with
  | nil =>
      rw [List.mapM_nil, List.forall₂_nil_left_iff]
      exact ⟨fun h => (Except.ok.inj h).symm, fun h => h ▸ rfl⟩
  | cons a as ih =>
      rw [List.mapM_cons, List.forall₂_cons_left_iff]
      constructor
      · intro h
        obtain ⟨b, hb, h⟩ := exists_of_bind h
        obtain ⟨bs, hbs, h⟩ := exists_of_bind h
        cases h
        exact ⟨b, bs, hb, ih.mp hbs, rfl⟩
      · rintro ⟨b, bs, hb, hbs, rfl⟩
        rw [hb, ih.mpr hbs]
        rfl

end Results

theorem Text.length_eq_of_sameLetters {as bs : List Char} (h : Text.sameLetters as bs = true) :
    as.length = bs.length := by
  induction as generalizing bs with
  | nil => cases bs with
    | nil => rfl
    | cons b bs => cases h
  | cons a as ih => cases bs with
    | nil => cases h
    | cons b bs =>
        simp only [Text.sameLetters, Bool.and_eq_true] at h
        rw [List.length_cons, List.length_cons, ih h.2]

/-! ## Segments and pieces of a path -/

namespace Segment

/-- A segment as it is written in a path. -/
def text : Segment → String
  | literal text => text
  | param name => ":" ++ name

/-- Whether a piece of a path, without the slash before it, stands for the segment: a literal up to
case, a parameter for any text without a slash. -/
def Fits : Segment → List Char → Prop
  | literal text, piece => Text.sameLetters text.toList piece = true
  | param _, piece => piece ≠ [] ∧ '/' ∉ piece

/-- What the segment captures of a piece. -/
def capture : Segment → List Char → List (String × String)
  | literal _, _ => []
  | param name, piece => [(name, String.ofList piece)]

end Segment

namespace PathPattern

/-- What segments capture of pieces, in order. -/
def captures (segments : List Segment) (pieces : List (List Char)) : List (String × String) :=
  (List.zipWith Segment.capture segments pieces).flatten

/-- Whether a path could be cut before the given characters: at its end or before a slash. -/
def AtBoundary (cs : List Char) : Prop := ∀ c ∈ cs.head?, c = '/'

theorem atBoundary_cons {c : Char} {cs : List Char} : AtBoundary (c :: cs) ↔ c = '/' := by
  simp [AtBoundary]

theorem atBoundary_pieces (pieces : List (List Char)) {rest : List Char} (h : AtBoundary rest) :
    AtBoundary (pieces.flatMap ('/' :: ·) ++ rest) := by
  cases pieces with
  | nil => exact h
  | cons piece others => exact atBoundary_cons.mpr rfl

theorem AtBoundary.stops {rest : List Char} (h : AtBoundary rest) :
    Text.Stops (fun c => c != '/') rest := by
  intro c hc
  rw [h c hc]
  rfl

theorem takeWhile_piece {piece rest : List Char} (h : '/' ∉ piece) (hrest : AtBoundary rest) :
    (piece ++ rest).takeWhile (fun c => c != '/') = piece :=
  Text.takeWhile_run (fun _ hc => bne_iff_ne.mpr (ne_of_mem_of_not_mem hc h)) hrest.stops

theorem dropWhile_piece {piece rest : List Char} (h : '/' ∉ piece) (hrest : AtBoundary rest) :
    (piece ++ rest).dropWhile (fun c => c != '/') = rest :=
  Text.dropWhile_run (fun _ hc => bne_iff_ne.mpr (ne_of_mem_of_not_mem hc h)) hrest.stops

/-! ## Matching segments -/

/-- A segment takes a fitting piece off the front, and the others go on behind it. -/
theorem matchSegments_cons_of_fits {s : Segment} {piece : List Char} (hfits : s.Fits piece)
    {tail : List Char} (htail : AtBoundary tail) (others : List Segment) :
    matchSegments (s :: others) ('/' :: (piece ++ tail)) =
      (matchSegments others tail).map fun r => (s.capture piece ++ r.1, r.2) := by
  cases s with
  | literal text =>
      have hlength : text.toList.length = piece.length := Text.length_eq_of_sameLetters hfits
      have hsame : Text.sameLetters text.toList piece = true := hfits
      rw [matchSegments, hlength, List.take_left, List.drop_left, if_pos hsame]
      simp [Segment.capture]
  | param name =>
      obtain ⟨hne, hslash⟩ := hfits
      rw [matchSegments, takeWhile_piece hslash htail, dropWhile_piece hslash htail,
        if_neg (by simpa using hne)]
      rfl

/-- What a segment took off the front is a fitting piece. -/
theorem exists_piece_of_matchSegments {s : Segment} {others : List Segment} {cs rest : List Char}
    {found : List (String × String)} (h : matchSegments (s :: others) cs = some (found, rest)) :
    ∃ piece tail found', cs = '/' :: (piece ++ tail) ∧ s.Fits piece ∧
      matchSegments others tail = some (found', rest) ∧ found = s.capture piece ++ found' := by
  cases cs with
  | nil => cases s <;> cases h
  | cons c cs =>
      obtain rfl : c = '/' := by
        by_contra hc
        cases s <;> simp [matchSegments, hc] at h
      cases s with
      | literal text =>
          rw [matchSegments] at h
          split at h
          · next hsame => exact ⟨_, _, found, by rw [List.take_append_drop], hsame, h, rfl⟩
          · cases h
      | param name =>
          rw [matchSegments] at h
          split at h
          · cases h
          · next hvalue =>
              obtain ⟨⟨found', rest'⟩, htail, heq⟩ := Option.map_eq_some_iff.mp h
              cases heq
              refine ⟨_, _, found', by rw [List.takeWhile_append_dropWhile], ⟨?_, ?_⟩, htail, rfl⟩
              · simpa using hvalue
              · intro hslash
                simpa using List.mem_takeWhile_imp hslash

/-- **Segments match** what is made of fitting pieces, with a slash before each of them. -/
theorem matchSegments_eq_some_iff {segments : List Segment} {cs rest : List Char}
    {found : List (String × String)} (hrest : AtBoundary rest) :
    matchSegments segments cs = some (found, rest) ↔
      ∃ pieces, List.Forall₂ Segment.Fits segments pieces ∧
        cs = pieces.flatMap ('/' :: ·) ++ rest ∧ found = captures segments pieces := by
  induction segments generalizing cs found with
  | nil =>
      constructor
      · intro h
        cases h
        exact ⟨[], .nil, rfl, rfl⟩
      · rintro ⟨_, ⟨⟩, rfl, rfl⟩
        rfl
  | cons s others ih =>
      constructor
      · intro h
        obtain ⟨piece, tail, found', rfl, hfits, htail, rfl⟩ := exists_piece_of_matchSegments h
        obtain ⟨pieces, hall, rfl, rfl⟩ := ih.mp htail
        exact ⟨piece :: pieces, .cons hfits hall, by simp, rfl⟩
      · rintro ⟨_, hall, rfl, rfl⟩
        cases hall with
        | @cons _ piece _ pieces hfits hothers =>
            have htail := ih.mpr ⟨pieces, hothers, rfl, rfl⟩
            rw [List.flatMap_cons, List.cons_append, List.cons_append, List.append_assoc,
              matchSegments_cons_of_fits hfits (atBoundary_pieces pieces hrest), htail]
            rfl

theorem leaf?_eq (p : PathPattern) (path : String) :
    p.leaf? path = (matchSegments p.segments path.toList).bind fun r =>
      if r.2 = [] ∨ r.2 = ['/'] then some r.1 else none := by
  unfold leaf?
  split
  · next h => simp [h]
  · next h => simp [h]
  · next h₁ h₂ =>
      cases hmatch : matchSegments p.segments path.toList with
      | none => rfl
      | some r =>
          obtain ⟨found, rest⟩ := r
          have hrest : ¬ (rest = [] ∨ rest = ['/']) := by
            rintro (rfl | rfl)
            · exact h₁ found hmatch
            · exact h₂ found hmatch
          simp [hrest]

/-- **A leaf matches** a path that is made of fitting pieces, with or without a slash at its end. -/
theorem leaf?_eq_some_iff {p : PathPattern} {path : String} {found : List (String × String)} :
    p.leaf? path = some found ↔
      ∃ pieces last, List.Forall₂ Segment.Fits p.segments pieces ∧ (last = [] ∨ last = ['/']) ∧
        path.toList = pieces.flatMap ('/' :: ·) ++ last ∧ found = captures p.segments pieces := by
  have hboundary : ∀ last, last = [] ∨ last = ['/'] → AtBoundary last := by
    rintro _ (rfl | rfl) <;> simp [AtBoundary]
  rw [leaf?_eq, Option.bind_eq_some_iff]
  constructor
  · rintro ⟨⟨found', last⟩, hmatch, hended⟩
    split at hended
    · next hlast =>
        cases hended
        obtain ⟨pieces, hall, hpath, rfl⟩ :=
          (matchSegments_eq_some_iff (hboundary last hlast)).mp hmatch
        exact ⟨pieces, last, hall, hlast, hpath, rfl⟩
    · cases hended
  · rintro ⟨pieces, last, hall, hlast, hpath, rfl⟩
    exact ⟨(_, last), (matchSegments_eq_some_iff (hboundary last hlast)).mpr
      ⟨pieces, hall, hpath, rfl⟩, if_pos hlast⟩

/-! ## Mounts -/

/-- **A mount matches** a path that begins with fitting pieces and goes on, without a line break, at
a slash; of a path that ends there a slash is left. -/
theorem mount?_eq_some_iff {m : PathPattern} {path rest : String} {found : List (String × String)} :
    m.mount? path = some (found, rest) ↔
      ∃ pieces tail, List.Forall₂ Segment.Fits m.segments pieces ∧ AtBoundary tail ∧
        '\n' ∉ tail ∧ path.toList = pieces.flatMap ('/' :: ·) ++ tail ∧
        rest = (if tail = [] then "/" else String.ofList tail) ∧
        found = captures m.segments pieces := by
  have hends : m.mount? path = some (found, rest) ↔ ∃ tail, AtBoundary tail ∧ '\n' ∉ tail ∧
      rest = (if tail = [] then "/" else String.ofList tail) ∧
      matchSegments m.segments path.toList = some (found, tail) := by
    unfold mount?
    cases matchSegments m.segments path.toList with
    | none => simp
    | some r =>
        obtain ⟨found', tail⟩ := r
        match tail with
        | [] => simp [AtBoundary, and_comm, eq_comm]
        | c :: tail =>
            by_cases hc : c = '/'
            · subst hc
              by_cases hline : '\n' ∈ tail
              · simp [hline]
              · simp [hline, AtBoundary, and_comm, eq_comm]
            · simp [hc, AtBoundary]
  rw [hends]
  constructor
  · rintro ⟨tail, hboundary, hline, hrest, h⟩
    obtain ⟨pieces, hall, hpath, hfound⟩ := (matchSegments_eq_some_iff hboundary).mp h
    exact ⟨pieces, tail, hall, hboundary, hline, hpath, hrest, hfound⟩
  · rintro ⟨pieces, tail, hall, hboundary, hline, hpath, hrest, hfound⟩
    exact ⟨tail, hboundary, hline, hrest,
      (matchSegments_eq_some_iff hboundary).mpr ⟨pieces, hall, hpath, hfound⟩⟩

/-- What segments leave is the end of the path. -/
theorem exists_append_of_matchSegments {segments : List Segment} {cs rest : List Char}
    {found : List (String × String)} (h : matchSegments segments cs = some (found, rest)) :
    ∃ front, cs = front ++ rest := by
  induction segments generalizing cs found with
  | nil =>
      cases h
      exact ⟨[], rfl⟩
  | cons s others ih =>
      obtain ⟨piece, tail, found', rfl, _, htail, _⟩ := exists_piece_of_matchSegments h
      obtain ⟨front, rfl⟩ := ih htail
      exact ⟨'/' :: (piece ++ front), by simp⟩

theorem matchSegments_append (first second : List Segment) (cs : List Char) :
    matchSegments (first ++ second) cs =
      (matchSegments first cs).bind fun r =>
        (matchSegments second r.2).map fun q => (r.1 ++ q.1, q.2) := by
  induction first generalizing cs with
  | nil =>
      show matchSegments second cs = (matchSegments second cs).map fun q => q
      rw [Option.map_id']
  | cons s others ih =>
      cases cs with
      | nil => cases s <;> rfl
      | cons c cs =>
          by_cases hc : c = '/'
          · subst hc
            cases s with
            | literal text =>
                rw [List.cons_append, matchSegments, matchSegments]
                split
                · exact ih _
                · rfl
            | param name =>
                rw [List.cons_append, matchSegments, matchSegments]
                split
                · rfl
                · rw [ih, Option.map_bind, Option.bind_map]
                  simp [Function.comp_def]
          · cases s <;> simp [matchSegments, hc]

/-- Where a path ends or a slash is all that is left, only a pattern without segments matches. -/
theorem matchSegments_last {segments : List Segment} (hsegments : ∀ s ∈ segments, s.text ≠ "")
    {last : List Char} (hlast : last = [] ∨ last = ['/']) :
    matchSegments segments last = if segments = [] then some ([], last) else none := by
  cases segments with
  | nil => rfl
  | cons s others =>
      rw [if_neg (List.cons_ne_nil _ _)]
      rcases hlast with rfl | rfl
      · cases s <;> rfl
      · cases s with
        | literal text =>
            cases htext : text.toList with
            | nil => exact absurd (String.toList_eq_nil_iff.mp htext) (hsegments _ List.mem_cons_self)
            | cons c cs => simp [matchSegments, htext, Text.sameLetters]
        | param name => rfl

/-- Between slashes only a pattern without segments matches. -/
theorem matchSegments_of_ne_slash (segments : List Segment) {c : Char} (hc : c ≠ '/')
    (cs : List Char) :
    matchSegments segments (c :: cs) = if segments = [] then some ([], c :: cs) else none := by
  cases segments with
  | nil => rfl
  | cons s others => cases s <;> simp [matchSegments, hc]

/-- **A leaf behind a mount** matches what the mount leaves of the path, and captures after it. -/
theorem leaf?_append {mount leaf joined : PathPattern} {path : String}
    (hjoined : joined.segments = mount.segments ++ leaf.segments)
    (hleaf : ∀ s ∈ leaf.segments, s.text ≠ "") (hline : '\n' ∉ path.toList) :
    joined.leaf? path =
      (mount.mount? path).bind fun m => (leaf.leaf? m.2).map fun found => m.1 ++ found := by
  have hslash : ("/" : String).toList = ['/'] := rfl
  rw [leaf?_eq, hjoined, matchSegments_append, mount?]
  cases hmount : matchSegments mount.segments path.toList with
  | none => rfl
  | some r =>
      obtain ⟨found, rest⟩ := r
      match rest with
      -- The mount takes the whole path: the leaf sees a slash, and in one piece nothing would be left.
      | [] =>
          simp only [Option.bind_some, leaf?_eq, hslash,
            matchSegments_last hleaf (.inl rfl), matchSegments_last hleaf (.inr rfl)]
          split <;> simp
      | c :: rest =>
          by_cases hc : c = '/'
          · subst hc
            obtain ⟨front, hpath⟩ := exists_append_of_matchSegments hmount
            have hrest : rest.contains '\n' = false := by
              simpa using fun h => hline (by rw [hpath]; simp [h])
            simp only [Option.bind_some, hrest, Bool.false_eq_true, if_false, leaf?_eq,
              String.toList_ofList]
            cases matchSegments leaf.segments ('/' :: rest) with
            | none => rfl
            | some q =>
                simp only [Option.map_some, Option.bind_some]
                split <;> rfl
          · simp only [Option.bind_some, matchSegments_of_ne_slash leaf.segments hc]
            split <;> simp [hc]

/-! ## Reading -/

/-- A segment is read from its own text. -/
theorem text_of_segment? {text : String} {s : Segment} (h : segment? text = .ok s) :
    s.text = text := by
  unfold segment? at h
  split at h
  · next name htext =>
      split at h
      · cases h
        rw [← String.toList_inj, Segment.text, htext]
        simp
      · cases h
  · cases h
    rfl

/-- What is written with a colon in front is a parameter. -/
theorem head?_of_segment? {text literal : String} (h : segment? text = .ok (.literal literal)) :
    text.toList.head? ≠ some ':' := by
  unfold segment? at h
  split at h
  · split at h <;> cases h
  · next htext =>
      intro hhead
      obtain ⟨name, hname⟩ := List.head?_eq_some_iff.mp hhead
      exact htext name hname

/-- Whether a pattern is what its path is read as. -/
def Written (p : PathPattern) : Prop := parse p.path = .ok p

theorem path_of_parse {path : String} {p : PathPattern} (h : parse path = .ok p) : p.path = path := by
  obtain ⟨_, _, rfl⟩ := exists_of_map h
  rfl

theorem written_of_parse {path : String} {p : PathPattern} (h : parse path = .ok p) : p.Written := by
  rw [Written, path_of_parse h, h]

theorem written_iff {p : PathPattern} :
    p.Written ↔ List.Forall₂ (fun text s => segment? text = .ok s) (Path.segments p.path)
      p.segments := by
  rw [← mapM_eq_ok_iff]
  constructor
  · intro h
    obtain ⟨segments, hsegments, heq⟩ := exists_of_map h
    rw [hsegments, ← congrArg PathPattern.segments heq]
  · intro h
    rw [Written, parse, h]
    rfl

theorem Written.texts {p : PathPattern} (h : p.Written) :
    p.segments.map Segment.text = Path.segments p.path := by
  have hread := (written_iff.mp h).imp fun _ _ => text_of_segment?
  rw [← List.forall₂_eq_eq_eq, List.forall₂_map_left_iff]
  exact hread.flip

theorem Written.isSegment {p : PathPattern} (h : p.Written) {s : Segment} (hs : s ∈ p.segments) :
    Path.IsSegment s.text :=
  Path.isSegment_of_mem_segments (h.texts ▸ List.mem_map_of_mem hs)

/-- The pattern of a path below mounts, the outermost first. -/
def below (mounts : List PathPattern) (p : PathPattern) : PathPattern :=
  ⟨Path.joinAll (mounts.map path ++ [p.path]), mounts.flatMap segments ++ p.segments⟩

/-- The pattern of a joined path is that of its parts in turn. -/
theorem Written.below {mounts : List PathPattern} {p : PathPattern}
    (hmounts : ∀ m ∈ mounts, m.Written) (h : p.Written) : (below mounts p).Written := by
  rw [written_iff, PathPattern.below, Path.segments_joinAll, List.flatMap_append,
    List.flatMap_singleton, List.flatMap_map]
  refine List.rel_append ?_ (written_iff.mp h)
  induction mounts with
  | nil => exact .nil
  | cons m others ih =>
      obtain ⟨hm, hothers⟩ := List.forall_mem_cons.mp hmounts
      exact List.rel_append (written_iff.mp hm) (ih hothers)

end PathPattern

end RouteContract
