import RouteContract.Route.Pattern

/-!
# Language -- the patterns of mounted paths

Host routers write the path of a mount as a regular expression of a small kind: characters, slashes,
captures, and groups around such things, any capture or group being optional (`Piece`). What stands
inside a capture is arbitrary, apart from balanced parentheses (`CaptureBody`). `HostPattern` is the
language, `HostPattern.print` the text of a pattern, and `HostPattern.template` the path that it
stands for, with names in the places of the captures.
-/

namespace RouteContract

/-! ## Inside a capture -/

/-- Text between the brackets of a character class: every escape is complete, and no bracket closes
the class. -/
inductive ClassText : List Char → Prop
  | nil : ClassText []
  | plain {c rest} (hescape : c ≠ '\\') (hclose : c ≠ ']') (h : ClassText rest) :
      ClassText (c :: rest)
  | escape {c rest} (h : ClassText rest) : ClassText ('\\' :: c :: rest)

/-- Text whose parentheses are balanced, outside escapes and character classes; every escape is
complete and every class closed. -/
inductive Balanced : List Char → Prop
  | nil : Balanced []
  | plain {c rest} (hc : c ∉ ['\\', '[', '(', ')']) (h : Balanced rest) : Balanced (c :: rest)
  | escape {c rest} (h : Balanced rest) : Balanced ('\\' :: c :: rest)
  | bracket {inside rest} (hinside : ClassText inside) (h : Balanced rest) :
      Balanced ('[' :: (inside ++ ']' :: rest))
  | parens {inside rest} (hinside : Balanced inside) (h : Balanced rest) :
      Balanced ('(' :: (inside ++ ')' :: rest))

/-- What stands between the parentheses of a capture. -/
structure CaptureBody where
  /-- The text between the parentheses. -/
  text : List Char
  /-- No parenthesis closes the capture early, and none is left open. -/
  balanced : Balanced text
  /-- The parenthesis before it opens a capture and no other kind of group. -/
  plain : text.head? ≠ some '?'
  /-- No lookahead begins in it. -/
  noLookahead : ¬ ['(', '?', '='] <:+: text

/-! ## Pieces -/

/-- Text of one character: with a backslash if it means something in a regular expression. -/
def PathPattern.escaped (c : Char) : List Char := if isMeta c then ['\\', c] else [c]

/-- A piece of the pattern of a path. -/
inductive Piece where
  /-- A character of the path. -/
  | literal (c : Char) (h : c ≠ '/')
  /-- A slash of the path. -/
  | slash (optional : Bool)
  /-- A parameter. -/
  | capture (body : CaptureBody) (optional : Bool)
  /-- Pieces that belong together. -/
  | group (content : List Piece) (optional : Bool)

/-- Induction over a piece with the hypothesis for every piece inside. -/
@[elab_as_elim, induction_eliminator]
theorem Piece.induct {P : Piece → Prop} (literal : ∀ c h, P (.literal c h))
    (slash : ∀ optional, P (.slash optional)) (capture : ∀ body optional, P (.capture body optional))
    (group : ∀ content optional, (∀ p ∈ content, P p) → P (.group content optional)) (p : Piece) :
    P p := by
  refine @Piece.rec P (fun ps => ∀ p ∈ ps, P p) literal slash capture
    (fun ps o h => group ps o h) ?_ ?_ p
  · simp
  · intro p ps hp hps
    exact List.forall_mem_cons.mpr ⟨hp, hps⟩

namespace Piece

/-- The mark behind something that is optional. -/
def mark (optional : Bool) : List Char := if optional then ['?'] else []

mutual

/-- Text of a piece. -/
def print : Piece → List Char
  | literal c _ => PathPattern.escaped c
  | slash optional => '\\' :: '/' :: mark optional
  | capture body optional => '(' :: (body.text ++ ')' :: mark optional)
  | group content optional => '(' :: '?' :: ':' :: (printAll content ++ ')' :: mark optional)
termination_by structural p => p

/-- Text of pieces one after the other. -/
def printAll : List Piece → List Char
  | [] => []
  | p :: rest => print p ++ printAll rest
termination_by structural ps => ps

end

mutual

/-- The path that a piece stands for: its characters, and the places of its parameters. -/
def outline : Piece → List (Option Char)
  | literal c _ => [some c]
  | slash _ => [some '/']
  | capture _ _ => [none]
  | group content _ => outlineAll content
termination_by structural p => p

/-- The path that pieces stand for one after the other. -/
def outlineAll : List Piece → List (Option Char)
  | [] => []
  | p :: rest => outline p ++ outlineAll rest
termination_by structural ps => ps

end

theorem printAll_append (ps qs : List Piece) : printAll (ps ++ qs) = printAll ps ++ printAll qs := by
  induction ps with
  | nil => rfl
  | cons p ps ih => rw [List.cons_append, printAll, printAll, ih, List.append_assoc]

theorem outlineAll_append (ps qs : List Piece) :
    outlineAll (ps ++ qs) = outlineAll ps ++ outlineAll qs := by
  induction ps with
  | nil => rfl
  | cons p ps ih => rw [List.cons_append, outlineAll, outlineAll, ih, List.append_assoc]

end Piece

/-- A path with names in the places of its parameters, in order. -/
def fill : List (Option Char) → List String → List Char
  | [], _ => []
  | some c :: outline, names => c :: fill outline names
  | none :: outline, name :: names => ':' :: (name.toList ++ fill outline names)
  | none :: outline, [] => fill outline []

/-! ## Patterns -/

/-- What a pattern of a path ends with. -/
inductive Ending where
  /-- Nothing. -/
  | nothing
  /-- A slash that may be missing, and the end of the path. -/
  | exact
  /-- A slash that may be missing, and one of the lookaheads for a slash or the end. -/
  | before (lookahead : List Char) (h : lookahead ∈ Template.endLookaheads)

namespace Ending

/-- The slash at the end. -/
def slash : Ending → List Piece
  | nothing => []
  | exact | before _ _ => [.slash true]

/-- Text behind the slash. -/
def anchor : Ending → List Char
  | nothing => []
  | exact => ['$']
  | before lookahead _ => lookahead

end Ending

/-- **A pattern of a host router.** -/
structure HostPattern where
  /-- What the pattern says about the path. -/
  pieces : List Piece
  /-- How it ends. -/
  ending : Ending
  /-- The flags, if the pattern is written with slashes around it. -/
  flags : Option {flags : List Char // flags.all Char.isAlpha = true}

namespace HostPattern

/-- The pieces with the slash at the end. -/
def path (p : HostPattern) : List Piece := p.pieces ++ p.ending.slash

/-- Text of the pattern without slashes around it. -/
def anchored (p : HostPattern) : List Char := '^' :: (Piece.printAll p.path ++ p.ending.anchor)

/-- Text of the pattern. -/
def print (p : HostPattern) : List Char :=
  match p.flags with
  | none => p.anchored
  | some flags => '/' :: (p.anchored ++ '/' :: flags)

/-- Number of parameters. -/
def captures (p : HostPattern) : Nat := (Piece.outlineAll p.pieces).count none

/-- The path of the pattern with names in the places of its captures. -/
def template (p : HostPattern) (names : List String) : List Char :=
  fill (Piece.outlineAll p.path) names

/-- A text with a slash in front, if it has none yet. -/
def rooted : List Char → String
  | '/' :: rest => String.ofList ('/' :: rest)
  | cs => String.ofList ('/' :: cs)

end HostPattern

end RouteContract
