/-!
# Templates from route patterns

A host router exposes a mounted path only as the source of a regular expression, such as
`/^\/users\/(?:([^\/]+?))\/?(?=\/|$)/i`. `Template.reconstruct` reads such a source back into a
template, here `/users/:id/`: every capture becomes the next parameter name, escapes lose their
backslash, and what no path needs is refused with the cause.

The reader goes through the characters once. `Template.sequence` reads literals and groups,
`Template.capture` passes over the inside of a capture; the text of a group goes to the same output
as the text around it, so the open groups need only be counted.
-/

namespace RouteContract

/-- Why a pattern is not the pattern of a path. -/
inductive PatternError where
  /-- A group or capture is not closed. -/
  | missingClose
  /-- A group is closed that was never opened. -/
  | unexpectedClose
  /-- The pattern ends in a backslash. -/
  | danglingEscape
  /-- A backslash before a letter or digit. -/
  | characterClass (c : Char)
  /-- A character with a meaning of its own outside captures. -/
  | leftoverSyntax (c : Char)
  /-- A group that is neither a capture nor `(?:`. -/
  | unsupportedGroup
  /-- There are more captures than the given number of names. -/
  | tooManyCaptures (given : Nat)
  /-- A parameter name with characters other than ASCII letters, digits and underscores. -/
  | invalidName (name : String)
deriving DecidableEq

/-- Text of a pattern error. -/
def PatternError.message : PatternError → String
  | missingClose => "unbalanced group: missing `)`"
  | unexpectedClose => "unbalanced group: unexpected `)`"
  | danglingEscape => "dangling escape at end of pattern"
  | characterClass c => "unsupported character class `\\" ++ c.toString ++ "`"
  | leftoverSyntax c => "unsupported regex syntax `" ++ c.toString ++ "`"
  | unsupportedGroup => "unsupported group: only `(?:...)` is understood"
  | tooManyCaptures given =>
    "more capture groups than parameter names (" ++ toString given ++ " given)"
  | invalidName name => "invalid parameter name `" ++ name ++ "`"

namespace Template

/-! ## What stands around the path -/

/-- Takes off the slashes around a pattern and the flags behind them, if there are such. -/
def stripDelimiters (cs : List Char) : List Char :=
  match cs with
  | '/' :: rest =>
    let flags := (rest.reverse.takeWhile fun c => c != '/').reverse
    if flags.length < rest.length && flags.all Char.isAlpha then
      rest.take (rest.length - flags.length - 1)
    else cs
  | _ => cs

/-- Takes off one leading start mark. -/
def stripStart : List Char → List Char
  | '^' :: rest => rest
  | cs => cs

/-- Removes every occurrence of a text, from the left; `skip` counts the characters that still
belong to the last one found. -/
def removeAll (text : List Char) (skip : Nat) : List Char → List Char
  | [] => []
  | c :: rest =>
    match skip with
    | k + 1 => removeAll text k rest
    | 0 =>
      if text.isPrefixOf (c :: rest) then removeAll text (text.length - 1) rest
      else c :: removeAll text 0 rest

/-- The lookaheads that end a mounted path. -/
def endLookaheads : List (List Char) :=
  ["(?=\\/|$)", "(?=/|$)", "(?=$)"].map String.toList

/-- Takes off one end mark, unless it is escaped. -/
def stripEnd (cs : List Char) : List Char :=
  match cs.reverse with
  | '$' :: '\\' :: _ => cs
  | '$' :: rest => rest.reverse
  | _ => cs

/-- The part of a pattern that describes the path. -/
def body (source : List Char) : List Char :=
  stripEnd (endLookaheads.foldl (fun cs text => removeAll text 0 cs)
    (stripStart (stripDelimiters source)))

/-! ## The path itself -/

/-- Characters that mean something outside captures and are not understood there. -/
def isSyntax (c : Char) : Bool :=
  ['?', '*', '+', '.', '[', ']', '\x7b', '\x7d', '|', '^', '$'].contains c

/-- Puts a text in front of what follows. -/
def emit (text : List Char) (rest : Except PatternError (List Char)) :
    Except PatternError (List Char) :=
  rest.map fun out => text ++ out

mutual

/-- Reads literals and groups. `given` is the number of names in all, `names` those not yet used
and `opened` the number of open groups. -/
def sequence (given : Nat) (names : List String) (opened : Nat) :
    List Char → Except PatternError (List Char)
  | [] => if opened = 0 then .ok [] else .error .missingClose
  | '\\' :: [] => .error .danglingEscape
  | '\\' :: '/' :: '?' :: rest => emit ['/'] (sequence given names opened rest)
  | '\\' :: '/' :: rest => emit ['/'] (sequence given names opened rest)
  | '\\' :: c :: rest =>
    if c.isAlphanum then .error (.characterClass c)
    else emit [c] (sequence given names opened rest)
  | '(' :: '?' :: ':' :: rest => sequence given names (opened + 1) rest
  | '(' :: '?' :: _ => .error .unsupportedGroup
  | '(' :: rest => capture given names opened 0 false rest
  | ')' :: '?' :: rest =>
    match opened with
    | 0 => .error .unexpectedClose
    | outer + 1 => sequence given names outer rest
  | ')' :: rest =>
    match opened with
    | 0 => .error .unexpectedClose
    | outer + 1 => sequence given names outer rest
  | c :: rest =>
    if isSyntax c then .error (.leftoverSyntax c)
    else emit [c] (sequence given names opened rest)
termination_by structural cs => cs

/-- Passes over the inside of a capture. `nesting` counts the parentheses open inside it and
`inClass` says whether a character class is open, in which parentheses stand for themselves. -/
def capture (given : Nat) (names : List String) (opened nesting : Nat) (inClass : Bool) :
    List Char → Except PatternError (List Char)
  | [] => .error .missingClose
  | '\\' :: [] => .error .missingClose
  | '\\' :: _ :: rest => capture given names opened nesting inClass rest
  | '[' :: rest => capture given names opened nesting true rest
  | ']' :: rest => capture given names opened nesting false rest
  | '(' :: rest =>
    capture given names opened (if inClass then nesting else nesting + 1) inClass rest
  | ')' :: '?' :: rest =>
    if inClass then capture given names opened nesting inClass rest
    else match nesting with
      | outer + 1 => capture given names opened outer inClass rest
      | 0 =>
        match names with
        | [] => .error (.tooManyCaptures given)
        | name :: others => emit (':' :: name.toList) (sequence given others opened rest)
  | ')' :: rest =>
    if inClass then capture given names opened nesting inClass rest
    else match nesting with
      | outer + 1 => capture given names opened outer inClass rest
      | 0 =>
        match names with
        | [] => .error (.tooManyCaptures given)
        | name :: others => emit (':' :: name.toList) (sequence given others opened rest)
  | _ :: rest => capture given names opened nesting inClass rest
termination_by structural cs => cs

end

/-- The template of a pattern, with the given parameter names in the order of the captures. -/
def reconstruct (source : String) (names : List String) : Except PatternError String :=
  match sequence names.length names 0 (body source.toList) with
  | .error e => .error e
  | .ok ('/' :: rest) => .ok (String.ofList ('/' :: rest))
  | .ok out => .ok (String.ofList ('/' :: out))

end Template

end RouteContract
