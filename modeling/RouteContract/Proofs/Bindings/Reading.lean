import Mathlib.Tactic.SplitIfs
import RouteContract.Bindings.Renderer

/-!
# Reading -- the text of a type as a reader of TypeScript sees it

A reader goes through a text once and takes each character for code, for part of a string literal or
for part of a comment (`Reading.read`). From that follow what is left without the comments
(`Reading.uncommented`) and whether a bar stands outside all brackets (`Reading.hasOuterBar`). Both
are worked out piece by piece: a text is `Closed` if what follows it is read as if it stood alone,
and `Level` if it closes the brackets that it opens. The text of a literal is both, has no comments
and shows no bar, whatever is in it (`Reading.quiet_text`), and so is everything in front of the type
of a member but its description. A description is put in its comment as it is; it is a comment to
its end if it has not the end of one in it (`Reading.Contained`).
-/

namespace RouteContract

namespace Reading

/-! ## Code, string literals and comments -/

/-- What a character of a text is part of. -/
inductive Role where
  | code
  | literal
  | comment
deriving DecidableEq

/-- Where a reader stands. -/
inductive Place where
  /-- In code. -/
  | code
  /-- In a string literal, to the quote that ends it. -/
  | literal (quote : Char)
  /-- In a comment. -/
  | comment

/-- The characters that begin a string literal, and end it again. -/
def isQuote (c : Char) : Bool := c = '"' || c = '\x27' || c = '\x60'

/-- **Every character of a text with its role.** A comment begins with a slash and a star outside a
string literal, ends with the next star and slash, and takes one space after it along. In a string
literal a backslash speaks for the character after it. -/
def read : Place → List Char → List (Role × Char)
  | _, [] => []
  | .code, '/' :: '*' :: rest => (.comment, '/') :: (.comment, '*') :: read .comment rest
  | .code, c :: rest =>
    if isQuote c then (.literal, c) :: read (.literal c) rest else (.code, c) :: read .code rest
  | .literal quote, '\\' :: c :: rest =>
    (.literal, '\\') :: (.literal, c) :: read (.literal quote) rest
  | .literal quote, c :: rest =>
    (.literal, c) :: read (if c = quote then .code else .literal quote) rest
  | .comment, '*' :: '/' :: ' ' :: rest =>
    (.comment, '*') :: (.comment, '/') :: (.comment, ' ') :: read .code rest
  | .comment, '*' :: '/' :: rest => (.comment, '*') :: (.comment, '/') :: read .code rest
  | .comment, c :: rest => (.comment, c) :: read .comment rest

/-- What is left of a text without its comments. -/
def visible (l : List (Role × Char)) : List Char :=
  (l.filter fun x => decide (x.1 ≠ .comment)).map Prod.snd

/-- The text without its comments. -/
def uncommented (text : String) : String := String.ofList (visible (read .code text.toList))

/-- The characters that open a level. -/
def isOpening (c : Char) : Bool := c = '(' || c = '[' || c = '\x7b' || c = '<'

/-- The characters that close a level. -/
def isClosing (c : Char) : Bool := c = ')' || c = ']' || c = '\x7d' || c = '>'

/-- The depth after a character. -/
def depthAfter (depth : Nat) (c : Char) : Nat :=
  if isOpening c then depth + 1 else if isClosing c then depth - 1 else depth

/-- Whether a bar stands in code outside all brackets, from some depth on. -/
def barFrom : Nat → List (Role × Char) → Bool
  | _, [] => false
  | depth, (.code, c) :: rest => (c = '|' && depth = 0) || barFrom (depthAfter depth c) rest
  | depth, (_, _) :: rest => barFrom depth rest

/-- **A bar stands outside** all brackets, string literals and comments of the text. -/
def hasOuterBar (text : String) : Bool := barFrom 0 (read .code text.toList)

example : uncommented "\x7b /** a | b */ \"/*\": string \x7d" = "\x7b \"/*\": string \x7d" := by
  decide

example : hasOuterBar "\x7b /** a | b */ \"/*\": string | null \x7d[] | \"|\"" = true := by decide

/-! ## Steps of the reader -/

section Steps

variable {c : Char} {w : List Char}

/-- A character that is code wherever code is read. -/
def isPlain (c : Char) : Bool := !isQuote c && c ≠ '/'

theorem read_code_cons (h : isPlain c = true) (rest : List Char) :
    read .code (c :: rest) = (.code, c) :: read .code rest := by
  simp only [isPlain, Bool.and_eq_true, Bool.not_eq_true', decide_eq_true_eq] at h
  rw [read]
  · rw [if_neg (by rw [h.1]; exact Bool.false_ne_true)]
  · exact fun _ hslash _ => h.2 hslash

theorem read_literal_cons (hquote : c ≠ '"') (hescape : c ≠ '\\') (rest : List Char) :
    read (.literal '"') (c :: rest) = (.literal, c) :: read (.literal '"') rest := by
  rw [read]
  · rw [if_neg hquote]
  · exact fun _ _ hbackslash _ => hescape hbackslash

theorem read_comment_cons (h : ∀ rest', c = '*' → w ≠ '/' :: rest') :
    read .comment (c :: w) = (.comment, c) :: read .comment w := by
  rw [read]
  · exact fun rest' hstar hslash => h _ hstar hslash
  · exact fun rest' hstar hslash => h _ hstar hslash

theorem read_code_of_plain (h : ∀ c ∈ w, isPlain c = true) (rest : List Char) :
    read .code (w ++ rest) = w.map (.code, ·) ++ read .code rest := by
  induction w with
  | nil => rfl
  | cons c w ih =>
      rw [List.forall_mem_cons] at h
      rw [List.cons_append, read_code_cons h.1, ih h.2]
      rfl

/-- An escaped character stays inside the literal. -/
theorem read_literal_escapeChar (c : Char) (rest : List Char) :
    read (.literal '"') (Json.escapeChar c ++ rest) =
      (Json.escapeChar c).map (.literal, ·) ++ read (.literal '"') rest := by
  have hdigit : ∀ n : Nat, ∀ rest, read (.literal '"') (Nat.digitChar (n % 16) :: rest) =
      (.literal, Nat.digitChar (n % 16)) :: read (.literal '"') rest := by
    intro n rest
    have hne : ∀ d < 16, Nat.digitChar d ≠ '"' ∧ Nat.digitChar d ≠ '\\' := by decide
    obtain ⟨hquote, hescape⟩ := hne (n % 16) (Nat.mod_lt n (by decide))
    exact read_literal_cons hquote hescape rest
  unfold Json.escapeChar
  split_ifs with hquote hescape
  -- escapes of two characters, then the one with four digits, then all others
  iterate 7 rfl
  · show (.literal, '\\') :: (.literal, 'u') :: read (.literal '"') (Json.hex4 c.toNat ++ rest) = _
    show (.literal, '\\') :: (.literal, 'u') :: read (.literal '"') (_ :: _ :: _ :: _ :: rest) = _
    rw [hdigit, hdigit, hdigit, hdigit]
    rfl
  · exact read_literal_cons hquote hescape rest

theorem read_literal_escaped (w rest : List Char) :
    read (.literal '"') (w.flatMap Json.escapeChar ++ '"' :: rest) =
      (w.flatMap Json.escapeChar ++ ['"']).map (.literal, ·) ++ read .code rest := by
  induction w with
  | nil => rfl
  | cons c w ih =>
      rw [List.flatMap_cons, List.append_assoc, read_literal_escapeChar, ih]
      simp only [List.map_append, List.append_assoc]

/-- A comment without the end of one goes on to the end that is put behind it. -/
theorem read_comment_closed (h : ¬['*', '/'] <:+: w) (rest : List Char) :
    read .comment (w ++ ' ' :: '*' :: '/' :: ' ' :: rest) =
      (w ++ [' ', '*', '/', ' ']).map (.comment, ·) ++ read .code rest := by
  induction w with
  | nil => rfl
  | cons c w ih =>
      have hrest : ¬['*', '/'] <:+: w := fun hin => h (hin.trans (List.suffix_cons c w).isInfix)
      rw [List.cons_append, read_comment_cons, ih hrest]
      · rfl
      · rintro rest' rfl hslash
        cases w with
        | nil => cases hslash
        | cons d w =>
            cases hslash
            exact h ⟨[], w, rfl⟩

end Steps

/-! ## Texts that are read by themselves -/

/-- A text that leaves the reader in code: what follows is read as if it stood alone. -/
def Closed (text : String) : Prop :=
  ∀ rest, read .code (text.toList ++ rest) = read .code text.toList ++ read .code rest

/-- A text that can be passed by at any depth, and shows a bar outside all brackets or does not. -/
def Level (text : String) (bar : Bool) : Prop :=
  ∀ depth rest, barFrom depth (read .code text.toList ++ rest) =
    ((decide (depth = 0) && bar) || barFrom depth rest)

/-- **A flat text** is read by itself and shows no bar. -/
structure Flat (text : String) : Prop where
  closed : Closed text
  level : Level text false

/-- **A quiet text** is flat and has no comments. -/
structure Quiet (text : String) : Prop extends Flat text where
  uncommented : uncommented text = text

section Texts

variable {text text' : String} {role : Role} {bar bar' : Bool}

theorem Closed.read_append (h : Closed text) (text' : String) :
    read .code (text ++ text').toList = read .code text.toList ++ read .code text'.toList := by
  rw [String.toList_append, h]

theorem Closed.append (h : Closed text) (h' : Closed text') : Closed (text ++ text') := by
  intro rest
  rw [h.read_append, String.toList_append, List.append_assoc, h, h', List.append_assoc]

theorem Closed.uncommented_append (h : Closed text) (text' : String) :
    uncommented (text ++ text') = uncommented text ++ uncommented text' := by
  unfold uncommented visible
  rw [h.read_append, List.filter_append, List.map_append, String.ofList_append]

theorem Level.append (h : Level text bar) (hclosed : Closed text) (h' : Level text' bar') :
    Level (text ++ text') (bar || bar') := by
  intro depth rest
  rw [hclosed.read_append, List.append_assoc, h, h', Bool.and_or_distrib_left, Bool.or_assoc]

theorem Quiet.append (h : Quiet text) (h' : Quiet text') : Quiet (text ++ text') where
  closed := h.closed.append h'.closed
  level := h.level.append h.closed h'.level
  uncommented := by rw [h.closed.uncommented_append, h.uncommented, h'.uncommented]

/-! ### Texts of one role -/

/-- All characters of a text have one role, and what follows is read as if it stood alone. -/
def Uniform (role : Role) (text : String) : Prop :=
  ∀ rest, read .code (text.toList ++ rest) = text.toList.map (role, ·) ++ read .code rest

/-- What is all code, or all literal, is left as it is. -/
theorem visible_map (h : role ≠ .comment) (w : List Char) : visible (w.map (role, ·)) = w := by
  have hkept : ∀ x ∈ w.map (role, ·), decide (x.1 ≠ .comment) = true := by
    intro x hx
    obtain ⟨c, _, rfl⟩ := List.mem_map.mp hx
    exact decide_eq_true h
  rw [visible, List.filter_eq_self.mpr hkept, List.map_map]
  exact List.map_id w

theorem visible_map_comment (w : List Char) : visible (w.map (.comment, ·)) = [] := by
  induction w with
  | nil => rfl
  | cons c w ih => exact ih

/-- Literals and comments have no bars and no brackets. -/
theorem barFrom_map (h : role ≠ .code) (w : List Char) (depth : Nat) (rest : List (Role × Char)) :
    barFrom depth (w.map (role, ·) ++ rest) = barFrom depth rest := by
  induction w with
  | nil => rfl
  | cons c w ih =>
      rw [List.map_cons, List.cons_append, barFrom, ih]
      exact fun hcode => h hcode

theorem Uniform.read_eq (h : Uniform role text) :
    read .code text.toList = text.toList.map (role, ·) := by
  have hnil := h []
  rwa [List.append_nil, read, List.append_nil] at hnil

theorem Uniform.closed (h : Uniform role text) : Closed text := by
  intro rest
  rw [h.read_eq, h]

theorem Uniform.uncommented_eq (h : Uniform role text) (hrole : role ≠ .comment) :
    uncommented text = text := by
  rw [uncommented, h.read_eq, visible_map hrole, String.ofList_toList]

theorem Uniform.flat (h : Uniform role text) (hrole : role ≠ .code) : Flat text where
  closed := h.closed
  level := by
    intro depth rest
    rw [h.read_eq, barFrom_map hrole, Bool.and_false, Bool.false_or]

/-! ### Characters of code -/

/-- A character of code that is no bar and no bracket. -/
def isInert (c : Char) : Bool := isPlain c && c ≠ '|' && !isOpening c && !isClosing c

/-- All characters of a text are code wherever code is read. -/
def Plain (text : String) : Prop := ∀ c ∈ text.toList, isPlain c = true

/-- All characters of a text are inert. -/
def Inert (text : String) : Prop := ∀ c ∈ text.toList, isInert c = true

instance : DecidablePred Plain := fun text =>
  decidable_of_iff (text.toList.all isPlain = true) List.all_eq_true

instance : DecidablePred Inert := fun text =>
  decidable_of_iff (text.toList.all isInert = true) List.all_eq_true

theorem Inert.plain (h : Inert text) : Plain text := by
  intro c hc
  have hinert := h c hc
  simp only [isInert, Bool.and_eq_true] at hinert
  exact hinert.1.1.1

theorem Plain.uniform (h : Plain text) : Uniform .code text := read_code_of_plain h

theorem Plain.closed (h : Plain text) : Closed text := h.uniform.closed

theorem Plain.uncommented_eq (h : Plain text) : uncommented text = text :=
  h.uniform.uncommented_eq (by decide)

theorem barFrom_of_inert {w : List Char} (h : ∀ c ∈ w, isInert c = true) (depth : Nat)
    (rest : List (Role × Char)) :
    barFrom depth (w.map (.code, ·) ++ rest) = barFrom depth rest := by
  induction w with
  | nil => rfl
  | cons c w ih =>
      rw [List.forall_mem_cons] at h
      have hinert := h.1
      simp only [isInert, Bool.and_eq_true, decide_eq_true_eq, Bool.not_eq_true'] at hinert
      have hdepth : depthAfter depth c = depth := by simp [depthAfter, hinert]
      rw [List.map_cons, List.cons_append, barFrom, hdepth, ih h.2]
      simp [hinert]

theorem Inert.quiet (h : Inert text) : Quiet text where
  closed := h.plain.closed
  uncommented := h.plain.uncommented_eq
  level := by
    intro depth rest
    rw [h.plain.uniform.read_eq, barFrom_of_inert h, Bool.and_false, Bool.false_or]

/-! ### Quoted texts and comments -/

theorem uniform_quote (s : String) : Uniform .literal (Json.quote s) := by
  intro rest
  rw [Json.quote, String.toList_ofList]
  show (.literal, '"') :: read (.literal '"') ((_ ++ ['"']) ++ rest) = _
  rw [List.append_assoc, List.singleton_append, read_literal_escaped]
  rfl

theorem quiet_quote (s : String) : Quiet (Json.quote s) where
  toFlat := (uniform_quote s).flat (by decide)
  uncommented := (uniform_quote s).uncommented_eq (by decide)

/-- A description has no end of a comment in it. -/
def Contained (description : String) : Prop := ¬['*', '/'] <:+: description.toList

instance : DecidablePred Contained := fun description =>
  inferInstanceAs (Decidable ¬['*', '/'] <:+: description.toList)

/-- The reader is through with a comment at its end and not before. -/
theorem uniform_comment {description : String} (h : Contained description) :
    Uniform .comment ("/** " ++ description ++ " */ ") := by
  intro rest
  -- the star and the blank that begin the comment do not end it either
  have hbody : ¬['*', '/'] <:+: '*' :: ' ' :: description.toList := by
    rw [List.infix_cons_iff, List.infix_cons_iff]
    rintro (hstar | hblank | hin)
    · obtain ⟨_, heq⟩ := hstar
      cases heq
    · obtain ⟨_, heq⟩ := hblank
      cases heq
    · exact h hin
  rw [String.toList_append, String.toList_append, List.append_assoc, List.append_assoc]
  exact congrArg (fun l => (.comment, '/') :: (.comment, '*') :: l) (read_comment_closed hbody rest)

theorem flat_comment {description : String} (h : Contained description) :
    Flat ("/** " ++ description ++ " */ ") :=
  (uniform_comment h).flat (by decide)

theorem uncommented_comment {description : String} (h : Contained description) :
    uncommented ("/** " ++ description ++ " */ ") = "" := by
  rw [uncommented, (uniform_comment h).read_eq, visible_map_comment]

/-! ### Brackets -/

/-- A text that ends one level deeper than it began. -/
structure Opens (text : String) : Prop where
  closed : Closed text
  level : ∀ depth rest, barFrom depth (read .code text.toList ++ rest) = barFrom (depth + 1) rest

/-- A text that ends one level less deep than it began. -/
structure Closes (text : String) : Prop where
  closed : Closed text
  level : ∀ depth rest, barFrom (depth + 1) (read .code text.toList ++ rest) = barFrom depth rest

/-- What is put in brackets shows no bar. -/
theorem Level.enclosed {before after : String} (hbefore : Opens before) (h : Level text bar)
    (hclosed : Closed text) (hafter : Closes after) : Flat (before ++ text ++ after) where
  closed := (hbefore.closed.append hclosed).append hafter.closed
  level := by
    intro depth rest
    rw [(hbefore.closed.append hclosed).read_append, hbefore.closed.read_append, List.append_assoc,
      List.append_assoc, hbefore.level, h, hafter.level]
    simp

theorem opens_parenthesis : Opens "(" := ⟨fun _ => rfl, fun _ _ => rfl⟩
theorem opens_record : Opens "Record<string, " := ⟨fun _ => rfl, fun _ _ => rfl⟩
theorem opens_object : Opens "\x7b " := ⟨fun _ => rfl, fun _ _ => rfl⟩
theorem closes_parenthesis : Closes ")[]" := ⟨fun _ => rfl, fun _ _ => rfl⟩
theorem closes_record : Closes ">" := ⟨fun _ => rfl, fun _ _ => rfl⟩
theorem closes_object : Closes " \x7d" := ⟨fun _ => rfl, fun _ _ => rfl⟩
theorem opens_bracket : Opens "[" := ⟨fun _ => rfl, fun _ _ => rfl⟩
theorem closes_bracket : Closes "]" := ⟨fun _ => rfl, fun _ _ => rfl⟩
theorem opens_brace : Opens "\x7b" := ⟨fun _ => rfl, fun _ _ => rfl⟩
theorem closes_brace : Closes "\x7d" := ⟨fun _ => rfl, fun _ _ => rfl⟩

/-! ### Lists of texts -/

/-- What holds of texts and of what is put between them holds of them together. -/
theorem intercalate_induct {P : String → Prop} {sep : String} (hempty : P "")
    (happend : ∀ text text', P text → P text' → P (text ++ text')) (hsep : P sep)
    {texts : List String} (h : ∀ text ∈ texts, P text) : P (sep.intercalate texts) := by
  induction texts with
  | nil => exact hempty
  | cons text rest ih =>
      rw [List.forall_mem_cons] at h
      cases rest with
      | nil =>
          rw [String.intercalate_singleton]
          exact h.1
      | cons text' rest =>
          rw [String.intercalate_cons_cons]
          exact happend _ _ (happend _ _ h.1 hsep) (ih h.2)

theorem quiet_empty : Quiet "" := ⟨⟨fun _ => rfl, fun _ _ => by simp [read]⟩, rfl⟩

theorem Quiet.intercalate {sep : String} (hsep : Quiet sep) {texts : List String}
    (h : ∀ text ∈ texts, Quiet text) : Quiet (sep.intercalate texts) :=
  intercalate_induct quiet_empty (fun _ _ => Quiet.append) hsep h

/-! ### Values -/

/-- The characters that are not inert. -/
def delimiters : List Char :=
  ['"', '\x27', '\x60', '/', '|', '(', '[', '\x7b', '<', ')', ']', '\x7d', '>']

theorem isInert_of_not_mem {c : Char} (h : c ∉ delimiters) : isInert c = true := by
  simp only [delimiters, List.mem_cons, not_or] at h
  simp [isInert, isPlain, isQuote, isOpening, isClosing, h]

/-- No letter and no digit is a delimiter. -/
theorem isInert_of_isAlphanum {c : Char} (h : c.isAlphanum = true) : isInert c = true := by
  have hnone : (delimiters.all fun d => !d.isAlphanum) = true := by decide
  refine isInert_of_not_mem fun hmem => ?_
  have hother := List.all_eq_true.mp hnone c hmem
  rw [h] at hother
  cases hother

theorem isInert_of_isDigit {c : Char} (h : c.isDigit = true) : isInert c = true :=
  isInert_of_isAlphanum (by rw [Char.isAlphanum, h, Bool.or_true])

theorem Inert.append (h : Inert text) (h' : Inert text') : Inert (text ++ text') := by
  intro c hc
  rw [String.toList_append, List.mem_append] at hc
  exact hc.elim (h c) (h' c)

theorem inert_ofList {w : List Char} (h : ∀ c ∈ w, c.isDigit = true) : Inert (String.ofList w) := by
  intro c hc
  rw [String.toList_ofList] at hc
  exact isInert_of_isDigit (h c hc)

theorem inert_nat (n : Nat) : Inert (toString n) := by
  rw [Nat.toString_eq_ofList_toDigits]
  exact inert_ofList fun c hc => Nat.isDigit_of_mem_toDigits (by decide) (by decide) hc

theorem inert_int (n : Int) : Inert (toString n) := by
  cases n with
  | ofNat n => exact inert_nat n
  | negSucc n => exact (by decide : Inert "-").append (inert_nat (n + 1))

theorem inert_digits (n : Nat) {w : List Char} (h : ∀ c ∈ w, c ∈ Nat.toDigits 10 n ∨ c = '0') :
    Inert (String.ofList w) := by
  refine inert_ofList fun c hc => ?_
  rcases h c hc with hdigit | rfl
  · exact Nat.isDigit_of_mem_toDigits (by decide) (by decide) hdigit
  · rfl

theorem inert_exponent {mantissa fraction : String} (h : Inert mantissa) (h' : Inert fraction)
    (negative : Prop) [Decidable negative] (n : Nat) :
    Inert (mantissa ++ fraction ++ "e" ++ (if negative then "-" else "+") ++ toString n) := by
  have hletter : Inert "e" := by decide
  have hsign : Inert (if negative then "-" else "+") := by split <;> decide
  exact (((h.append h').append hletter).append hsign).append (inert_nat n)

/-- In every layout a decimal is digits, a point, a sign and a letter. -/
theorem inert_decimal (layout : DecimalLayout) (digits : Nat) (k : Int) :
    Inert (layout.text digits k) := by
  have hpoint : Inert "." := by decide
  have hzero : ∀ n c, c ∈ List.replicate n '0' → c = '0' := fun n c => List.eq_of_mem_replicate
  unfold DecimalLayout.text
  dsimp only
  split
  · split_ifs
    · refine Inert.append (inert_digits digits fun c hc => ?_) (by decide)
      exact (List.mem_append.mp hc).imp_right (hzero _ c)
    · refine ((inert_digits digits fun c hc => ?_).append hpoint).append
        (inert_digits digits fun c hc => ?_)
      · exact .inl (List.mem_of_mem_take hc)
      · exact .inl (List.mem_of_mem_drop hc)
    · refine Inert.append (by decide) (inert_digits digits fun c hc => ?_)
      exact (List.mem_append.mp hc).elim (fun h => .inr (hzero _ c h)) .inl
  · refine inert_exponent (inert_digits digits fun c hc => .inl (List.mem_of_mem_take hc)) ?_ _ _
    split
    · decide
    · exact hpoint.append (inert_digits digits fun c hc => .inl (List.mem_of_mem_drop hc))

theorem inert_number (n : Number) : Inert n.text := by
  cases n with
  | int n => exact inert_int n
  | float x =>
      have hmagnitude : Inert (if x.isZero then "0.0" else
          Number.layout.text x.shortest.1 x.shortest.2) := by
        split
        · decide
        · exact inert_decimal _ _ _
      show Inert (if x.negative then "-" ++ _ else _)
      split
      · exact Inert.append (by decide) hmagnitude
      · exact hmagnitude

theorem Quiet.bracketed {before after : String} (hbefore : Opens before) (h : Quiet text)
    (hafter : Closes after) (hplain : Plain before) (hplain' : Plain after) :
    Quiet (before ++ text ++ after) where
  toFlat := h.level.enclosed hbefore h.closed hafter
  uncommented := by
    rw [(hbefore.closed.append h.closed).uncommented_append, hbefore.closed.uncommented_append,
      h.uncommented, hplain.uncommented_eq, hplain'.uncommented_eq]

theorem quiet_comma : Quiet "," := Inert.quiet (by decide)

mutual

/-- **The text of a value is quiet.** -/
theorem quiet_text : ∀ v : Json, Quiet v.text
  | .null => Inert.quiet (by decide)
  | .bool true => Inert.quiet (by decide)
  | .bool false => Inert.quiet (by decide)
  | .num n => (inert_number n).quiet
  | .str s => quiet_quote s
  | .arr xs => (quiet_comma.intercalate (quiet_elementTexts xs)).bracketed
      opens_bracket closes_bracket (by decide) (by decide)
  | .obj ms => (quiet_comma.intercalate (quiet_memberTexts ms)).bracketed
      opens_brace closes_brace (by decide) (by decide)

theorem quiet_elementTexts : ∀ xs : List Json, ∀ text ∈ Json.elementTexts xs, Quiet text
  | [] => nofun
  | x :: rest => List.forall_mem_cons.mpr ⟨quiet_text x, quiet_elementTexts rest⟩

theorem quiet_memberTexts : ∀ ms : List (String × Json), ∀ text ∈ Json.memberTexts ms, Quiet text
  | [] => nofun
  | (k, v) :: rest => List.forall_mem_cons.mpr
      ⟨((quiet_quote k).append (Inert.quiet (by decide))).append (quiet_text v),
        quiet_memberTexts rest⟩

end

/-! ### Names -/

theorem inert_of_isIdentifier {name : String} (h : TypeExpr.isIdentifier name = true) :
    Inert name := by
  have hstart : ∀ c, TypeExpr.isIdentifierStart c = true → TypeExpr.isIdentifierChar c = true := by
    intro c hc
    simp only [TypeExpr.isIdentifierStart, TypeExpr.isIdentifierChar, Char.isAlphanum,
      Bool.or_eq_true] at hc ⊢
    exact hc.imp_left fun h => h.imp_left .inl
  have hchar : ∀ c, TypeExpr.isIdentifierChar c = true → isInert c = true := by
    intro c hc
    simp only [TypeExpr.isIdentifierChar, Bool.or_eq_true, beq_iff_eq] at hc
    rcases hc with (halphanum | rfl) | rfl
    · exact isInert_of_isAlphanum halphanum
    · decide
    · decide
  intro c hc
  unfold TypeExpr.isIdentifier at h
  cases hname : name.toList with
  | nil =>
      rw [hname] at hc
      cases hc
  | cons d rest =>
      rw [hname] at h hc
      rw [Bool.and_eq_true, List.all_eq_true] at h
      rcases List.mem_cons.mp hc with rfl | hrest
      · exact hchar c (hstart c h.1)
      · exact hchar c (h.2 c hrest)

/-- What stands in front of the type of a member, apart from its comment. -/
def label (name : String) (required : Bool) : String :=
  TypeExpr.propertyKey name ++ (if required then "" else "?") ++ ": "

theorem quiet_label (name : String) (required : Bool) : Quiet (label name required) := by
  have hkey : Quiet (TypeExpr.propertyKey name) := by
    unfold TypeExpr.propertyKey
    split
    · next hname => exact (inert_of_isIdentifier hname).quiet
    · exact quiet_quote name
  have hmarker : Quiet (if required then "" else "?") := by
    cases required <;> exact Inert.quiet (by decide)
  exact (hkey.append hmarker).append (Inert.quiet (by decide))

theorem member_none (name : String) (required : Bool) (type : TypeExpr) :
    TypeExpr.member name none required type = label name required ++ type.text := by
  simp [TypeExpr.member, label]

theorem member_some (name description : String) (required : Bool) (type : TypeExpr) :
    TypeExpr.member name (some description) required type =
      "/** " ++ description ++ " */ " ++ (label name required ++ type.text) := by
  simp [TypeExpr.member, label, String.append_assoc]

end Texts

end Reading

/-! ## Schemas that can be read -/

namespace Render

open Reading (Contained)

/-- A schema directly inside another one, on one side of every codec. -/
inductive Part : Direction → Schema → Schema → Prop
  | option {side options q f d s} : s ∈ options → Part side ⟨.oneOf options, q, f, d⟩ s
  | items {side items q f d} : Part side ⟨.array items, q, f, d⟩ items
  | property {side properties q f d} {p : String × Schema} :
      p ∈ properties → Part side ⟨.object properties, q, f, d⟩ p.2
  | values {side values q f d} : Part side ⟨.map values, q, f, d⟩ values
  | encoded {encoded decoded dec enc q f d} :
      Part .encode ⟨.transform encoded decoded dec enc, q, f, d⟩ encoded
  | decoded {encoded decoded dec enc q f d} :
      Part .decode ⟨.transform encoded decoded dec enc, q, f, d⟩ decoded
  | parent {name parent dec q f d} : Part .encode ⟨.custom name parent dec, q, f, d⟩ parent

/-- **A legible node**: the name of a definition is one of the given names, and no description of a
property has the end of a comment in it. Neither is checked when a schema is built, and both stand
in the text of a type as they are. -/
structure LegibleNode (Name : String → Prop) (t : Schema) : Prop where
  name : ∀ name target, t.kind = .lazy name target → Name name
  description : ∀ properties, t.kind = .object properties →
    ∀ p ∈ properties, ∀ text, p.2.description = some text → Contained text

theorem legibleNode_object {Name : String → Prop} {properties : List (String × Schema)} {q : Bool}
    {f : Option Refinement} {d : Option String}
    (h : ∀ p ∈ properties, ∀ text, p.2.description = some text → Contained text) :
    LegibleNode Name ⟨.object properties, q, f, d⟩ where
  name := nofun
  description := by
    intro properties' hkind
    exact Kind.object.inj hkind ▸ h

end Render

end RouteContract
