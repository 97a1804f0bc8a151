import Mathlib.Data.List.Infix
import Mathlib.Data.List.TakeWhile
import RouteContract.Route.Template

/-!
# Reading -- what reading a pattern does with one piece of its text

`Template.reconstruct` takes off what stands around a path and then goes through the rest once. The
lemmas of this module say what each of its functions does with a text that begins in a given way, in
terms of what it does with the text behind it (`removeAll_cons_of_ne`, `sequence_cons`,
`capture_pass`, ...). A question mark behind a slash or a parenthesis belongs to it (`dropMark`), so
it matters what a text is followed by.
-/

namespace RouteContract

namespace Template

variable {c : Char} {rest : List Char}

/-! ## What stands around the path -/

theorem stripDelimiters_append {path flags : List Char} (hslash : '/' ∉ flags)
    (halpha : flags.all Char.isAlpha = true) :
    stripDelimiters ('/' :: (path ++ '/' :: flags)) = path := by
  have hflags : ((path ++ '/' :: flags).reverse.takeWhile fun c => c != '/').reverse = flags := by
    have hall : ∀ c ∈ flags.reverse, (c != '/') = true := fun c hc =>
      bne_iff_ne.mpr (ne_of_mem_of_not_mem (List.mem_reverse.mp hc) hslash)
    rw [List.reverse_append, List.reverse_cons, List.append_assoc,
      List.takeWhile_append_of_pos hall]
    simp
  have hshort : flags.length < (path ++ '/' :: flags).length := by
    simp only [List.length_append, List.length_cons]
    omega
  have hlength : (path ++ '/' :: flags).length - flags.length - 1 = path.length := by
    simp only [List.length_append, List.length_cons]
    omega
  simp only [stripDelimiters, hflags, halpha, hshort, hlength, decide_true, Bool.and_self, if_true,
    List.take_left]

theorem stripEnd_concat (hc : c ≠ '$') (cs : List Char) : stripEnd (cs ++ [c]) = cs ++ [c] := by
  unfold stripEnd
  rw [List.reverse_append, List.reverse_singleton, List.singleton_append]
  split
  · rfl
  · next h => exact absurd (List.cons.inj h).1 hc
  · rfl

section Lookahead

variable {l : List Char}

/-- A lookahead begins with a parenthesis. -/
theorem removeAll_cons_of_ne (hc : c ≠ '(') :
    removeAll ('(' :: l) 0 (c :: rest) = c :: removeAll ('(' :: l) 0 rest := by
  have hprefix : ('(' :: l).isPrefixOf (c :: rest) = false := by
    rw [List.isPrefixOf_cons_cons, beq_false_of_ne hc.symm, Bool.false_and]
  rw [removeAll, hprefix]
  rfl

/-- A lookahead goes on with a question mark. -/
theorem removeAll_cons_of_head? (h : rest.head? ≠ some '?') :
    removeAll ('(' :: '?' :: l) 0 (c :: rest) = c :: removeAll ('(' :: '?' :: l) 0 rest := by
  have hprefix : ('(' :: '?' :: l).isPrefixOf (c :: rest) = false := by
    cases rest with
    | nil => rw [List.isPrefixOf_cons_cons, List.isPrefixOf_cons_nil, Bool.and_false]
    | cons d rest =>
        have hd : '?' ≠ d := fun heq => h (heq ▸ rfl)
        rw [List.isPrefixOf_cons_cons, List.isPrefixOf_cons_cons, beq_false_of_ne hd,
          Bool.false_and, Bool.and_false]
  rw [removeAll, hprefix]
  rfl

/-- Before a closing parenthesis no lookahead begins that does not stand there as a whole. -/
theorem removeAll_append_close {text : List Char} (h : ¬ ['(', '?', '='] <:+: text) :
    removeAll ('(' :: '?' :: '=' :: l) 0 (text ++ ')' :: rest) =
      text ++ removeAll ('(' :: '?' :: '=' :: l) 0 (')' :: rest) := by
  induction text with
  | nil => rfl
  | cons c text ih =>
      have hrest := ih fun hinfix => h (List.infix_cons hinfix)
      have hprefix : ('(' :: '?' :: '=' :: l).isPrefixOf (c :: (text ++ ')' :: rest)) = false := by
        rw [Bool.eq_false_iff, Ne, List.isPrefixOf_iff_prefix, List.cons_prefix_cons]
        rintro ⟨rfl, hbehind⟩
        match text with
        | [] => simp [List.cons_prefix_cons] at hbehind
        | [d] => simp [List.cons_prefix_cons] at hbehind
        | d :: e :: others =>
            simp only [List.cons_append, List.cons_prefix_cons] at hbehind
            obtain ⟨rfl, rfl, _⟩ := hbehind
            exact h ⟨[], others, rfl⟩
      rw [List.cons_append, removeAll, hprefix, if_neg Bool.false_ne_true, hrest]
      rfl

end Lookahead

/-! ## Characters -/

variable (given : Nat) (names : List String) (opened : Nat)

theorem sequence_backslash (hslash : c ≠ '/') (hplain : c.isAlphanum = false) :
    sequence given names opened ('\\' :: c :: rest) =
      emit [c] (sequence given names opened rest) := by
  rw [sequence, hplain]
  · rfl
  · exact fun _ heq _ => hslash heq
  · exact hslash

theorem sequence_cons (hescape : c ≠ '\\') (hopen : c ≠ '(') (hclose : c ≠ ')')
    (hplain : isSyntax c = false) :
    sequence given names opened (c :: rest) = emit [c] (sequence given names opened rest) := by
  rw [sequence, hplain] <;> simp_all

/-! ## Slashes, groups and captures -/

/-- Takes off one mark that says that something is optional. -/
def dropMark : List Char → List Char
  | '?' :: rest => rest
  | cs => cs

/-- A text begins with a mark or not. -/
theorem marked_cases (rest : List Char) :
    (∃ others, rest = '?' :: others) ∨
      (∀ others, rest = '?' :: others → False) ∧ dropMark rest = rest := by
  unfold dropMark
  split
  · next others => exact .inl ⟨others, rfl⟩
  · next hplain => exact .inr ⟨hplain, rfl⟩

theorem dropMark_of_head? (h : rest.head? ≠ some '?') : dropMark rest = rest := by
  obtain ⟨others, rfl⟩ | ⟨_, hdrop⟩ := marked_cases rest
  · exact absurd rfl h
  · exact hdrop

theorem sequence_slash :
    sequence given names opened ('\\' :: '/' :: rest) =
      emit ['/'] (sequence given names opened (dropMark rest)) := by
  obtain ⟨others, rfl⟩ | ⟨hplain, hdrop⟩ := marked_cases rest
  · rw [sequence, dropMark]
  · rw [sequence, hdrop]
    exact hplain

theorem sequence_close :
    sequence given names (opened + 1) (')' :: rest) =
      sequence given names opened (dropMark rest) := by
  obtain ⟨others, rfl⟩ | ⟨hplain, hdrop⟩ := marked_cases rest
  · rw [sequence, dropMark]
  · rw [sequence, hdrop]
    exact hplain

theorem sequence_open (h : rest.head? ≠ some '?') :
    sequence given names opened ('(' :: rest) = capture given names opened 0 false rest := by
  rw [sequence]
  · rintro others rfl
    exact h rfl
  · rintro others rfl
    exact h rfl

variable (nesting : Nat) (inClass : Bool)

/-- Inside a capture most characters are passed over. -/
theorem capture_pass (h : c ∉ ['\\', '[', ']', '(', ')']) :
    capture given names opened nesting inClass (c :: rest) =
      capture given names opened nesting inClass rest := by
  rw [capture] <;> simp_all

/-- A closing parenthesis stands for itself inside a character class. Elsewhere it closes what was
opened last, in the end the capture, which then asks for a name; a mark behind it is passed over. -/
theorem capture_close :
    capture given names opened nesting inClass (')' :: rest) =
      if inClass then capture given names opened nesting inClass rest
      else match nesting, names with
        | outer + 1, _ => capture given names opened outer inClass rest
        | 0, [] => .error (.tooManyCaptures given)
        | 0, name :: others =>
          emit (':' :: name.toList) (sequence given others opened (dropMark rest)) := by
  obtain ⟨rest, rfl⟩ | ⟨hplain, hdrop⟩ := marked_cases rest
  · have hmark : ∀ k names, capture given names opened k inClass ('?' :: rest) =
        capture given names opened k inClass rest :=
      fun k names => capture_pass _ _ _ _ _ (by decide)
    cases nesting with
    | succ outer =>
        dsimp only
        rw [capture, hmark, hmark]
    | zero =>
        cases names with
        | nil => rw [capture, hmark]
        | cons name others =>
            rw [capture, hmark]
            rfl
  · rw [hdrop]
    cases nesting with
    | succ outer =>
        rw [capture]
        exact hplain
    | zero =>
        cases names <;> rw [capture] <;> exact hplain

end Template

end RouteContract
