import Mathlib.Tactic.FinCases
import RouteContract.Proofs.Route.Language
import RouteContract.Proofs.Route.Reading

/-!
# Reconstruction -- the template that is read from a pattern

Reading the text of a pattern gives back its path, with the given names in the places of the captures
in the order of the text; if there are more captures than names, it says so
(`HostPattern.reconstruct_print`).

Two things carry the proof. No piece begins with a question mark, so a mark is only read behind what
it belongs to, and reading a piece is independent of what stands behind it (`Piece.Reads`). And no
piece contains the beginning of a lookahead, so what is taken off the text is its anchor
(`Piece.Passes`). Both go by induction on the pieces; the inside of a capture is passed over by
induction on how its parentheses are balanced (`Balanced.capture`).
-/

namespace RouteContract

open Template (removeAll sequence emit capture dropMark)

/-! ## Inside a capture -/

section Capture

variable {text rest : List Char} (given : Nat) (names : List String) (opened nesting : Nat)

theorem ClassText.capture (h : ClassText text) :
    capture given names opened nesting true (text ++ ']' :: rest) =
      capture given names opened nesting false rest := by
  induction h with
  | nil => rfl
  | escape _ ih => exact ih
  | @plain c text hescape hclose _ ih =>
      refine Eq.trans ?_ ih
      -- parentheses and brackets stand for themselves
      by_cases hc : c ∈ ['[', '(', ')']
      · simp only [List.mem_cons, List.not_mem_nil, or_false] at hc
        rcases hc with rfl | rfl | rfl
        · rfl
        · rfl
        · exact Template.capture_close _ _ _ _ _
      · refine Template.capture_pass _ _ _ _ _ ?_
        simp_all

/-- **Balanced text is passed over**, inside a capture and whatever is open there. -/
theorem Balanced.capture (h : Balanced text) :
    capture given names opened nesting false (text ++ rest) =
      capture given names opened nesting false rest := by
  induction h generalizing nesting rest with
  | nil => rfl
  | escape _ ih => exact ih nesting
  | @plain c text hc _ ih =>
      refine Eq.trans ?_ (ih nesting)
      by_cases hbracket : c = ']'
      · subst hbracket
        rfl
      · refine Template.capture_pass _ _ _ _ _ ?_
        simp_all
  | @bracket inside text hinside _ ih =>
      have hopen : Template.capture given names opened nesting false
          ('[' :: (inside ++ ']' :: text) ++ rest) =
          Template.capture given names opened nesting true (inside ++ ']' :: (text ++ rest)) := by
        rw [List.cons_append, List.append_assoc]
        rfl
      rw [hopen, hinside.capture, ih]
  | @parens inside text _ _ ihinside ih =>
      have hopen : Template.capture given names opened nesting false
          ('(' :: (inside ++ ')' :: text) ++ rest) =
          Template.capture given names opened (nesting + 1) false
            (inside ++ ')' :: (text ++ rest)) := by
        rw [List.cons_append, List.append_assoc]
        rfl
      rw [hopen, ihinside, Template.capture_close]
      exact ih nesting

end Capture

/-- No body is taken for the mark of another kind of group. -/
theorem CaptureBody.head?_append (body : CaptureBody) (rest : List Char) :
    (body.text ++ ')' :: rest).head? ≠ some '?' := by
  cases htext : body.text with
  | nil => simp
  | cons c text => simpa [htext] using body.plain

/-! ## Escapes -/

namespace PathPattern

variable {c : Char}

theorem isAlphanum_of_isMeta (h : isMeta c = true) : c.isAlphanum = false := by
  simp only [isMeta, List.contains_eq_mem, decide_eq_true_eq] at h
  fin_cases h <;> rfl

theorem isMeta_of_isSyntax (h : Template.isSyntax c = true) : isMeta c = true := by
  simp only [Template.isSyntax, List.contains_eq_mem, decide_eq_true_eq] at h
  fin_cases h <;> rfl

theorem ne_of_not_isMeta {d : Char} (h : ¬ isMeta c = true) (hd : isMeta d = true) : c ≠ d := by
  rintro rfl
  exact h hd

theorem sequence_escaped {rest : List Char} (h : c ≠ '/') (given : Nat) (names : List String)
    (opened : Nat) :
    sequence given names opened (escaped c ++ rest) =
      emit [c] (sequence given names opened rest) := by
  rw [escaped]
  split
  · next hmeta => exact Template.sequence_backslash _ _ _ h (isAlphanum_of_isMeta hmeta)
  · next hplain =>
      have hsyntax : Template.isSyntax c = false :=
        Bool.eq_false_iff.mpr fun h => hplain (isMeta_of_isSyntax h)
      exact Template.sequence_cons _ _ _ (ne_of_not_isMeta hplain rfl)
        (ne_of_not_isMeta hplain rfl) (ne_of_not_isMeta hplain rfl) hsyntax

end PathPattern

/-! ## Text of pieces -/

namespace Piece

variable {rest : List Char}

/-- No piece begins with a question mark, so none is taken for the mark of what stands before it. -/
theorem head?_print (p : Piece) : (p.print ++ rest).head? ≠ some '?' := by
  cases p with
  | literal c h =>
      rw [print, PathPattern.escaped]
      split
      · simp
      · next hplain => simpa using PathPattern.ne_of_not_isMeta hplain rfl
  | slash | capture | group => simp [print]

theorem print_capture_append (body : CaptureBody) (optional : Bool) :
    print (.capture body optional) ++ rest =
      '(' :: (body.text ++ ')' :: (mark optional ++ rest)) := by
  simp [print]

theorem print_group_append (content : List Piece) (optional : Bool) :
    print (.group content optional) ++ rest =
      '(' :: '?' :: ':' :: (printAll content ++ ')' :: (mark optional ++ rest)) := by
  simp [print]

theorem head?_printAll (hrest : rest.head? ≠ some '?') (ps : List Piece) :
    (printAll ps ++ rest).head? ≠ some '?' := by
  cases ps with
  | nil => exact hrest
  | cons p ps =>
      rw [printAll, List.append_assoc]
      exact head?_print p

theorem dropMark_mark (hrest : rest.head? ≠ some '?') (optional : Bool) :
    dropMark (mark optional ++ rest) = rest := by
  cases optional with
  | false => exact Template.dropMark_of_head? hrest
  | true => rfl

/-! ## Lookaheads -/

/-- No lookahead begins in the text, whatever stands behind it. -/
def Passes (text : List Char) : Prop :=
  ∀ l rest : List Char, rest.head? ≠ some '?' → removeAll ('(' :: '?' :: '=' :: l) 0 (text ++ rest) =
    text ++ removeAll ('(' :: '?' :: '=' :: l) 0 rest

theorem Passes.of_forall_ne {text : List Char} (h : ∀ c ∈ text, c ≠ '(') : Passes text := by
  intro l rest _
  induction text with
  | nil => rfl
  | cons c text ih =>
      obtain ⟨hc, htext⟩ := List.forall_mem_cons.mp h
      rw [List.cons_append, Template.removeAll_cons_of_ne hc, ih htext]
      rfl

theorem Passes.append {text more : List Char} (h : Passes text) (h' : Passes more)
    (hmore : ∀ rest : List Char, rest.head? ≠ some '?' → (more ++ rest).head? ≠ some '?') :
    Passes (text ++ more) := by
  intro l rest hrest
  rw [List.append_assoc, h l _ (hmore rest hrest), h' l rest hrest, List.append_assoc]

/-- A closing parenthesis with its mark. -/
theorem passes_close (optional : Bool) : Passes (')' :: mark optional) := by
  cases optional <;> exact .of_forall_ne (by simp [mark])

theorem passes_escaped (c : Char) : Passes (PathPattern.escaped c) := by
  rw [PathPattern.escaped]
  split
  -- behind the backslash there may be a parenthesis, but no question mark behind that
  · intro l rest hrest
    have hbackslash : '\\' ≠ '(' := by decide
    exact (Template.removeAll_cons_of_ne hbackslash).trans
      (congrArg _ (Template.removeAll_cons_of_head? hrest))
  · next hplain =>
      refine .of_forall_ne fun d hd => ?_
      rw [List.mem_singleton.mp hd]
      exact PathPattern.ne_of_not_isMeta hplain rfl

theorem passes_printAll_of {ps : List Piece} (h : ∀ p ∈ ps, Passes p.print) :
    Passes (printAll ps) := by
  induction ps with
  | nil => exact .of_forall_ne nofun
  | cons p ps ih =>
      obtain ⟨hp, hps⟩ := List.forall_mem_cons.mp h
      exact hp.append (ih hps) fun _ hrest => head?_printAll hrest ps

theorem passes_print (p : Piece) : Passes p.print := by
  have hclose : ∀ {optional : Bool} {l rest : List Char}, rest.head? ≠ some '?' →
      removeAll ('(' :: '?' :: '=' :: l) 0 (')' :: (mark optional ++ rest)) =
        ')' :: (mark optional ++ removeAll ('(' :: '?' :: '=' :: l) 0 rest) :=
    fun hrest => passes_close _ _ _ hrest
  induction p with
  | literal c h => exact passes_escaped c
  | slash optional => cases optional <;> exact .of_forall_ne (by simp [print, mark])
  | capture body optional =>
      intro l rest hrest
      rw [print_capture_append, Template.removeAll_cons_of_head? (body.head?_append _),
        Template.removeAll_append_close body.noLookahead, hclose hrest, ← print_capture_append]
  | group content optional ih =>
      intro l rest hrest
      -- a group begins as a lookahead does, but goes on with a colon
      have hgroup : ∀ more, removeAll ('(' :: '?' :: '=' :: l) 0 ('(' :: '?' :: ':' :: more) =
          '(' :: '?' :: ':' :: removeAll ('(' :: '?' :: '=' :: l) 0 more := fun _ => rfl
      rw [print_group_append, hgroup, passes_printAll_of ih l _ (by simp), hclose hrest,
        ← print_group_append]

theorem passes_printAll (ps : List Piece) : Passes (printAll ps) :=
  passes_printAll_of fun p _ => passes_print p

/-! ## The end -/

theorem print_last (p : Piece) :
    p.print = ['\\', '$'] ∨ ∃ init c, p.print = init ++ [c] ∧ c ≠ '$' := by
  have hclose : ∀ (init : List Char) (optional : Bool),
      ∃ init' c, init ++ ')' :: mark optional = init' ++ [c] ∧ c ≠ '$' := by
    intro init optional
    cases optional with
    | false => exact ⟨init, ')', rfl, by decide⟩
    | true => exact ⟨init ++ [')'], '?', by simp [mark], by decide⟩
  cases p with
  | literal c h =>
      rw [print, PathPattern.escaped]
      split
      · by_cases hc : c = '$'
        · exact .inl (hc ▸ rfl)
        · exact .inr ⟨['\\'], c, rfl, hc⟩
      · next hplain => exact .inr ⟨[], c, rfl, PathPattern.ne_of_not_isMeta hplain rfl⟩
  | slash optional =>
      cases optional with
      | false => exact .inr ⟨['\\'], '/', rfl, by decide⟩
      | true => exact .inr ⟨['\\', '/'], '?', rfl, by decide⟩
  | capture body optional => exact .inr (hclose ('(' :: body.text) optional)
  | group content optional => exact .inr (hclose ('(' :: '?' :: ':' :: printAll content) optional)

/-- A dollar sign at the end of the text belongs to the path and has a backslash before it. -/
theorem stripEnd_printAll (ps : List Piece) : Template.stripEnd (printAll ps) = printAll ps := by
  obtain rfl | ⟨before, p, rfl⟩ := List.eq_nil_or_concat ps
  · rfl
  rw [List.concat_eq_append, printAll_append, printAll, printAll, List.append_nil]
  rcases print_last p with hdollar | ⟨init, c, hlast, hc⟩
  · rw [hdollar]
    simp [Template.stripEnd]
  · rw [hlast, ← List.append_assoc, Template.stripEnd_concat hc]

/-! ## Reading -/

/-- What reading comes to on the outline of a text: characters are put out, parameters take their
names, and what is read behind them is read with the names that are left. -/
def filled (given : Nat) : List (Option Char) → List String →
    (List String → Except PatternError (List Char)) → Except PatternError (List Char)
  | [], names, next => next names
  | some c :: outline, names, next => emit [c] (filled given outline names next)
  | none :: _, [], _ => .error (.tooManyCaptures given)
  | none :: outline, name :: names, next =>
    emit (':' :: name.toList) (filled given outline names next)

theorem filled_append (given : Nat) (first second : List (Option Char)) (names : List String)
    (next : List String → Except PatternError (List Char)) :
    filled given (first ++ second) names next =
      filled given first names fun others => filled given second others next := by
  induction first generalizing names with
  | nil => rfl
  | cons c first ih =>
      cases c with
      | some c => exact congrArg (emit [c]) (ih names)
      | none =>
          cases names with
          | nil => rfl
          | cons name names => exact congrArg (emit (':' :: name.toList)) (ih names)

/-- A path is filled exactly if there are enough names. -/
theorem filled_eq (given : Nat) (outline : List (Option Char)) (names : List String) :
    filled given outline names (fun _ => .ok []) =
      if outline.count none ≤ names.length then .ok (fill outline names)
      else .error (.tooManyCaptures given) := by
  induction outline generalizing names with
  | nil => simp [filled, fill]
  | cons c outline ih =>
      cases c with
      | some c =>
          rw [filled, ih, List.count_cons_of_ne (by simp), fill]
          split <;> rfl
      | none =>
          cases names with
          | nil => simp [filled]
          | cons name names =>
              rw [filled, ih, List.count_cons_self, List.length_cons, fill]
              simp only [Nat.add_le_add_iff_right]
              split <;> rfl

/-- The text is read as the outline, whatever stands behind it. -/
def Reads (text : List Char) (outline : List (Option Char)) : Prop :=
  ∀ (given : Nat) (names : List String) (opened : Nat) (rest : List Char), rest.head? ≠ some '?' →
    sequence given names opened (text ++ rest) =
      filled given outline names fun others => sequence given others opened rest

theorem reads_printAll_of {ps : List Piece} (h : ∀ p ∈ ps, Reads p.print p.outline) :
    Reads (printAll ps) (outlineAll ps) := by
  induction ps with
  | nil => exact fun _ _ _ _ _ => rfl
  | cons p ps ih =>
      obtain ⟨hp, hps⟩ := List.forall_mem_cons.mp h
      intro given names opened rest hrest
      rw [printAll, outlineAll, List.append_assoc, filled_append,
        hp given names opened _ (head?_printAll hrest ps)]
      congr 1
      funext others
      exact ih hps given others opened rest hrest

/-- **A piece is read as what it says about the path.** -/
theorem reads_print (p : Piece) : Reads p.print p.outline := by
  induction p with
  | literal c h =>
      intro given names opened rest _
      exact PathPattern.sequence_escaped h given names opened
  | slash optional =>
      intro given names opened rest hrest
      show sequence given names opened ('\\' :: '/' :: (mark optional ++ rest)) = _
      rw [Template.sequence_slash, dropMark_mark hrest]
      rfl
  | capture body optional =>
      intro given names opened rest hrest
      rw [print_capture_append, Template.sequence_open _ _ _ (body.head?_append _),
        body.balanced.capture, Template.capture_close, if_neg Bool.false_ne_true,
        dropMark_mark hrest]
      cases names <;> rfl
  | group content optional ih =>
      intro given names opened rest hrest
      have hopen : ∀ more, sequence given names opened ('(' :: '?' :: ':' :: more) =
          sequence given names (opened + 1) more := fun _ => rfl
      rw [print_group_append, hopen, reads_printAll_of ih given names (opened + 1) _ (by simp)]
      simp only [Template.sequence_close, dropMark_mark hrest]
      rfl

theorem reads_printAll (ps : List Piece) : Reads (printAll ps) (outlineAll ps) :=
  reads_printAll_of fun p _ => reads_print p

end Piece

/-! ## Whole patterns -/

namespace HostPattern

/-- All anchors there are. -/
def anchors : List (List Char) := [] :: ['$'] :: Template.endLookaheads

theorem anchor_mem_anchors (ending : Ending) : ending.anchor ∈ anchors := by
  cases ending with
  | nothing => exact List.mem_cons_self
  | exact => exact List.mem_cons_of_mem _ List.mem_cons_self
  | before lookahead h => exact List.mem_cons_of_mem _ (List.mem_cons_of_mem _ h)

theorem removeAll_mem_anchors :
    ∀ l ∈ Template.endLookaheads, ∀ anchor ∈ anchors, removeAll l 0 anchor ∈ anchors := by
  decide

/-- Removing lookaheads from a pattern is removing them from its anchor. -/
theorem foldl_removeAll_append (ps : List Piece) {lookaheads : List (List Char)}
    (hlookaheads : ∀ l ∈ lookaheads, l ∈ Template.endLookaheads) {anchor : List Char}
    (hanchor : anchor ∈ anchors) :
    lookaheads.foldl (fun cs text => removeAll text 0 cs) (Piece.printAll ps ++ anchor) =
      Piece.printAll ps ++ lookaheads.foldl (fun cs text => removeAll text 0 cs) anchor := by
  have hhead : ∀ anchor ∈ anchors, anchor.head? ≠ some '?' := by decide
  induction lookaheads generalizing anchor with
  | nil => rfl
  | cons l others ih =>
      obtain ⟨hl, hothers⟩ := List.forall_mem_cons.mp hlookaheads
      obtain ⟨behind, rfl⟩ : ∃ behind, l = '(' :: '?' :: '=' :: behind := by
        fin_cases hl <;> exact ⟨_, rfl⟩
      rw [List.foldl_cons, List.foldl_cons,
        Piece.passes_printAll ps behind anchor (hhead anchor hanchor),
        ih hothers (removeAll_mem_anchors _ hl anchor hanchor)]

/-- A dollar sign that ends the pattern stands behind the mark of a slash, so it has no backslash
before it. -/
theorem stripEnd_dollar (p : HostPattern) (h : p.ending.anchor = ['$']) :
    Template.stripEnd (Piece.printAll p.path ++ ['$']) = Piece.printAll p.path := by
  obtain ⟨pieces, ending, flags⟩ := p
  have hexact : ending = .exact := by
    cases ending with
    | nothing => cases h
    | exact => rfl
    | before lookahead hmem =>
        have hne : ∀ l ∈ Template.endLookaheads, l ≠ ['$'] := by decide
        exact absurd h (hne lookahead hmem)
  subst hexact
  have htext : Piece.printAll (path ⟨pieces, .exact, flags⟩) =
      Piece.printAll pieces ++ ['\\', '/', '?'] := Piece.printAll_append pieces [.slash true]
  rw [htext]
  simp [Template.stripEnd]

/-- **What stands around the path** is taken off, and nothing of the path is. -/
theorem body_print (p : HostPattern) : Template.body p.print = Piece.printAll p.path := by
  have hdelimiters : Template.stripDelimiters p.print = p.anchored := by
    unfold print
    cases p.flags with
    | none => rfl
    | some flags =>
        obtain ⟨flags, halpha⟩ := flags
        have hslash : '/' ∉ flags := fun hmem => by
          have hletter := List.all_eq_true.mp halpha _ hmem
          revert hletter
          decide
        exact Template.stripDelimiters_append hslash halpha
  have hremoved : ∀ anchor ∈ anchors,
      Template.endLookaheads.foldl (fun cs text => removeAll text 0 cs) anchor =
        if anchor = ['$'] then ['$'] else [] := by decide
  rw [Template.body, hdelimiters, anchored, Template.stripStart,
    foldl_removeAll_append _ (fun _ h => h) (anchor_mem_anchors p.ending),
    hremoved _ (anchor_mem_anchors p.ending)]
  split
  · next hdollar => exact p.stripEnd_dollar hdollar
  · rw [List.append_nil, Piece.stripEnd_printAll]

/-! ## Templates -/

theorem reconstruct_eq (source : String) (names : List String) :
    Template.reconstruct source names =
      (sequence names.length names 0 (Template.body source.toList)).map rooted := by
  unfold Template.reconstruct rooted
  generalize sequence names.length names 0 (Template.body source.toList) = outcome
  cases outcome with
  | error e => rfl
  | ok out =>
      dsimp only [Except.map]
      split <;> simp_all

theorem count_path (p : HostPattern) : (Piece.outlineAll p.path).count none = p.captures := by
  rw [path, Piece.outlineAll_append, List.count_append, captures]
  cases p.ending <;> rfl

/-- The path of a pattern is read with the names that it needs, or there are not enough. -/
theorem sequence_print (p : HostPattern) (names : List String) :
    sequence names.length names 0 (Piece.printAll p.path) =
      if p.captures ≤ names.length then .ok (p.template names)
      else .error (.tooManyCaptures names.length) := by
  have hread := Piece.reads_printAll p.path names.length names 0 [] nofun
  rw [List.append_nil] at hread
  rw [hread, ← p.count_path, template, ← Piece.filled_eq]
  rfl

/-- **Reading a pattern undoes writing it.** For a pattern of the language, whatever its ending and
its flags, and any list of names: if there are as many names as captures, or more, the template is
the path of the pattern with a slash in front, slashes and characters as themselves and the names in
the place of the captures, in order; groups leave nothing behind but their content. If there are
fewer names, the error says how many there are. -/
theorem reconstruct_print (p : HostPattern) (names : List String) :
    Template.reconstruct (String.ofList p.print) names =
      if p.captures ≤ names.length then .ok (rooted (p.template names))
      else .error (.tooManyCaptures names.length) := by
  rw [reconstruct_eq, String.toList_ofList, body_print, sequence_print]
  split <;> rfl

/-- A group that may be missing, around a capture with parentheses of its own. -/
example : Template.reconstruct "^\\/files(?:\\/((?:a|b)[)]+)\\.txt)?\\/?$" ["name"] =
    .ok "/files/:name.txt/" := by rfl

end HostPattern

end RouteContract
