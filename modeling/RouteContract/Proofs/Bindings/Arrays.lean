import Mathlib.Data.List.Basic
import Mathlib.Logic.Relation
import RouteContract.Config
import RouteContract.Proofs.Bindings.Reading

/-!
# Arrays -- what the brackets of an array type bind

The item of an array is put in parentheses when it is flagged as a union. For a reader that is right
when a bar stands outside all brackets of its text. The flag and the bar agree through null, codecs,
enumerations and unions of several options (`Render.flagged_schema`), with one exception: a union of
one option is the text of that option without its flag. So an array of such a union, or of an array
of one, is read as a union with an array as its last part where that option shows a bar, and in all
other cases as an array of its items (`Render.render_array`).
-/

namespace RouteContract

namespace Render

open Reading (Closed Contained Flat Inert Level flat_comment hasOuterBar label member_none
  member_some quiet_label)

/-! ## Texts with a bar or without -/

/-- **A whole text** can be passed by at any depth, with all the bars that it has. -/
structure Whole (text : String) : Prop where
  closed : Closed text
  level : Level text (hasOuterBar text)

section Whole

variable {text text' : String} {bar : Bool}

theorem hasOuterBar_of_level (h : Level text bar) : hasOuterBar text = bar := by
  have hbar := h 0 []
  rw [List.append_nil] at hbar
  exact hbar.trans (by simp [Reading.barFrom])

theorem Whole.of_level (hclosed : Closed text) (h : Level text bar) : Whole text where
  closed := hclosed
  level := by
    rw [hasOuterBar_of_level h]
    exact h

theorem whole_of_flat (h : Flat text) : Whole text := .of_level h.closed h.level

theorem hasOuterBar_of_flat (h : Flat text) : hasOuterBar text = false :=
  hasOuterBar_of_level h.level

theorem Whole.append (h : Whole text) (h' : Whole text') : Whole (text ++ text') :=
  .of_level (h.closed.append h'.closed) (h.level.append h.closed h'.level)

theorem hasOuterBar_append (h : Whole text) (h' : Whole text') :
    hasOuterBar (text ++ text') = (hasOuterBar text || hasOuterBar text') :=
  hasOuterBar_of_level (h.level.append h.closed h'.level)

theorem level_bar : Level " | " true := by
  intro depth rest
  -- outside all brackets the bar counts, inside it is passed by
  cases depth with
  | zero => rfl
  | succ depth => rfl

theorem whole_bar : Whole " | " := .of_level (fun _ => rfl) level_bar

theorem whole_intercalate {sep : String} (hsep : Whole sep) {texts : List String}
    (h : ∀ text ∈ texts, Whole text) : Whole (sep.intercalate texts) :=
  Reading.intercalate_induct (whole_of_flat Reading.quiet_empty.toFlat) (fun _ _ => Whole.append)
    hsep h

/-- A text of several alternatives shows a bar. -/
theorem hasOuterBar_intercalate {texts : List String} (h : ∀ t ∈ text :: text' :: texts, Whole t) :
    hasOuterBar (" | ".intercalate (text :: text' :: texts)) = true := by
  obtain ⟨hfirst, hrest⟩ := List.forall_mem_cons.mp h
  have hothers : Whole (" | ".intercalate (text' :: texts)) := whole_intercalate whole_bar hrest
  rw [String.intercalate_cons_cons, hasOuterBar_append (hfirst.append whole_bar) hothers,
    hasOuterBar_append hfirst whole_bar, hasOuterBar_of_level level_bar, Bool.or_true, Bool.true_or]

theorem flat_brackets : Flat "[]" where
  closed := fun _ => rfl
  level := by
    intro depth rest
    rw [Bool.and_false, Bool.false_or]
    rfl

end Whole

/-! ## Types with a flag -/

/-- **A type is flagged** where its text shows a bar, unless it is a lone option. -/
structure Flagged (lone : Prop) (type : TypeExpr) : Prop where
  whole : Whole type.text
  isUnion : type.isUnion = true ↔ hasOuterBar type.text = true ∧ ¬lone

section Flagged

variable {lone lone' : Prop} {type : TypeExpr} {text : String} {parts : List String}

theorem Flagged.of_flat (h : Flat type.text) (hflag : type.isUnion = false) :
    Flagged lone type where
  whole := whole_of_flat h
  isUnion := by
    rw [hasOuterBar_of_flat h, hflag]
    exact ⟨nofun, nofun⟩

theorem flagged_word (h : Inert text) : Flagged lone { text } := .of_flat h.quiet.toFlat rfl

theorem Flagged.congr (h : Flagged lone type) (hlone : lone ↔ lone') : Flagged lone' type :=
  ⟨h.whole, h.isUnion.trans (and_congr_right fun _ => not_congr hlone)⟩

theorem flagged_union (h : ∀ part ∈ parts, Whole part) :
    Flagged (parts.length = 1) (.union parts) := by
  match parts, h with
  | [], _ => exact flagged_word (by decide : Inert "never")
  | [part], h =>
      refine ⟨h part List.mem_cons_self, ?_⟩
      show false = true ↔ _ ∧ ¬1 = 1
      exact ⟨nofun, fun hlone => absurd rfl hlone.2⟩
  | part :: part' :: rest, h =>
      refine ⟨whole_intercalate whole_bar h, ?_⟩
      show true = true ↔ hasOuterBar (" | ".intercalate (part :: part' :: rest)) = true ∧ _
      rw [hasOuterBar_intercalate h]
      exact ⟨fun _ => ⟨rfl, by simp⟩, fun _ => rfl⟩

/-- Where no part shows a bar, it is the number of parts that makes the bar. -/
theorem flagged_union_of_flat (h : ∀ part ∈ parts, Flat part) : Flagged False (.union parts) := by
  match parts, h with
  | [part], h => exact .of_flat (h part List.mem_cons_self) rfl
  | [], _ => exact flagged_word (by decide : Inert "never")
  | part :: part' :: rest, h =>
      exact (flagged_union fun p hp => whole_of_flat (h p hp)).congr (by simp)

theorem flagged_orNull {σ : Type} {kind : Kind σ} {required : Bool} (h : Flagged lone type)
    (hany : kind = .any → ¬lone) :
    Flagged (required = true ∧ lone) (orNull kind required type) := by
  have hnull : Flagged (false = true ∧ lone) (.union [type.text, "null"]) := by
    have hparts : ∀ part ∈ [type.text, "null"], Whole part :=
      List.forall_mem_cons.mpr ⟨h.whole, List.forall_mem_singleton.mpr
        (whole_of_flat (Inert.quiet (by decide)).toFlat)⟩
    exact (flagged_union hparts).congr (by simp)
  have hrequired : Flagged (true = true ∧ lone) type := h.congr (by simp)
  cases required with
  | true => cases kind <;> exact hrequired
  | false =>
      cases kind with
      | any => exact h.congr (by simp [hany rfl])
      | _ => exact hnull

theorem isUnion_array (type : TypeExpr) : type.array.isUnion = false := by
  unfold TypeExpr.array
  split <;> rfl

/-- Parentheses hide the bars of the items, and brackets alone do not. -/
theorem whole_array (h : Whole type.text) : Whole type.array.text ∧
    hasOuterBar type.array.text = (hasOuterBar type.text && !type.isUnion) := by
  unfold TypeExpr.array
  cases type.isUnion with
  | true =>
      have hflat : Flat ("(" ++ type.text ++ ")[]") :=
        h.level.enclosed Reading.opens_parenthesis h.closed Reading.closes_parenthesis
      refine ⟨whole_of_flat hflat, ?_⟩
      rw [Bool.not_true, Bool.and_false]
      exact hasOuterBar_of_flat hflat
  | false =>
      have hbrackets : Whole "[]" := whole_of_flat flat_brackets
      refine ⟨h.append hbrackets, ?_⟩
      rw [Bool.not_false, Bool.and_true]
      show hasOuterBar (type.text ++ "[]") = _
      rw [hasOuterBar_append h hbrackets, hasOuterBar_of_flat flat_brackets, Bool.or_false]

theorem flagged_array (h : Flagged lone type) : Flagged lone type.array := by
  obtain ⟨hwhole, hbar⟩ := whole_array h.whole
  refine ⟨hwhole, ?_⟩
  rw [isUnion_array, hbar, Bool.and_eq_true, Bool.not_eq_true', ← Bool.not_eq_true, h.isUnion]
  exact ⟨nofun, fun ⟨⟨hshown, hflag⟩, hlone⟩ => absurd ⟨hshown, hlone⟩ hflag⟩

/-- **Parentheses are put where a bar shows**, unless it is that of a lone option. -/
theorem array_text (h : Flagged lone type) :
    (hasOuterBar type.text = true → ¬lone → type.array.text = "(" ++ type.text ++ ")[]") ∧
    (hasOuterBar type.text = false ∨ lone → type.array.text = type.text ++ "[]") ∧
    (hasOuterBar type.array.text = true ↔ hasOuterBar type.text = true ∧ lone) := by
  have hparentheses : type.isUnion = true → type.array.text = "(" ++ type.text ++ ")[]" :=
    fun hflag => congrArg TypeExpr.text (if_pos hflag)
  have hbrackets : type.isUnion ≠ true → type.array.text = type.text ++ "[]" :=
    fun hflag => congrArg TypeExpr.text (if_neg hflag)
  refine ⟨fun hbar hlone => hparentheses (h.isUnion.mpr ⟨hbar, hlone⟩), fun hplain => ?_, ?_⟩
  · refine hbrackets fun hflag => ?_
    obtain ⟨hbar, hlone⟩ := h.isUnion.mp hflag
    exact hplain.elim (fun hno => Bool.false_ne_true (hno.symm.trans hbar)) hlone
  · rw [(whole_array h.whole).2, Bool.and_eq_true, Bool.not_eq_true', ← Bool.not_eq_true, h.isUnion]
    refine and_congr_right fun hbar => ⟨fun hflag => ?_, fun hlone hflag => hflag.2 hlone⟩
    exact Classical.not_not.mp fun hno => hflag ⟨hbar, hno⟩

theorem flat_record (h : Whole type.text) : Flat type.record.text :=
  h.level.enclosed Reading.opens_record h.closed Reading.closes_record

theorem isUnion_object (members : List String) : (TypeExpr.object members).isUnion = false := by
  cases members <;> rfl

theorem flat_object {members : List String} (h : ∀ member ∈ members, Whole member) :
    Flat (TypeExpr.object members).text := by
  have hbetween : Whole "; " := whole_of_flat (Inert.quiet (by decide)).toFlat
  match members, h with
  | [], _ =>
      have hempty := Reading.quiet_empty
      exact hempty.level.enclosed Reading.opens_brace hempty.closed Reading.closes_brace
  | member :: rest, h =>
      have hall := whole_intercalate hbetween h
      exact hall.level.enclosed Reading.opens_object hall.closed Reading.closes_object

theorem whole_member {name : String} {description : Option String} {required : Bool}
    (h : Whole type.text) (hdescription : ∀ text, description = some text → Contained text) :
    Whole (TypeExpr.member name description required type) := by
  have hlabeled : Whole (label name required ++ type.text) :=
    (whole_of_flat (quiet_label name required).toFlat).append h
  cases description with
  | none =>
      rw [member_none]
      exact hlabeled
  | some text =>
      rw [member_some]
      exact (whole_of_flat (flat_comment (hdescription text rfl))).append hlabeled

end Flagged

/-! ## Lone options -/

/-- **The shape ends in a lone option**: it is a union of one option, in arrays or in none. -/
inductive LoneShape : Direction → Kind Schema → Prop
  | option {side s} : LoneShape side (.oneOf [s])
  | items {side items} : items.required = true → LoneShape side items.kind →
      LoneShape side (.array items)
  | encoded {encoded decoded dec enc} : LoneShape .encode encoded.kind →
      LoneShape .encode (.transform encoded decoded dec enc)
  | decoded {encoded decoded dec enc} : LoneShape .decode decoded.kind →
      LoneShape .decode (.transform encoded decoded dec enc)
  | parent {name parent dec} : LoneShape .encode parent.kind →
      LoneShape .encode (.custom name parent dec)

/-- The schema ends in a lone option, and admits no null besides. -/
def Lone (side : Direction) (s : Schema) : Prop := s.required = true ∧ LoneShape side s.kind

section Lone

variable {side : Direction}

theorem loneShape_oneOf_iff {options : List Schema} :
    LoneShape side (.oneOf options) ↔ options.length = 1 := by
  rw [List.length_eq_one_iff]
  constructor
  · rintro ⟨⟩
    exact ⟨_, rfl⟩
  · rintro ⟨s, rfl⟩
    exact .option

theorem loneShape_array_iff {items : Schema} : LoneShape side (.array items) ↔ Lone side items := by
  constructor
  · rintro (_ | ⟨hrequired, hitems⟩)
    exact ⟨hrequired, hitems⟩
  · exact fun h => .items h.1 h.2

theorem loneShape_encoded_iff {encoded decoded : Schema} {dec enc : Conversion} :
    LoneShape .encode (.transform encoded decoded dec enc) ↔ LoneShape .encode encoded.kind := by
  constructor
  · rintro (_ | _ | h)
    exact h
  · exact .encoded

theorem loneShape_decoded_iff {encoded decoded : Schema} {dec enc : Conversion} :
    LoneShape .decode (.transform encoded decoded dec enc) ↔ LoneShape .decode decoded.kind := by
  constructor
  · rintro (_ | _ | _ | h)
    exact h
  · exact .decoded

theorem loneShape_parent_iff {name : String} {parent : Schema} {dec : Conversion} :
    LoneShape .encode (.custom name parent dec) ↔ LoneShape .encode parent.kind := by
  constructor
  · rintro (_ | _ | _ | _ | h)
    exact h
  · exact .parent

end Lone

/-! ## Types of schemas -/

/-- Every node of a schema is legible, on one side of every codec. -/
def Legible (Name : String → Prop) (side : Direction) (s : Schema) : Prop :=
  ∀ t, Relation.ReflTransGen (Part side) s t → LegibleNode Name t

section Legible

variable {Name : String → Prop} {side : Direction} {s t : Schema}

theorem Legible.self (h : Legible Name side s) : LegibleNode Name s := h s .refl

theorem Legible.part (h : Legible Name side s) (hpart : Part side s t) : Legible Name side t :=
  fun u hu => h u (.head hpart hu)

theorem legible_of_part (hself : LegibleNode Name s)
    (hpart : ∀ t, Part side s t → Legible Name side t) : Legible Name side s := by
  intro t ht
  rcases Relation.ReflTransGen.cases_head ht with rfl | ⟨u, hu, ht⟩
  · exact hself
  · exact hpart u hu t ht

variable {follow : String → String → Render Unit}

/-- The type of a schema is flagged, whatever is declared before it. -/
def FlaggedSchema (side : Direction) (follow : String → String → Render Unit) (s : Schema) : Prop :=
  ∀ r, Flagged (Lone side s) (schema side follow s r).1

theorem flagged_of_shape (h : ∀ r, Flagged (LoneShape side s.kind) (shape side follow s.kind r).1) :
    FlaggedSchema side follow s := by
  intro r
  obtain ⟨kind, required, refinement, description⟩ := s
  refine flagged_orNull (h r) ?_
  rintro rfl ⟨⟩

theorem whole_list {options : List Schema} (h : ∀ s ∈ options, FlaggedSchema side follow s)
    (r : Registry String) : (list side follow options r).1.length = options.length ∧
      ∀ text ∈ (list side follow options r).1, Whole text := by
  induction options generalizing r with
  | nil => exact ⟨rfl, nofun⟩
  | cons s rest ih =>
      rw [List.forall_mem_cons] at h
      obtain ⟨hlength, hrest⟩ := ih h.2 (schema side follow s r).2
      exact ⟨congrArg (· + 1) hlength, List.forall_mem_cons.mpr ⟨(h.1 r).whole, hrest⟩⟩

theorem whole_members {properties : List (String × Schema)}
    (h : ∀ p ∈ properties, FlaggedSchema side follow p.2)
    (hdescription : ∀ p ∈ properties, ∀ text, p.2.description = some text → Contained text)
    (r : Registry String) : ∀ member ∈ (members side follow properties r).1, Whole member := by
  induction properties generalizing r with
  | nil => exact nofun
  | cons p rest ih =>
      obtain ⟨name, s⟩ := p
      rw [List.forall_mem_cons] at h hdescription
      exact List.forall_mem_cons.mpr ⟨whole_member (h.1 r).whole hdescription.1,
        ih h.2 hdescription.2 (schema side follow s r).2⟩

theorem nested_shape (side : Direction) (follow : String → String → Render Unit) (s : Schema) :
    nested side follow s = shape side follow s.kind := by
  cases s
  rfl

theorem flagged_shape (s : Schema) : Legible Inert side s →
    ∀ r, Flagged (LoneShape side s.kind) (shape side follow s.kind r).1 := by
  induction s with
  | number => exact fun _ _ => flagged_word (by decide : Inert "number")
  | string => exact fun _ _ => flagged_word (by decide : Inert "string")
  | boolean => exact fun _ _ => flagged_word (by decide : Inert "boolean")
  | any => exact fun _ _ => flagged_word (by decide : Inert "any")
  | enum options q f d =>
      intro _ r
      have hparts : ∀ part ∈ options.map Json.text, Flat part := by
        intro part hpart
        obtain ⟨v, _, rfl⟩ := List.mem_map.mp hpart
        exact (Reading.quiet_text v).toFlat
      exact (flagged_union_of_flat hparts).congr ⟨nofun, nofun⟩
  | oneOf options q f d ih =>
      intro h r
      have hoptions : ∀ s ∈ options, FlaggedSchema side follow s :=
        fun s hs => flagged_of_shape (ih s hs (h.part (.option hs)))
      obtain ⟨hlength, hwhole⟩ := whole_list hoptions r
      exact (flagged_union hwhole).congr (by rw [hlength, loneShape_oneOf_iff])
  | array items q f d ih =>
      intro h r
      have hitems : FlaggedSchema side follow items := flagged_of_shape (ih (h.part .items))
      exact (flagged_array (hitems r)).congr loneShape_array_iff.symm
  | object properties q f d ih =>
      intro h r
      have hproperties : ∀ p ∈ properties, FlaggedSchema side follow p.2 :=
        fun p hp => flagged_of_shape (ih p hp (h.part (.property hp)))
      have hmembers := whole_members hproperties (h.self.description properties rfl) r
      exact .of_flat (flat_object hmembers) (isUnion_object _)
  | map values q f d ih =>
      intro h r
      have hvalues : FlaggedSchema side follow values := flagged_of_shape (ih (h.part .values))
      exact .of_flat (flat_record (hvalues r).whole) rfl
  | lazy name target q f d =>
      intro h r
      exact flagged_word (h.self.name name target rfl)
  | transform encoded decoded dec enc q f d ihe ihd =>
      intro h r
      cases side with
      | encode =>
          show Flagged _ (nested .encode follow encoded r).1
          rw [nested_shape]
          exact (ihe (h.part .encoded) r).congr loneShape_encoded_iff.symm
      | decode =>
          show Flagged _ (nested .decode follow decoded r).1
          rw [nested_shape]
          exact (ihd (h.part .decoded) r).congr loneShape_decoded_iff.symm
  | custom name parent dec q f d ih =>
      intro h r
      cases side with
      | encode =>
          show Flagged _ (nested .encode follow parent r).1
          rw [nested_shape]
          exact (ih (h.part .parent) r).congr loneShape_parent_iff.symm
      | decode => exact flagged_word (by decide : Inert "unknown")

/-- **The flag of a type and the bar in its text agree**, apart from lone options. -/
theorem flagged_schema (h : Legible Inert side s) : FlaggedSchema side follow s :=
  flagged_of_shape (flagged_shape s h)

end Legible

/-! ## Arrays -/

/-- **Where an array type is an array of its items.** Names of definitions have no bars, brackets,
quotes and slashes in them, as identifiers have none. The text of the items is put in parentheses if
it shows a bar and the items are no lone option, and not otherwise; so the array type shows the bar
of its items if they are a lone option, and no bar in all other cases. -/
theorem render_array (defs : Definitions) (config : RenderConfig) (r : Registry String)
    {s : Schema} (h : Legible Inert config.direction s) :
    let text := (render defs config.direction s r).1
    let arrayText := (render defs config.direction (.array s) r).1
    (hasOuterBar text = true → ¬Lone config.direction s → arrayText = "(" ++ text ++ ")[]") ∧
    (hasOuterBar text = false ∨ Lone config.direction s → arrayText = text ++ "[]") ∧
    (hasOuterBar arrayText = true ↔ hasOuterBar text = true ∧ Lone config.direction s) := by
  intro text arrayText
  exact array_text (flagged_schema h r)

/-- A step of a trail that describes where it leads, or the end of it. -/
def trail : Schema :=
  ⟨.oneOf
    [⟨.object [("next", (Schema.lazy "Trail" "trail").describe "on | off")], true, none, none⟩,
      .string], true, none, none⟩

theorem legible_trail : Legible Inert .encode trail := by
  have hname : Legible Inert .encode ((Schema.lazy "Trail" "trail").describe "on | off") :=
    legible_of_part ⟨fun _ _ h => by cases h; decide, nofun⟩ nofun
  refine legible_of_part ⟨nofun, nofun⟩ fun t ht => ?_
  cases ht with
  | option hmem =>
      rcases List.mem_pair.mp hmem with rfl | rfl
      · refine legible_of_part (legibleNode_object ?_) fun t ht => ?_
        · rintro p hp text htext
          obtain rfl := List.mem_singleton.mp hp
          obtain rfl := Option.some.inj htext
          decide +kernel
        · cases ht with
          | property hp =>
              obtain rfl := List.mem_singleton.mp hp
              exact hname
      · exact legible_of_part ⟨nofun, nofun⟩ nofun

theorem render_array_trail : ¬Lone .encode trail ∧
    (render {} .encode trail {}).1 = "\x7b /** on | off */ next: Trail \x7d | string" ∧
    (render {} .encode (.array trail) {}).1 =
      "(\x7b /** on | off */ next: Trail \x7d | string)[]" := by
  have hlone : ¬Lone .encode trail := fun h => absurd (loneShape_oneOf_iff.mp h.2) (by decide)
  have htext : (render {} .encode trail {}).1 =
      "\x7b /** on | off */ next: Trail \x7d | string" := by decide
  obtain ⟨hparentheses, _, _⟩ := render_array {} {} {} legible_trail
  refine ⟨hlone, htext, ?_⟩
  exact (hparentheses (by rw [htext]; decide) hlone).trans (by rw [htext]; rfl)

/-- The array of a union of one option loses the parentheses of the option. -/
theorem render_array_lone_union :
    let text s := (render {} .encode s {}).1
    let lone := Schema.oneOf [.oneOf [.string, .number]]
    (text lone = "string | number" ∧ hasOuterBar (text lone) = true) ∧
      text (.array lone) = "string | number[]" ∧ hasOuterBar (text (.array lone)) = true := by
  decide

end Render

end RouteContract
