import Mathlib.Data.List.Forall2
import Mathlib.Logic.Relation
import RouteContract.Bindings.Module
import RouteContract.Proofs.Bindings.Reading
import RouteContract.Proofs.Registry

/-!
# Comments -- what descriptions add to types

A schema is rendered twice, once as it is and once without its descriptions (`Schema.undescribed`).
The two renderings walk in step: shape by shape one text is the other with comments in it
(`Render.Shows`), and they declare the same names in the same order (`Render.Mirrored`). A
description stands in its comment as it is, so the texts agree where no description has the end of a
comment in it (`Render.renderAll_undescribed`), and where one has they may not
(`Render.render_ends_early`).
-/

namespace RouteContract

/-! ## Schemas without descriptions -/

namespace Schema

mutual

/-- The schema with the descriptions of all its nodes removed. -/
def undescribed : Schema → Schema
  | ⟨kind, required, refinement, _⟩ => ⟨undescribedKind kind, required, refinement, none⟩
termination_by structural s => s

/-- The shape with all descriptions inside removed. -/
def undescribedKind : Kind Schema → Kind Schema
  | .number => .number
  | .string => .string
  | .boolean => .boolean
  | .any => .any
  | .enum options => .enum options
  | .oneOf options => .oneOf (undescribedList options)
  | .array items => .array (undescribed items)
  | .object properties => .object (undescribedProperties properties)
  | .map values => .map (undescribed values)
  | .lazy name target => .lazy name target
  | .transform encoded decoded decode encode =>
    .transform (undescribed encoded) (undescribed decoded) decode encode
  | .custom name parent decode => .custom name (undescribed parent) decode
termination_by structural k => k

/-- The schemas of a list with all descriptions removed. -/
def undescribedList : List Schema → List Schema
  | [] => []
  | s :: rest => undescribed s :: undescribedList rest
termination_by structural l => l

/-- The properties of a list with all descriptions removed. -/
def undescribedProperties : List (String × Schema) → List (String × Schema)
  | [] => []
  | (name, s) :: rest => (name, undescribed s) :: undescribedProperties rest
termination_by structural l => l

end

theorem undescribedProperties_eq (properties : List (String × Schema)) :
    undescribedProperties properties = Entries.mapValues undescribed properties := by
  induction properties with
  | nil => rfl
  | cons p rest ih =>
      rw [undescribedProperties, ih]
      rfl

private theorem lazyCountList_undescribed {options : List Schema}
    (h : ∀ s ∈ options, s.undescribed.lazyCount = s.lazyCount) :
    lazyCountList (undescribedList options) = lazyCountList options := by
  induction options with
  | nil => rfl
  | cons s rest ih =>
      rw [List.forall_mem_cons] at h
      rw [undescribedList, lazyCountList, lazyCountList, h.1, ih h.2]

private theorem lazyCountProperties_undescribed {properties : List (String × Schema)}
    (h : ∀ p ∈ properties, p.2.undescribed.lazyCount = p.2.lazyCount) :
    lazyCountProperties (undescribedProperties properties) = lazyCountProperties properties := by
  induction properties with
  | nil => rfl
  | cons p rest ih =>
      obtain ⟨name, s⟩ := p
      rw [List.forall_mem_cons] at h
      rw [undescribedProperties, lazyCountProperties, lazyCountProperties, h.1, ih h.2]

theorem lazyCount_undescribed (s : Schema) : s.undescribed.lazyCount = s.lazyCount := by
  induction s with
  | number | string | boolean | any | enum | lazy => rfl
  | oneOf options q f d ih => exact lazyCountList_undescribed ih
  | array items q f d ih => exact ih
  | object properties q f d ih => exact lazyCountProperties_undescribed ih
  | map values q f d ih => exact ih
  | transform encoded decoded dec enc q f d ihe ihd => exact congrArg₂ (· + ·) ihe ihd
  | custom name parent dec q f d ih => exact ih

end Schema

namespace Definitions

/-- The definitions with all descriptions removed. -/
def undescribed (defs : Definitions) : Definitions :=
  ⟨Entries.mapValues Schema.undescribed defs.entries⟩

theorem resolve_undescribed (defs : Definitions) (target : String) :
    defs.undescribed.resolve target = (defs.resolve target).undescribed := by
  unfold resolve undescribed
  rw [Entries.get?_mapValues]
  cases Entries.get? defs.entries target <;> rfl

theorem nestingBound_undescribed (defs : Definitions) (s : Schema) :
    defs.undescribed.nestingBound s.undescribed = defs.nestingBound s := by
  have hdefs : defs.undescribed.lazyCount = defs.lazyCount := by
    unfold lazyCount undescribed
    rw [← Schema.undescribedProperties_eq]
    exact Schema.lazyCountProperties_undescribed fun p _ => Schema.lazyCount_undescribed p.2
  rw [nestingBound, nestingBound, Schema.lazyCount_undescribed, hdefs]

end Definitions

namespace Render

open Reading (Closed Contained Plain Quiet label member_none member_some quiet_label quiet_text
  uncommented)

/-! ## Texts with comments and without -/

/-- **A text reads as another one**: it is read by itself, and is the other without its comments. -/
structure Reads (text text' : String) : Prop where
  closed : Closed text
  uncommented : uncommented text = text'

section Reads

variable {text text' : String} {texts texts' : List String}

theorem reads_of_quiet (h : Quiet text) : Reads text text := ⟨h.closed, h.uncommented⟩

theorem reads_of_plain (h : Plain text) : Reads text text := ⟨h.closed, h.uncommented_eq⟩

theorem Reads.append {rest rest' : String} (h : Reads text text') (h' : Reads rest rest') :
    Reads (text ++ rest) (text' ++ rest') where
  closed := h.closed.append h'.closed
  uncommented := by rw [h.closed.uncommented_append, h.uncommented, h'.uncommented]

theorem Reads.within {before after : String} (hbefore : Plain before) (h : Reads text text')
    (hafter : Plain after) : Reads (before ++ text ++ after) (before ++ text' ++ after) :=
  ((reads_of_plain hbefore).append h).append (reads_of_plain hafter)

theorem reads_comment {description : String} (h : Contained description) :
    Reads ("/** " ++ description ++ " */ ") "" :=
  ⟨(Reading.flat_comment h).closed, Reading.uncommented_comment h⟩

theorem reads_intercalate {sep : String} (hsep : Plain sep) (h : List.Forall₂ Reads texts texts') :
    Reads (sep.intercalate texts) (sep.intercalate texts') := by
  induction h with
  | nil => exact reads_of_quiet Reading.quiet_empty
  | cons hfirst hrest ih =>
      cases hrest with
      | nil =>
          rw [String.intercalate_singleton, String.intercalate_singleton]
          exact hfirst
      | cons =>
          rw [String.intercalate_cons_cons, String.intercalate_cons_cons]
          exact (hfirst.append (reads_of_plain hsep)).append ih

theorem reads_join (h : List.Forall₂ Reads texts texts') :
    Reads (String.join texts) (String.join texts') := by
  induction h with
  | nil => exact reads_of_quiet Reading.quiet_empty
  | cons hfirst _ ih =>
      rw [String.join_cons, String.join_cons]
      exact hfirst.append ih

end Reads

/-- A type shows another one: its text reads as the other, and both are unions or neither is. -/
structure Shows (type type' : TypeExpr) : Prop where
  text : Reads type.text type'.text
  isUnion : type.isUnion = type'.isUnion

section Shows

variable {type type' : TypeExpr} {texts texts' : List String}

theorem shows_union (h : List.Forall₂ Reads texts texts') :
    Shows (.union texts) (.union texts') := by
  have hbar : Plain " | " := by decide
  cases h with
  | nil => exact ⟨reads_of_plain (by decide), rfl⟩
  | cons hfirst hrest =>
      cases hrest with
      | nil => exact ⟨hfirst, rfl⟩
      | cons hsecond hothers =>
          exact ⟨reads_intercalate hbar (.cons hfirst (.cons hsecond hothers)), rfl⟩

theorem Shows.array (h : Shows type type') : Shows type.array type'.array := by
  unfold TypeExpr.array
  rw [← h.isUnion]
  split
  · exact ⟨.within (by decide) h.text (by decide), rfl⟩
  · exact ⟨h.text.append (reads_of_plain (by decide)), rfl⟩

theorem Shows.record (h : Shows type type') : Shows type.record type'.record :=
  ⟨.within (by decide) h.text (by decide), rfl⟩

theorem shows_object (h : List.Forall₂ Reads texts texts') :
    Shows (.object texts) (.object texts') := by
  have hbetween : Plain "; " := by decide
  cases h with
  | nil => exact ⟨reads_of_plain (by decide), rfl⟩
  | cons hfirst hrest =>
      have hmembers := reads_intercalate hbetween (.cons hfirst hrest)
      exact ⟨.within (by decide) hmembers (by decide), rfl⟩

/-- **A member shows the member without its description.** -/
theorem reads_member {name : String} {description : Option String} {required : Bool}
    (h : Shows type type') (hdescription : ∀ text, description = some text → Contained text) :
    Reads (TypeExpr.member name description required type)
      (TypeExpr.member name none required type') := by
  have hlabeled : Reads (label name required ++ type.text) (label name required ++ type'.text) :=
    (reads_of_quiet (quiet_label name required)).append h.text
  rw [member_none]
  cases description with
  | none =>
      rw [member_none]
      exact hlabeled
  | some text =>
      rw [member_some, ← String.empty_append (s := label name required ++ type'.text)]
      exact (reads_comment (hdescription text rfl)).append hlabeled

theorem shows_orNull {kind : Kind Schema} {required : Bool} (h : Shows type type') :
    Shows (orNull kind required type) (orNull (Schema.undescribedKind kind) required type') := by
  have hnull : Shows (.union [type.text, "null"]) (.union [type'.text, "null"]) :=
    shows_union (.cons h.text (.cons (reads_of_plain (by decide)) .nil))
  cases required with
  | true => cases kind <;> exact h
  | false =>
      cases kind with
      | any => exact h
      | _ => exact hnull

end Shows

/-! ## Registries in step -/

/-- **One registry mirrors the other**: the same names in the same order, bodies that read as those
of the other, and names that stand for themselves. -/
structure Mirrored (r q : Registry String) : Prop where
  related : Registry.Related Reads r q
  names : ∀ e ∈ r.entries, Reads e.1 e.1

section Mirrored

variable {r q : Registry String} {name body body' : String}

theorem mirrored_empty : Mirrored {} {} := ⟨Registry.related_empty, nofun⟩

theorem Mirrored.opened (h : Mirrored r q) (name : String) :
    Mirrored (r.opened name) (q.opened name) :=
  ⟨h.related.opened name, h.names⟩

theorem Mirrored.closed (h : Mirrored r q) (hname : Reads name name) (hbody : Reads body body') :
    Mirrored (r.closed name body) (q.closed name body') := by
  refine ⟨h.related.closed name hbody, fun e he => ?_⟩
  rcases Entries.mem_put he with hmem | rfl
  · exact h.names e hmem
  · exact hname

theorem Mirrored.entries (h : Mirrored r q) :
    Entries.mapValues uncommented r.entries = q.entries := by
  rw [Entries.mapValues, ← List.forall₂_eq_eq_eq, List.forall₂_map_left_iff]
  exact h.related.entries.imp fun _ _ he => Prod.ext he.1 he.2.uncommented

/-- The declarations of one registry read as those of the other. -/
theorem Mirrored.declarations (h : Mirrored r q) (config : RenderConfig) :
    Reads (Bindings.declarations config r.entries) (Bindings.declarations config q.entries) := by
  have hword : Plain (Bindings.exportWord config) := by
    unfold Bindings.exportWord
    split <;> decide
  have hboth : List.Forall₂ (fun e e' => Reads e.1 e.1 ∧ e.1 = e'.1 ∧ Reads e.2 e'.2) r.entries
      q.entries := (List.forall₂_and_left _ _).mpr ⟨h.names, h.related.entries⟩
  refine reads_join ?_
  rw [List.forall₂_map_left_iff, List.forall₂_map_right_iff]
  refine hboth.imp fun e e' ⟨hname, hsame, hbody⟩ => ?_
  rw [← hsame]
  have hdeclared : Reads (Bindings.exportWord config ++ "type " ++ e.1)
      (Bindings.exportWord config ++ "type " ++ e.1) :=
    ((reads_of_plain hword).append (reads_of_plain (by decide))).append hname
  exact ((hdeclared.append (reads_of_plain (by decide))).append hbody).append
    (reads_of_plain (by decide))

end Mirrored

/-! ## Two renderings -/

/-- A schema directly inside another one, or the definition that a lazy node stands for. -/
inductive Step (defs : Definitions) (side : Direction) : Schema → Schema → Prop
  | part {s t} : Part side s t → Step defs side s t
  | definition {name target q f d} :
      Step defs side ⟨.lazy name target, q, f, d⟩ (defs.resolve target)

/-- Every node that a rendering can come to is legible, and the names of definitions stand for
themselves. -/
def LegibleThroughout (defs : Definitions) (side : Direction) (s : Schema) : Prop :=
  ∀ t, Relation.ReflTransGen (Step defs side) s t → LegibleNode (fun name => Reads name name) t

section Simulation

variable {defs : Definitions} {side : Direction} {s t : Schema}
  {follow follow' : String → String → Render Unit}

theorem LegibleThroughout.self (h : LegibleThroughout defs side s) :
    LegibleNode (fun name => Reads name name) s := h s .refl

theorem LegibleThroughout.step (h : LegibleThroughout defs side s) (hstep : Step defs side s t) :
    LegibleThroughout defs side t :=
  fun u hu => h u (.head hstep hu)

theorem LegibleThroughout.part (h : LegibleThroughout defs side s) (hpart : Part side s t) :
    LegibleThroughout defs side t :=
  h.step (.part hpart)

/-- Nodes are legible throughout when they are on a set of schemas that no step leads out of. -/
theorem legibleThroughout_of_closed {S : Schema → Prop}
    (hclosed : ∀ s t, S s → Step defs side s t → S t)
    (hS : ∀ s, S s → LegibleNode (fun name => Reads name name) s) (hs : S s) :
    LegibleThroughout defs side s := by
  intro t ht
  refine hS t ?_
  induction ht with
  | refl => exact hs
  | tail _ hstep ih => exact hclosed _ _ ih hstep

/-- The definition of a name can be declared in step. -/
def FollowsInStep (defs : Definitions) (side : Direction)
    (follow follow' : String → String → Render Unit) : Prop :=
  ∀ name target, Reads name name → LegibleThroughout defs side (defs.resolve target) →
    ∀ r q, Mirrored r q → Mirrored (follow name target r).2 (follow' name target q).2

/-- A schema is rendered in step with the schema without descriptions. -/
def InStep (side : Direction) (follow follow' : String → String → Render Unit) (s : Schema) :
    Prop :=
  ∀ r q, Mirrored r q →
    Shows (schema side follow s r).1 (schema side follow' s.undescribed q).1 ∧
      Mirrored (schema side follow s r).2 (schema side follow' s.undescribed q).2

/-- A shape is rendered in step with the shape without descriptions. -/
def ShapeInStep (side : Direction) (follow follow' : String → String → Render Unit)
    (kind : Kind Schema) : Prop :=
  ∀ r q, Mirrored r q →
    Shows (shape side follow kind r).1 (shape side follow' (Schema.undescribedKind kind) q).1 ∧
      Mirrored (shape side follow kind r).2 (shape side follow' (Schema.undescribedKind kind) q).2

theorem inStep_of_shape (h : ShapeInStep side follow follow' s.kind) :
    InStep side follow follow' s := by
  intro r q hrq
  obtain ⟨kind, required, refinement, description⟩ := s
  obtain ⟨htype, hmirrored⟩ := h r q hrq
  exact ⟨shows_orNull htype, hmirrored⟩

theorem nested_inStep (h : ShapeInStep side follow follow' s.kind) : ∀ r q, Mirrored r q →
    Shows (nested side follow s r).1 (nested side follow' s.undescribed q).1 ∧
      Mirrored (nested side follow s r).2 (nested side follow' s.undescribed q).2 := by
  cases s
  exact h

theorem list_inStep {options : List Schema} (h : ∀ s ∈ options, InStep side follow follow' s)
    {r q : Registry String} (hrq : Mirrored r q) :
    List.Forall₂ Reads (list side follow options r).1
        (list side follow' (Schema.undescribedList options) q).1 ∧
      Mirrored (list side follow options r).2
        (list side follow' (Schema.undescribedList options) q).2 := by
  induction options generalizing r q with
  | nil => exact ⟨.nil, hrq⟩
  | cons s rest ih =>
      rw [List.forall_mem_cons] at h
      obtain ⟨hfirst, hmid⟩ := h.1 r q hrq
      obtain ⟨hrest, hlast⟩ := ih h.2 hmid
      exact ⟨.cons hfirst.text hrest, hlast⟩

theorem members_inStep {properties : List (String × Schema)}
    (h : ∀ p ∈ properties, InStep side follow follow' p.2)
    (hdescription : ∀ p ∈ properties, ∀ text, p.2.description = some text → Contained text)
    {r q : Registry String} (hrq : Mirrored r q) :
    List.Forall₂ Reads (members side follow properties r).1
        (members side follow' (Schema.undescribedProperties properties) q).1 ∧
      Mirrored (members side follow properties r).2
        (members side follow' (Schema.undescribedProperties properties) q).2 := by
  induction properties generalizing r q with
  | nil => exact ⟨.nil, hrq⟩
  | cons p rest ih =>
      obtain ⟨name, kind, required, refinement, description⟩ := p
      rw [List.forall_mem_cons] at h hdescription
      obtain ⟨hfirst, hmid⟩ := h.1 r q hrq
      obtain ⟨hrest, hlast⟩ := ih h.2 hdescription.2 hmid
      exact ⟨.cons (reads_member hfirst hdescription.1) hrest, hlast⟩

/-- **Shape by shape a rendering keeps step.** -/
theorem shape_inStep (hfollow : FollowsInStep defs side follow follow') (s : Schema) :
    LegibleThroughout defs side s → ShapeInStep side follow follow' s.kind := by
  induction s with
  | number =>
      exact fun _ r q hrq => ⟨⟨reads_of_plain (by decide : Plain "number"), rfl⟩, hrq⟩
  | string =>
      exact fun _ r q hrq => ⟨⟨reads_of_plain (by decide : Plain "string"), rfl⟩, hrq⟩
  | boolean =>
      exact fun _ r q hrq => ⟨⟨reads_of_plain (by decide : Plain "boolean"), rfl⟩, hrq⟩
  | any =>
      exact fun _ r q hrq => ⟨⟨reads_of_plain (by decide : Plain "any"), rfl⟩, hrq⟩
  | enum options =>
      intro _ r q hrq
      have hparts : List.Forall₂ Reads (options.map Json.text) (options.map Json.text) := by
        refine List.forall₂_same.mpr fun text htext => ?_
        obtain ⟨v, _, rfl⟩ := List.mem_map.mp htext
        exact reads_of_quiet (quiet_text v)
      exact ⟨shows_union hparts, hrq⟩
  | oneOf options _ _ _ ih =>
      intro h r q hrq
      obtain ⟨htexts, hmirrored⟩ := list_inStep
        (fun s hs => inStep_of_shape (ih s hs (h.part (.option hs)))) hrq
      exact ⟨shows_union htexts, hmirrored⟩
  | array items _ _ _ ih =>
      intro h r q hrq
      obtain ⟨hitem, hmirrored⟩ := inStep_of_shape (ih (h.part .items)) r q hrq
      exact ⟨hitem.array, hmirrored⟩
  | object properties _ _ _ ih =>
      intro h r q hrq
      obtain ⟨hmembers, hmirrored⟩ := members_inStep
        (fun p hp => inStep_of_shape (ih p hp (h.part (.property hp))))
        (h.self.description properties rfl) hrq
      exact ⟨shows_object hmembers, hmirrored⟩
  | map values _ _ _ ih =>
      intro h r q hrq
      obtain ⟨hvalue, hmirrored⟩ := inStep_of_shape (ih (h.part .values)) r q hrq
      exact ⟨hvalue.record, hmirrored⟩
  | lazy name target =>
      intro h r q hrq
      have hname : Reads name name := h.self.name name target rfl
      exact ⟨⟨hname, rfl⟩, hfollow name target hname (h.step .definition) r q hrq⟩
  | transform encoded decoded dec enc _ _ _ ihe ihd =>
      intro h
      cases side with
      | encode => exact nested_inStep (ihe (h.part .encoded))
      | decode => exact nested_inStep (ihd (h.part .decoded))
  | custom name parent dec _ _ _ ih =>
      intro h
      cases side with
      | encode => exact nested_inStep (ih (h.part .parent))
      | decode =>
          exact fun r q hrq => ⟨⟨reads_of_plain (by decide : Plain "unknown"), rfl⟩, hrq⟩

/-- **Declaring a definition keeps step**, with any number of definitions inside one another. -/
theorem followUpTo_inStep (depth : Nat) : FollowsInStep defs side (followUpTo defs side depth)
    (followUpTo defs.undescribed side depth) := by
  induction depth with
  | zero => exact fun _ _ _ _ _ _ hrq => hrq
  | succ depth ih =>
      intro name target hname hlegible r q hrq
      have hsame : q.knows name = r.knows name := (hrq.related.knows name).symm
      rw [followUpTo, followUpTo]
      cases hknows : r.knows name with
      | true =>
          rw [Registry.define_of_knows hknows, Registry.define_of_knows (hsame.trans hknows)]
          exact hrq
      | false =>
          rw [Registry.define_of_not_knows hknows,
            Registry.define_of_not_knows (hsame.trans hknows), Definitions.resolve_undescribed]
          obtain ⟨hbody, hafter⟩ := inStep_of_shape (shape_inStep ih _ hlegible)
            (r.opened name) (q.opened name) (hrq.opened name)
          exact hafter.closed hname hbody.text

theorem render_inStep (h : LegibleThroughout defs side s) {r q : Registry String}
    (hrq : Mirrored r q) :
    Reads (render defs side s r).1 (render defs.undescribed side s.undescribed q).1 ∧
      Mirrored (render defs side s r).2 (render defs.undescribed side s.undescribed q).2 := by
  have hfollow : FollowsInStep defs side _ _ := followUpTo_inStep (defs.nestingBound s)
  obtain ⟨htype, hmirrored⟩ := inStep_of_shape (shape_inStep hfollow s h) r q hrq
  unfold render
  rw [Definitions.nestingBound_undescribed]
  exact ⟨htype.text, hmirrored⟩

end Simulation

/-! ## Schemas in turn -/

/-- Renders schemas one after the other. -/
def renderAll (defs : Definitions) (side : Direction) (ss : List Schema) : Render (List String) :=
  ss.mapM (render defs side)

theorem renderAll_cons (defs : Definitions) (side : Direction) (s : Schema) (rest : List Schema)
    (r : Registry String) :
    renderAll defs side (s :: rest) r =
      ((render defs side s r).1 :: (renderAll defs side rest (render defs side s r).2).1,
        (renderAll defs side rest (render defs side s r).2).2) := by
  rw [renderAll, List.mapM_cons]
  rfl

theorem renderAll_inStep {defs : Definitions} {side : Direction} {ss : List Schema}
    (h : ∀ s ∈ ss, LegibleThroughout defs side s) {r q : Registry String} (hrq : Mirrored r q) :
    List.Forall₂ Reads (renderAll defs side ss r).1
        (renderAll defs.undescribed side (ss.map Schema.undescribed) q).1 ∧
      Mirrored (renderAll defs side ss r).2
        (renderAll defs.undescribed side (ss.map Schema.undescribed) q).2 := by
  induction ss generalizing r q with
  | nil => exact ⟨.nil, hrq⟩
  | cons s rest ih =>
      rw [List.forall_mem_cons] at h
      obtain ⟨hfirst, hmid⟩ := render_inStep h.1 hrq
      obtain ⟨hrest, hlast⟩ := ih h.2 hmid
      rw [List.map_cons, renderAll_cons, renderAll_cons]
      exact ⟨.cons hfirst hrest, hlast⟩

/-- **Descriptions only add comments**, as long as none has the end of a comment in it: without
comments the types of some schemas, the declarations collected for them and the source of the
declarations are those of the schemas without descriptions. -/
theorem renderAll_undescribed {defs : Definitions} {config : RenderConfig} {ss : List Schema}
    (h : ∀ s ∈ ss, LegibleThroughout defs config.direction s) :
    let described := renderAll defs config.direction ss {}
    let plain := renderAll defs.undescribed config.direction (ss.map Schema.undescribed) {}
    described.1.map uncommented = plain.1 ∧
      Entries.mapValues uncommented described.2.entries = plain.2.entries ∧
      uncommented (Bindings.declarations config described.2.entries) =
        Bindings.declarations config plain.2.entries := by
  intro described plain
  obtain ⟨htexts, hmirrored⟩ := renderAll_inStep h mirrored_empty
  refine ⟨?_, hmirrored.entries, (hmirrored.declarations config).uncommented⟩
  rw [← List.forall₂_eq_eq_eq, List.forall₂_map_left_iff]
  exact htexts.imp fun _ _ hreads => hreads.uncommented

/-- A station, and the stations after it. -/
def station : Schema :=
  ⟨.object [("next", ((Schema.lazy "Station" "station").asOptional).describe "next | last")], true,
    none, none⟩

/-- The definition that the next station refers to. -/
def stations : Definitions := ⟨[("station", station)]⟩

/-- Everything that stands in a station. -/
def InStation (s : Schema) : Prop :=
  s = station ∨ s = ((Schema.lazy "Station" "station").asOptional).describe "next | last"

theorem legible_station : LegibleThroughout stations .encode station := by
  refine legibleThroughout_of_closed (S := InStation) ?_ ?_ (.inl rfl)
  · rintro s t (rfl | rfl) (hpart | _)
    · cases hpart with
      | property hmem => exact .inr (congrArg Prod.snd (List.mem_singleton.mp hmem))
    · cases hpart
    · exact .inl rfl
  · rintro s (rfl | rfl)
    · refine legibleNode_object ?_
      rintro p hp text htext
      obtain rfl := List.mem_singleton.mp hp
      obtain rfl := Option.some.inj htext
      decide +kernel
    · refine ⟨?_, nofun⟩
      rintro name target hkind
      obtain ⟨rfl, rfl⟩ := Kind.lazy.inj hkind
      exact reads_of_plain (by decide)

theorem renderAll_undescribed_station :
    LegibleThroughout stations .encode station ∧
    (renderAll stations .encode [station] {}).1 =
      ["\x7b /** next | last */ next?: Station | null \x7d"] ∧
    (renderAll stations.undescribed .encode [station.undescribed] {}).1 =
      ["\x7b next?: Station | null \x7d"] ∧
    (renderAll stations.undescribed .encode [station.undescribed] {}).2.entries =
      [("Station", "\x7b next?: Station | null \x7d")] := by
  have htype : (renderAll stations .encode [station] {}).1 =
      ["\x7b /** next | last */ next?: Station | null \x7d"] := by decide
  have hdeclared : (renderAll stations .encode [station] {}).2.entries =
      [("Station", "\x7b /** next | last */ next?: Station | null \x7d")] := by decide
  obtain ⟨htexts, hentries, _⟩ :=
    @renderAll_undescribed stations {} [station] (List.forall_mem_singleton.mpr legible_station)
  refine ⟨legible_station, htype, htexts.symm.trans ?_, hentries.symm.trans ?_⟩
  · exact (congrArg _ htype).trans (by decide)
  · exact (congrArg _ hdeclared).trans (by decide)

/-- A description with the end of a comment in it goes on outside of its comment. -/
theorem render_ends_early :
    let text s := (render {} .encode s {}).1
    let described := Schema.object [("a", Schema.string.describe "ends */ early")]
    text described = "\x7b /** ends */ early */ a: string \x7d" ∧
      uncommented (text described) = "\x7b early */ a: string \x7d" ∧
      text described.undescribed = "\x7b a: string \x7d" := by
  decide

end Render

end RouteContract
