import Mathlib.Logic.Relation
import RouteContract.Proofs.Json.Alike
import RouteContract.Schema.Cast
import RouteContract.Schema.Codec

/-!
# Reach -- what stands in a schema and in the definitions it refers to

`Schema.Part` is one step from a node to a schema inside it, where the definition of a lazy node
counts as inside. A condition on a schema is stated for one node and asked of all nodes that can be
reached (`Schema.Throughout`), so it passes to every part, also through recursive definitions.

The conditions that several results share are here: `Schema.CodecFree`, `Schema.WellFormed` for what
every schema promises of itself, and `Schema.OrderBlind` for refinements that cannot tell the order
of object members.
-/

namespace RouteContract

namespace Schema

/-- A schema directly inside another one, or the definition that a lazy node stands for. -/
inductive Part (defs : Definitions) : Schema → Schema → Prop where
  | option {options r f d s} : s ∈ options → Part defs ⟨.oneOf options, r, f, d⟩ s
  | items {items r f d} : Part defs ⟨.array items, r, f, d⟩ items
  | property {properties r f d} {property : String × Schema} :
      property ∈ properties → Part defs ⟨.object properties, r, f, d⟩ property.2
  | values {values r f d} : Part defs ⟨.map values, r, f, d⟩ values
  | target {name target r f d} : Part defs ⟨.lazy name target, r, f, d⟩ (defs.resolve target)
  | encoded {encoded decoded dec enc r f d} :
      Part defs ⟨.transform encoded decoded dec enc, r, f, d⟩ encoded
  | decoded {encoded decoded dec enc r f d} :
      Part defs ⟨.transform encoded decoded dec enc, r, f, d⟩ decoded
  | parent {name parent dec r f d} : Part defs ⟨.custom name parent dec, r, f, d⟩ parent

/-- A schema that stands in another one, at any depth and through definitions. -/
abbrev Reaches (defs : Definitions) : Schema → Schema → Prop := Relation.ReflTransGen (Part defs)

/-- A condition on nodes holds of every node that a schema reaches. -/
def Throughout (defs : Definitions) (P : Schema → Prop) (s : Schema) : Prop :=
  ∀ t, Reaches defs s t → P t

section Throughout

variable {defs : Definitions} {P Q : Schema → Prop} {s t : Schema}

theorem Throughout.self (h : Throughout defs P s) : P s := h s .refl

theorem Throughout.part (h : Throughout defs P s) (hpart : Part defs s t) : Throughout defs P t :=
  fun u hu => h u (.head hpart hu)

theorem Throughout.imp (h : Throughout defs P s) (hPQ : ∀ t, P t → Q t) : Throughout defs Q s :=
  fun t ht => hPQ t (h t ht)

/-- A condition holds throughout when it holds on a set of schemas that no part leads out of. -/
theorem Throughout.of_closed {S : Schema → Prop} (hclosed : ∀ s t, S s → Part defs s t → S t)
    (hP : ∀ s, S s → P s) (hs : S s) : Throughout defs P s := by
  intro t ht
  refine hP t ?_
  induction ht with
  | refl => exact hs
  | tail _ hpart ih => exact hclosed _ _ ih hpart

end Throughout

/-! ## Names -/

/-- A lazy node with the name and the target stands in the schema. -/
def Names (defs : Definitions) (s : Schema) (name target : String) : Prop :=
  ∃ r f d, Reaches defs s ⟨.lazy name target, r, f, d⟩

theorem Names.of_part {defs : Definitions} {s t : Schema} {name target : String}
    (h : Names defs t name target) (hpart : Part defs s t) : Names defs s name target := by
  obtain ⟨r, f, d, hreach⟩ := h
  exact ⟨r, f, d, .head hpart hreach⟩

/-- Lazy nodes of one name always stand for the same schema. -/
def NamesAgree (defs : Definitions) (s : Schema) : Prop :=
  ∀ name target target', Names defs s name target → Names defs s name target' →
    defs.resolve target = defs.resolve target'

/-! ## Codecs -/

/-- No codec stands in the schema. -/
def CodecFree (defs : Definitions) (s : Schema) : Prop :=
  Throughout defs (fun t => t.kind.isCodec = false) s

theorem CodecFree.not_transform {defs : Definitions} {encoded decoded : Schema}
    {dec enc : Conversion} {r : Bool} {f : Option Refinement} {d : Option String}
    (h : CodecFree defs ⟨.transform encoded decoded dec enc, r, f, d⟩) : False :=
  nomatch h.self

theorem CodecFree.not_custom {defs : Definitions} {name : String} {parent : Schema}
    {dec : Conversion} {r : Bool} {f : Option Refinement} {d : Option String}
    (h : CodecFree defs ⟨.custom name parent dec, r, f, d⟩) : False :=
  nomatch h.self

/-! ## What a schema promises of itself -/

/-- **A well-formed node** declares every property once, and its conversions make well-formed values
out of well-formed values. Both hold of every schema whose properties and values are maps: it is the
entries that could list a name twice. -/
structure WellFormedNode (t : Schema) : Prop where
  /-- No property is declared twice. -/
  distinct : ∀ properties, t.kind = .object properties → Entries.Distinct properties
  /-- A conversion of a well-formed value gives a well-formed one. -/
  conversion : ∀ direction convert, t.conversion? direction = some convert →
    ∀ v o, v.WellFormed → convert v = .ok o → o.WellFormed

/-- Every node of the schema is well-formed. -/
def WellFormed (defs : Definitions) (s : Schema) : Prop := Throughout defs WellFormedNode s

/-- No codec function in the schema ever returns null. -/
def NeverNull (defs : Definitions) (s : Schema) : Prop :=
  Throughout defs (fun t => ∀ direction convert, t.conversion? direction = some convert →
    ∀ v, convert v ≠ .ok .null) s

/-! ## Refinements -/

end Schema

/-- A refinement gives the same verdict on values that differ only in the order of members. -/
def Refinement.OrderBlind (judge : Refinement) : Prop :=
  ∀ v v', v.WellFormed → Json.Alike v v' → (judge v = .ok () ↔ judge v' = .ok ())

namespace Schema

/-- No refinement in the schema can tell the order of members. -/
def OrderBlind (defs : Definitions) (s : Schema) : Prop :=
  Throughout defs (fun t => ∀ judge, t.refinement = some judge → judge.OrderBlind) s

end Schema

/-! ## A recursive schema with a cast -/

/-- The boolean cast reads two words. -/
theorem Cast.readBoolean_eq_ok {w d : Json} (h : onString readBoolean w = .ok d) :
    ∃ b : Bool, w = .str (if b then "true" else "false") ∧ d = .bool b := by
  cases w with
  | str s =>
      unfold onString readBoolean at h
      dsimp only at h
      split_ifs at h with htrue hfalse
      · cases h
        exact ⟨true, by rw [htrue]; rfl, rfl⟩
      · cases h
        exact ⟨false, by rw [hfalse]; rfl, rfl⟩
  | _ => cases h

/-- A switch, and perhaps another one behind it. -/
def switch : Schema :=
  ⟨.object [("on", .castBoolean), ("next", ⟨.lazy "Switch" "Switch", false, none, none⟩)], true,
    none, none⟩

/-- The definition that the second switch refers to. -/
def switches : Definitions := ⟨[("Switch", switch)]⟩

/-- Everything that stands in a switch. -/
def InSwitch (s : Schema) : Prop :=
  s = switch ∨ s = .castBoolean ∨ s = ⟨.lazy "Switch" "Switch", false, none, none⟩ ∨
    s = .string ∨ s = .boolean

open Schema (Throughout WellFormed NeverNull NamesAgree)

theorem inSwitch : Throughout switches InSwitch switch := by
  refine .of_closed (fun s t hs h => ?_) (fun s hs => hs) (.inl rfl)
  rcases hs with rfl | rfl | rfl | rfl | rfl
  · unfold switch at h
    cases h with
    | property hmem =>
        rcases List.mem_pair.mp hmem with rfl | rfl
        · exact .inr (.inl rfl)
        · exact .inr (.inr (.inl rfl))
  · cases h with
    | encoded => exact .inr (.inr (.inr (.inl rfl)))
    | decoded => exact .inr (.inr (.inr (.inr rfl)))
  · cases h
    exact .inl rfl
  · cases h
  · cases h

theorem wellFormed_switch : WellFormed switches switch := by
  refine inSwitch.imp fun s hs => ⟨?_, ?_⟩
  -- only the switch itself has properties, and only the cast converts
  · rintro properties hkind
    rcases hs with rfl | rfl | rfl | rfl | rfl <;> cases hkind
    show List.Nodup ["on", "next"]
    decide
  · rintro direction convert hconvert v o hv hok
    rcases hs with rfl | rfl | rfl | rfl | rfl <;> cases direction <;> cases hconvert
    · obtain ⟨b, _, rfl⟩ := Cast.readBoolean_eq_ok hok
      trivial
    · cases v <;> cases hok
      trivial

theorem neverNull_switch : NeverNull switches switch := by
  refine inSwitch.imp fun s hs direction convert hconvert v hok => ?_
  rcases hs with rfl | rfl | rfl | rfl | rfl <;> cases direction <;> cases hconvert
  · obtain ⟨b, _, hb⟩ := Cast.readBoolean_eq_ok hok
    cases hb
  · cases v <;> cases hok

theorem namesAgree_switch : NamesAgree switches switch := by
  have htarget : ∀ name target, Schema.Names switches switch name target → target = "Switch" := by
    rintro name target ⟨r, f, d, hreach⟩
    rcases inSwitch _ hreach with h | h | h | h | h <;> cases h
    rfl
  intro name target target' h h'
  rw [htarget name target h, htarget name target' h']

end RouteContract
