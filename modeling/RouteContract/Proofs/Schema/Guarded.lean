import Mathlib.Data.Set.Finite.Basic
import Mathlib.Logic.Relation
import RouteContract.Proofs.Entries
import RouteContract.Schema.Basic

/-!
# Guarded -- definitions that reach a part of the value before they come round

A schema hands the value it is given to the options of a union, to the sides of a codec and to the
definition of a lazy node; the properties of an object, the elements of an array and the values of a
map see parts of it. `Schema.openTargets` lists the definitions that a schema opens on the very value
it is given, and `Definitions.Guarded` says that no definition opens itself that way: every cycle of
references passes through a property, an element or a map value. Since there are only finitely many
definitions, they then cannot be opened without end either (`Guarded.acc`).
-/

namespace RouteContract

namespace Schema

mutual

/-- The targets that a schema opens on the value it is given. -/
def openTargets : Schema → List String
  | ⟨kind, _, _, _⟩ => openTargetsKind kind
termination_by structural s => s

/-- The targets that a shape opens on the value it is given; containers stop here. -/
def openTargetsKind : Kind Schema → List String
  | .oneOf options => openTargetsList options
  | .lazy _ target => [target]
  | .transform encoded decoded _ _ => openTargets encoded ++ openTargets decoded
  | .custom _ parent _ => openTargets parent
  | .number | .string | .boolean | .any | .enum _ | .array _ | .object _ | .map _ => []
termination_by structural k => k

/-- The targets that a list of schemas opens on the value it is given. -/
def openTargetsList : List Schema → List String
  | [] => []
  | s :: rest => openTargets s ++ openTargetsList rest
termination_by structural l => l

end

theorem mem_openTargetsList {options : List Schema} {option : Schema} (h : option ∈ options)
    {target : String} (ht : target ∈ option.openTargets) : target ∈ openTargetsList options := by
  induction options with
  | nil => cases h
  | cons s rest ih =>
      rw [openTargetsList, List.mem_append]
      rcases List.mem_cons.mp h with rfl | h
      · exact .inl ht
      · exact .inr (ih h)

end Schema

namespace Definitions

/-- The first definition opens the second one on the value it is given. -/
def Opens (defs : Definitions) (a b : String) : Prop := b ∈ (defs.resolve a).openTargets

/-- **No definition opens itself on the value it is given**, directly or through others. -/
def Guarded (defs : Definitions) : Prop := ∀ target, ¬ Relation.TransGen defs.Opens target target

/-- A definition that opens nothing but itself. -/
def circle : Definitions := ⟨[("Circle", .lazy "Circle" "Circle")]⟩

variable {defs : Definitions}

/-- Only a listed name opens anything. -/
theorem Opens.mem_keys {a b : String} (h : defs.Opens a b) : a ∈ Entries.keys defs.entries := by
  by_contra hmem
  have hnone : Entries.get? defs.entries a = none := Entries.get?_eq_none_iff.mpr hmem
  rw [Opens, resolve, hnone] at h
  cases h

/-- **Guarded definitions are not opened without end** on one value. -/
theorem Guarded.acc (h : defs.Guarded) (target : String) :
    Acc (fun b a => defs.Opens a b) target := by
  -- on the listed names, of which there are finitely many, opening has no cycle and so no descent
  let names := {key : String // key ∈ Entries.keys defs.entries}
  let opened : names → names → Prop := fun b a => Relation.TransGen defs.Opens a.1 b.1
  have : Finite names := (List.finite_toSet (Entries.keys defs.entries)).to_subtype
  have : IsTrans names opened := ⟨fun _ _ _ hab hbc => hbc.trans hab⟩
  have : Std.Irrefl opened := ⟨fun a => h a.1⟩
  have hwf : WellFounded opened := Finite.wellFounded_of_trans_of_irrefl opened
  have hlisted : ∀ key : names, Acc (fun b a => defs.Opens a b) key.1 := by
    intro key
    induction key using hwf.induction with
    | _ key ih =>
        refine .intro _ fun b hb => ?_
        by_cases hmem : b ∈ Entries.keys defs.entries
        · exact ih ⟨b, hmem⟩ (.single hb)
        · exact .intro _ fun c hc => absurd hc.mem_keys hmem
  by_cases hmem : target ∈ Entries.keys defs.entries
  · exact hlisted ⟨target, hmem⟩
  · exact .intro _ fun b hb => absurd hb.mem_keys hmem

end Definitions

end RouteContract
