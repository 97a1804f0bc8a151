import RouteContract.Proofs.Document.Recursion

/-!
# Order -- documentation does not depend on the order of compilation

What a compilation returns is read off the schema, whatever has been compiled before. What
compilations in turn leave behind is determined by what they refer to, once every name stands for one
schema: a name is defined exactly if one of the schemas reaches it, and its body is the object of what
it stands for (`Describe.definitions_of_compileAll`). Which schemas there are does not depend on their
order, and so neither do the definitions.
-/

namespace RouteContract

namespace Describe

variable {defs : Definitions} {ss : List Schema}

/-- Names that some schemas reach always stand for the same schema. -/
def NamesAgreeIn (defs : Definitions) (ss : List Schema) : Prop :=
  ∀ name target target', RefersIn defs ss (name, target) → RefersIn defs ss (name, target') →
    defs.resolve target = defs.resolve target'

/-- Schemas reach no other references than a set that they start in and that no definition leads out
of. -/
theorem RefersIn.of_closed {S : String × String → Prop} {ref : String × String}
    (h : RefersIn defs ss ref) (hstart : ∀ s ∈ ss, ∀ ref ∈ wireRefs s, S ref)
    (hclosed : ∀ ref, S ref → ∀ ref' ∈ wireRefs (defs.resolve ref.2), S ref') : S ref := by
  obtain ⟨s, hs, href⟩ := h
  induction href with
  | here hmem => exact hstart s hs _ hmem
  | there _ hmem ih => exact hclosed _ ih _ hmem

theorem refersIn_perm {ss' : List Schema} (h : ss.Perm ss') {ref : String × String} :
    RefersIn defs ss ref ↔ RefersIn defs ss' ref := by
  simp only [RefersIn, h.mem_iff]

/-- **The definitions that compilations leave behind**: for every name that is reached, the object of
what it stands for. -/
theorem definitions_of_compileAll (hnames : NamesAgreeIn defs ss) (name : String)
    (body : SchemaObject) : Entries.get? (compileAll defs ss {}).2.entries name = some body ↔
      ∃ target, RefersIn defs ss (name, target) ∧ body = wireObject (defs.resolve target) := by
  obtain ⟨hidle, hregistered, hknows⟩ := compileAll_registered defs ss
  constructor
  · intro hget
    obtain ⟨target, href, hbody, _⟩ := hregistered name body hget
    exact ⟨target, href, hbody⟩
  · rintro ⟨target, ⟨s, hs, href⟩, rfl⟩
    have hdocumented : Documented defs (compileAll defs ss {}).2.entries s :=
      documented_of_registered hidle hregistered hnames (fun _ h => ⟨s, hs, h⟩) (hknows s hs)
    exact hdocumented (name, target) href

/-- **Documentation does not depend on the order of compilation.** A schema is compiled to the same
object in every state as by a fresh compiler. And where every name stands for one schema, schemas in
any order leave the same definitions, each of them once, with the object that a fresh compiler returns
for what the name stands for as body. -/
theorem compile_order (defs : Definitions) :
    (∀ s r, (compile defs s r).1 = (compile defs s {}).1) ∧
    ∀ ss, NamesAgreeIn defs ss →
      Entries.Distinct (compileAll defs ss {}).2.entries ∧
      (∀ name body, Entries.get? (compileAll defs ss {}).2.entries name = some body ↔
        ∃ target, RefersIn defs ss (name, target) ∧
          body = (compile defs (defs.resolve target) {}).1) ∧
      ∀ ss', ss.Perm ss' → ∀ name, Entries.get? (compileAll defs ss {}).2.entries name =
        Entries.get? (compileAll defs ss' {}).2.entries name := by
  refine ⟨fun s r => by rw [compile_fst, compile_fst], fun ss hnames => ⟨?_, ?_, ?_⟩⟩
  · exact compileAll_distinct defs ss
  · intro name body
    simp only [compile_fst]
    exact definitions_of_compileAll hnames name body
  · intro ss' hperm name
    have hnames' : NamesAgreeIn defs ss' := by
      simpa only [NamesAgreeIn, refersIn_perm hperm] using hnames
    apply Option.ext
    intro body
    rw [definitions_of_compileAll hnames, definitions_of_compileAll hnames']
    simp only [refersIn_perm hperm]

/-- Trees and lists of trees. -/
def trees : Definitions :=
  ⟨[("tree", .object [("below", .lazy "Forest" "forest")]), ("forest", .array (.lazy "Tree" "tree"))]⟩

theorem compile_order_trees :
    let tree : Schema := .lazy "Tree" "tree"
    let forest : Schema := .lazy "Forest" "forest"
    Entries.keys (compileAll trees [forest, tree] {}).2.entries = ["Tree", "Forest"] ∧
    Entries.keys (compileAll trees [tree, forest] {}).2.entries = ["Forest", "Tree"] ∧
    ∀ name, Entries.get? (compileAll trees [forest, tree] {}).2.entries name =
      Entries.get? (compileAll trees [tree, forest] {}).2.entries name := by
  intro tree forest
  have hnames : NamesAgreeIn trees [forest, tree] := by
    -- the name says which definition is meant
    let target (name : String) : String := if name = "Tree" then "tree" else "forest"
    have htarget : ∀ ref, RefersIn trees [forest, tree] ref → ref.2 = target ref.1 := by
      intro ref h
      refine h.of_closed (S := fun ref => ref.2 = target ref.1) ?_ ?_
      · simp [forest, tree, target, Schema.lazy, Schema.ofKind, wireRefs, shapeRefs]
      · rintro ⟨name, t⟩ ht ref' hmem
        obtain rfl : t = target name := ht
        by_cases hname : name = "Tree"
        · subst hname
          obtain rfl : ref' = ("Forest", "forest") := List.mem_singleton.mp hmem
          rfl
        · simp only [target, if_neg hname] at hmem
          obtain rfl : ref' = ("Tree", "tree") := List.mem_singleton.mp hmem
          rfl
    intro name t t' h h'
    obtain rfl : t = target name := htarget _ h
    obtain rfl : t' = target name := htarget _ h'
    rfl
  exact ⟨rfl, rfl, ((compile_order trees).2 _ hnames).2.2 _ (.swap tree forest [])⟩

end Describe

end RouteContract
