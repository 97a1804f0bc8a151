import Mathlib.Data.List.Forall2
import RouteContract.Proofs.Decimal.Exact
import RouteContract.Proofs.Json.Literals
import RouteContract.Schema.Union

/-!
# Discriminator -- the key that tells the options of a union apart

A key tells options apart when every option is an object that declares one literal for it, and no
two of the literals are equal (`Schema.TellsApart`). The discriminator of a union is the first such
key in the declaration order of the first option (`discriminator_exact`), and a scan that remembers
the literals it has seen finds it (`scan?_eq_discriminator?`). Since equality of literals
is symmetric, whether there is one does not depend on the order of the options, and since it is
reflexive, the tag of every option leads back to that option.

It is not transitive, though: a double may equal two integers that are different, and then a tag
selects two options (`selected_twice_iff`). Integers of at most 53 bits are safe.
-/

namespace RouteContract.Schema

/-! ## Tags -/

/-- The option is an object with a property of the given name that is an enum of exactly one
literal. -/
def Declares (option : Schema) (key : String) (literal : Json) : Prop :=
  ∃ properties s, option.kind = .object properties ∧ Entries.get? properties key = some s ∧
    s.kind = .enum [literal]

theorem singleLiteral?_eq_some_iff {s : Schema} {literal : Json} :
    s.singleLiteral? = some literal ↔ s.kind = .enum [literal] := by
  unfold singleLiteral?
  split
  · next l hkind => simp [hkind]
  · next hkind => simpa using fun h => hkind literal h

theorem properties?_eq_some_iff {s : Schema} {properties : Entries Schema} :
    s.properties? = some properties ↔ s.kind = .object properties := by
  unfold properties?
  split
  · next ps hkind => simp [hkind]
  · next hkind => simpa using fun h => hkind properties h

/-- An option with a tag is an object that declares the tag property. -/
theorem tag?_eq_some_iff {option : Schema} {key : String} {literal : Json} :
    option.tag? key = some literal ↔ option.Declares key literal := by
  unfold tag? property? Declares
  simp only [Option.bind_eq_some_iff, singleLiteral?_eq_some_iff, properties?_eq_some_iff]
  exact ⟨fun ⟨s, ⟨properties, hkind, hget⟩, hs⟩ => ⟨properties, s, hkind, hget, hs⟩,
    fun ⟨properties, s, hkind, hget, hs⟩ => ⟨s, ⟨properties, hkind, hget⟩, hs⟩⟩

theorem selects_iff {option : Schema} {key : String} {tag : Json} :
    option.selects key tag = true ↔
      ∃ literal, option.tag? key = some literal ∧ Json.literalsEqual literal tag = true := by
  unfold selects
  cases option.tag? key <;> simp

/-- Options that all declare a literal are listed with their tags. -/
theorem forall₂_declares_iff {options : List Schema} {key : String} {literals : List Json} :
    List.Forall₂ (Declares · key ·) options literals ↔
      (∀ option ∈ options, (option.tag? key).isSome) ∧ literals = tags options key := by
  induction options generalizing literals with
  | nil => simp [tags]
  | cons option rest ih =>
      rw [List.forall₂_cons_left_iff, List.forall_mem_cons, tags, List.filterMap_cons]
      constructor
      · rintro ⟨literal, others, hliteral, hothers, rfl⟩
        obtain ⟨hrest, rfl⟩ := ih.mp hothers
        rw [tag?_eq_some_iff.mpr hliteral]
        exact ⟨⟨rfl, hrest⟩, rfl⟩
      · rintro ⟨⟨hsome, hrest⟩, rfl⟩
        obtain ⟨literal, hliteral⟩ := Option.isSome_iff_exists.mp hsome
        rw [hliteral]
        exact ⟨literal, _, tag?_eq_some_iff.mp hliteral, ih.mpr ⟨hrest, rfl⟩, rfl⟩

/-! ## Keys that tell options apart -/

/-- **The key tells the options apart**: each of them declares one literal for it, and no two of the
literals are equal. -/
def TellsApart (options : List Schema) (key : String) : Prop :=
  ∃ literals, List.Forall₂ (Declares · key ·) options literals ∧
    literals.Pairwise fun a b => Json.literalsEqual a b = false

theorem pairwiseDistinct_iff {literals : List Json} :
    pairwiseDistinct literals = true ↔
      literals.Pairwise fun a b => Json.literalsEqual a b = false := by
  induction literals with
  | nil => simp [pairwiseDistinct]
  | cons literal rest ih => simp [pairwiseDistinct, ih]

/-- The scan of the options for a key finds out whether the key tells them apart. -/
theorem discriminates_iff {options : List Schema} {key : String} :
    discriminates options key = true ↔ TellsApart options key := by
  simp only [discriminates, Bool.and_eq_true, List.all_eq_true, pairwiseDistinct_iff, TellsApart,
    forall₂_declares_iff]
  constructor
  · rintro ⟨hall, hpairwise⟩
    exact ⟨_, ⟨hall, rfl⟩, hpairwise⟩
  · rintro ⟨_, ⟨hall, rfl⟩, hpairwise⟩
    exact ⟨hall, hpairwise⟩

/-! ## The scan -/

/-- Goes through the options with the literals seen before them: each one declares a literal for the
key, and one that was not seen. -/
def declareUnseen (key : String) : List Json → List Schema → Bool
  | _, [] => true
  | seen, option :: rest =>
    match option.tag? key with
    | none => false
    | some literal =>
      if seen.any (Json.literalsEqual · literal) then false
      else declareUnseen key (seen ++ [literal]) rest

/-- The first key with which the scan gets through the options, of those that the first option
declares a literal for. -/
def scan? (options : List Schema) : Option String :=
  match options with
  | [] => none
  | first :: _ =>
    if options.all (fun option => option.properties?.isSome) then
      first.properties?.bind fun properties =>
        ((properties.filter fun property => property.2.singleLiteral?.isSome).map Prod.fst).find?
          fun key => declareUnseen key [] options
    else none

theorem declareUnseen_iff {key : String} {options : List Schema} {seen : List Json}
    (hseen : seen.Pairwise fun a b => Json.literalsEqual a b = false) :
    declareUnseen key seen options = true ↔ (∀ option ∈ options, (option.tag? key).isSome) ∧
      (seen ++ tags options key).Pairwise fun a b => Json.literalsEqual a b = false := by
  induction options generalizing seen with
  | nil => simp [declareUnseen, tags, hseen]
  | cons option rest ih =>
      rw [declareUnseen, List.forall_mem_cons, tags, List.filterMap_cons]
      cases hliteral : option.tag? key with
      | none => simp
      | some literal =>
          simp only [Option.isSome_some, true_and]
          by_cases hany : seen.any (Json.literalsEqual · literal) = true
          · -- a literal that was seen stands on both sides of the join
            obtain ⟨a, ha, hequal⟩ := List.any_eq_true.mp hany
            rw [if_pos hany]
            refine iff_of_false nofun fun ⟨_, hpairwise⟩ => ?_
            have hne := (List.pairwise_append.mp hpairwise).2.2 a ha literal List.mem_cons_self
            rw [hequal] at hne
            cases hne
          · have hunseen : (seen ++ [literal]).Pairwise fun a b => Json.literalsEqual a b = false := by
              rw [List.pairwise_append]
              refine ⟨hseen, List.pairwise_singleton _ _, fun a ha b hb => ?_⟩
              rw [List.mem_singleton.mp hb, Bool.eq_false_iff]
              exact fun hequal => hany (List.any_eq_true.mpr ⟨a, ha, hequal⟩)
            rw [if_neg hany, ih hunseen, List.append_assoc, List.singleton_append]
            rfl

/-- **Seeing no literal twice is telling the options apart.** -/
theorem declareUnseen_eq_discriminates (key : String) (options : List Schema) :
    declareUnseen key [] options = discriminates options key := by
  rw [Bool.eq_iff_iff, declareUnseen_iff .nil, List.nil_append, discriminates, Bool.and_eq_true,
    List.all_eq_true, pairwiseDistinct_iff]

/-- What a search never finds need not be searched. -/
theorem find?_filter_of_imp {α : Type} {p q : α → Bool} {l : List α}
    (h : ∀ a ∈ l, q a = true → p a = true) : (l.filter p).find? q = l.find? q := by
  induction l with
  | nil => rfl
  | cons a rest ih =>
      rw [List.forall_mem_cons] at h
      rw [List.filter_cons, List.find?_cons]
      cases hq : q a with
      | true => rw [if_pos (h.1 hq), List.find?_cons, hq]
      | false =>
          split
          · rw [List.find?_cons, hq, ih h.2]
          · exact ih h.2

/-- **The scan finds the discriminator.** It passes over the keys for which the first option declares
no literal, and those tell no options apart. -/
theorem scan?_eq_discriminator? {options : List Schema}
    (hdistinct : ∀ option ∈ options, ∀ properties, option.kind = .object properties →
      Entries.Distinct properties) : scan? options = discriminator? options := by
  cases options with
  | nil => rfl
  | cons first rest =>
      rw [scan?, discriminator?]
      cases hproperties : first.properties? with
      | none => rfl
      | some properties =>
          have hkind := properties?_eq_some_iff.mp hproperties
          have hdeclared : ∀ property ∈ properties,
              discriminates (first :: rest) property.1 = true → property.2.singleLiteral?.isSome := by
            intro property hmem htells
            rw [discriminates, Bool.and_eq_true, List.all_eq_true] at htells
            have htag := htells.1 first List.mem_cons_self
            rwa [tag?, property?, hproperties, Option.bind_some,
              (hdistinct first List.mem_cons_self properties hkind).get?_of_mem hmem,
              Option.bind_some] at htag
          simp only [Option.bind_some, Option.map_some, Entries.keys, List.find?_map,
            Function.comp_def, declareUnseen_eq_discriminates]
          rw [find?_filter_of_imp hdeclared]

/-- The key is the first one that tells the options apart, in the declaration order of the first
option. -/
def FirstTelling (options : List Schema) (key : String) : Prop :=
  ∃ first properties before after, options.head? = some first ∧ first.kind = .object properties ∧
    Entries.keys properties = before ++ key :: after ∧ TellsApart options key ∧
      ∀ other ∈ before, ¬ TellsApart options other

theorem discriminator?_eq_some_iff {options : List Schema} {key : String} :
    discriminator? options = some key ↔
      (∀ option ∈ options, ∃ properties, option.kind = .object properties) ∧
        FirstTelling options key := by
  have hobjects : (options.all fun option => option.properties?.isSome) = true ↔
      ∀ option ∈ options, ∃ properties, option.kind = .object properties := by
    simp only [List.all_eq_true, Option.isSome_iff_exists, properties?_eq_some_iff]
  have hfind : ∀ keys : List String, keys.find? (discriminates options) = some key ↔
      ∃ before after, keys = before ++ key :: after ∧ TellsApart options key ∧
        ∀ other ∈ before, ¬ TellsApart options other := by
    intro keys
    simp only [List.find?_eq_some_iff_append, ← discriminates_iff, Bool.not_eq_true',
      Bool.not_eq_true]
    exact ⟨fun ⟨htells, before, after, heq, hbefore⟩ => ⟨before, after, heq, htells, hbefore⟩,
      fun ⟨before, after, heq, htells, hbefore⟩ => ⟨htells, before, after, heq, hbefore⟩⟩
  unfold discriminator? FirstTelling
  cases options with
  | nil => simp
  | cons first rest =>
      dsimp only
      rw [← hobjects]
      cases hall : (first :: rest).all fun option => option.properties?.isSome with
      | false => simp
      | true =>
          simp only [if_true, true_and, Option.bind_eq_some_iff, Option.map_eq_some_iff,
            properties?_eq_some_iff, hfind, List.head?_cons, Option.some.injEq]
          constructor
          · rintro ⟨_, ⟨properties, hkind, rfl⟩, before, after, hkeys, htells⟩
            exact ⟨first, properties, before, after, rfl, hkind, hkeys, htells⟩
          · rintro ⟨_, properties, before, after, rfl, hkind, hkeys, htells⟩
            exact ⟨_, ⟨properties, hkind, rfl⟩, before, after, hkeys, htells⟩

theorem FirstTelling.tellsApart {options : List Schema} {key : String}
    (h : FirstTelling options key) : TellsApart options key := by
  obtain ⟨_, _, _, _, _, _, _, htells, _⟩ := h
  exact htells

/-- **A union is discriminated** exactly if it has options and some key tells them apart. -/
theorem isSome_discriminator?_iff {options : List Schema} :
    (discriminator? options).isSome ↔ options ≠ [] ∧ ∃ key, TellsApart options key := by
  rw [Option.isSome_iff_exists]
  constructor
  · rintro ⟨key, hkey⟩
    obtain ⟨_, hfirst⟩ := discriminator?_eq_some_iff.mp hkey
    refine ⟨?_, key, hfirst.tellsApart⟩
    rintro rfl
    obtain ⟨_, _, _, _, hnone, _⟩ := hfirst
    cases hnone
  · rintro ⟨hne, key, htells⟩
    obtain ⟨literals, hdeclares, _⟩ := id htells
    have hobject : ∀ option ∈ options, ∃ properties, option.kind = .object properties ∧
        key ∈ Entries.keys properties := by
      intro option hmem
      have htag := (forall₂_declares_iff.mp hdeclares).1 option hmem
      obtain ⟨literal, hliteral⟩ := Option.isSome_iff_exists.mp htag
      obtain ⟨properties, s, hkind, hget, _⟩ := tag?_eq_some_iff.mp hliteral
      exact ⟨properties, hkind, List.mem_map.mpr ⟨_, Entries.mem_of_get? hget, rfl⟩⟩
    -- the key is among those of the first option, so the search does not come back empty
    obtain ⟨first, rest, rfl⟩ := List.exists_cons_of_ne_nil hne
    obtain ⟨properties, hkind, hmem⟩ := hobject first List.mem_cons_self
    have hfound : ((Entries.keys properties).find? (discriminates (first :: rest))).isSome :=
      List.find?_isSome.mpr ⟨key, hmem, discriminates_iff.mpr htells⟩
    obtain ⟨found, hfound⟩ := Option.isSome_iff_exists.mp hfound
    obtain ⟨hyes, before, after, hkeys, hbefore⟩ := List.find?_eq_some_iff_append.mp hfound
    refine ⟨found, discriminator?_eq_some_iff.mpr ⟨fun option hoption => ?_, ?_⟩⟩
    · exact (hobject option hoption).imp fun _ h => h.1
    · refine ⟨first, properties, before, after, rfl, hkind, hkeys, discriminates_iff.mp hyes, ?_⟩
      intro other hother htells'
      have hno := hbefore other hother
      rw [discriminates_iff.mpr htells'] at hno
      cases hno

/-! ## Order of the options -/

/-- The literals that the options declare are well-formed: no name occurs twice in any of them, and
integers are in range. -/
def LiteralsWellFormed (options : List Schema) : Prop :=
  ∀ option ∈ options, ∀ key literal, option.Declares key literal → literal.WellFormed

theorem LiteralsWellFormed.of_mem_tags {options : List Schema} (h : LiteralsWellFormed options)
    {key : String} {literal : Json} (hmem : literal ∈ tags options key) : literal.WellFormed := by
  obtain ⟨option, hoption, htag⟩ := List.mem_filterMap.mp hmem
  exact h option hoption key literal (tag?_eq_some_iff.mp htag)

theorem tellsApart_iff {options : List Schema} {key : String} :
    TellsApart options key ↔ (∀ option ∈ options, (option.tag? key).isSome) ∧
      (tags options key).Pairwise fun a b => Json.literalsEqual a b = false := by
  rw [← discriminates_iff, discriminates, Bool.and_eq_true, List.all_eq_true, pairwiseDistinct_iff]

/-- Equality of literals is symmetric, so a key that tells options apart does so in any order. -/
theorem TellsApart.perm {options options' : List Schema} {key : String}
    (h : TellsApart options key) (hwf : LiteralsWellFormed options) (hperm : options.Perm options') :
    TellsApart options' key := by
  obtain ⟨hall, hpairwise⟩ := tellsApart_iff.mp h
  refine tellsApart_iff.mpr ⟨fun option hmem => hall option (hperm.mem_iff.mpr hmem), ?_⟩
  have htags : (tags options key).Perm (tags options' key) := hperm.filterMap _
  -- as a relation on values the difference is symmetric, and all tags are values
  let Differ : Json → Json → Prop := fun a b =>
    (a.WellFormed ∧ b.WellFormed) ∧ Json.literalsEqual a b = false
  have hsymm : ∀ {a b}, Differ a b → Differ b a := by
    rintro a b ⟨⟨ha, hb⟩, hne⟩
    refine ⟨⟨hb, ha⟩, Bool.eq_false_iff.mpr fun heq => ?_⟩
    rw [Json.literalsEqual_symm hb heq] at hne
    cases hne
  have hdiffer : (tags options key).Pairwise Differ := hpairwise.imp_of_mem fun ha hb hne =>
    ⟨⟨hwf.of_mem_tags ha, hwf.of_mem_tags hb⟩, hne⟩
  exact ((htags.pairwise_iff hsymm).mp hdiffer).imp fun h => h.2

/-! ## Options that read alike -/

/-- The two options declare the same names and the same tags, so a union cannot tell them apart. -/
structure ReadsAlike (s s' : Schema) : Prop where
  names : s'.properties?.map Entries.keys = s.properties?.map Entries.keys
  tag : ∀ key, s'.tag? key = s.tag? key

theorem ReadsAlike.selects_eq {s s' : Schema} (h : ReadsAlike s s') (key : String) (tag : Json) :
    s'.selects key tag = s.selects key tag := by
  unfold selects
  rw [h.tag]

theorem tags_congr {options options' : List Schema} (h : List.Forall₂ ReadsAlike options options')
    (key : String) : tags options' key = tags options key := by
  induction h with
  | nil => rfl
  | cons hs _ ih =>
      rw [tags, tags, List.filterMap_cons, List.filterMap_cons, hs.tag]
      rw [tags, tags] at ih
      rw [ih]

/-- **Unions whose options read alike are discriminated by the same key.** -/
theorem discriminator?_congr {options options' : List Schema}
    (h : List.Forall₂ ReadsAlike options options') :
    discriminator? options' = discriminator? options := by
  have htold : discriminates options' = discriminates options := by
    funext key
    have hall : (options'.all fun option => (option.tag? key).isSome) =
        options.all fun option => (option.tag? key).isSome := by
      induction h with
      | nil => rfl
      | cons hs _ ih => rw [List.all_cons, List.all_cons, ih, hs.tag]
    rw [discriminates, discriminates, hall, tags_congr h]
  have hobjects : (options'.all fun option => option.properties?.isSome) =
      options.all fun option => option.properties?.isSome := by
    clear htold
    induction h with
    | nil => rfl
    | cons hs _ ih =>
        rw [List.all_cons, List.all_cons, ih, ← Option.isSome_map, hs.names, Option.isSome_map]
  unfold discriminator?
  cases h with
  | nil => rfl
  | cons hfirst _ => simp only [htold, hobjects, hfirst.names]

/-! ## Dispatch -/

theorem Declares.unique {option : Schema} {key : String} {literal literal' : Json}
    (h : option.Declares key literal) (h' : option.Declares key literal') : literal = literal' :=
  Option.some.inj ((tag?_eq_some_iff.mpr h).symm.trans (tag?_eq_some_iff.mpr h'))

theorem Declares.selects_iff {option : Schema} {key : String} {literal tag : Json}
    (h : option.Declares key literal) :
    option.selects key tag = true ↔ Json.literalsEqual literal tag = true := by
  rw [selects, tag?_eq_some_iff.mpr h]

/-- Options that are told apart declare different literals, whichever two of them are taken. -/
theorem TellsApart.pairwise {options : List Schema} {key : String} (h : TellsApart options key) :
    options.Pairwise fun a b => ∀ l m, a.Declares key l → b.Declares key m →
      Json.literalsEqual l m = false := by
  obtain ⟨literals, hdeclares, hpairwise⟩ := h
  induction hdeclares with
  | nil => exact .nil
  | @cons option literal rest others hoption hrest ih =>
      obtain ⟨hfirst, hothers⟩ := List.pairwise_cons.mp hpairwise
      refine .cons (fun b hb l m hl hm => ?_) (ih hothers)
      obtain ⟨m', hm', hbm⟩ := exists_left_of_forall₂ hrest.flip hb
      rw [hl.unique hoption, hm.unique hbm]
      exact hfirst m' hm'

/-- **The tag of an option leads back to it.** -/
theorem branch?_tag {options : List Schema} {key : String} (hkey : discriminator? options = some key)
    (hwf : LiteralsWellFormed options) {i : Nat} {option : Schema} {literal : Json}
    (hoption : options[i]? = some option) (hliteral : (tags options key)[i]? = some literal) :
    branch? options literal = some (i, option) := by
  have htells := (discriminator?_eq_some_iff.mp hkey).2.tellsApart
  have hall := forall₂_declares_iff.mpr ⟨tag?_isSome_of_discriminator? hkey, rfl⟩
  have hdeclares := (forall₂_iff_getElem?.mp hall).2
  have hmem := List.mem_of_getElem? hoption
  have hvalue := hwf option hmem key literal (hdeclares i option literal hoption hliteral)
  unfold branch?
  rw [hkey, Option.bind_some, Option.map_eq_some_iff]
  refine ⟨(option, i), ?_, rfl⟩
  obtain ⟨hi, hget⟩ := List.getElem?_eq_some_iff.mp hoption
  have hlength : options.zipIdx.length = options.length := List.length_zipIdx
  refine List.find?_eq_some_iff_getElem.mpr ⟨?_, i, by omega, ?_, fun j hj => ?_⟩
  · have hown := hdeclares i option literal hoption hliteral
    exact hown.selects_iff.mpr (Json.literalsEqual_refl hvalue)
  · rw [List.getElem_zipIdx, hget, Nat.zero_add]
  -- an option before it declares another literal
  · have hj' : j < options.length := Nat.lt_trans hj hi
    obtain ⟨other, hother⟩ := Option.isSome_iff_exists.mp
      (tag?_isSome_of_discriminator? hkey options[j] (List.getElem_mem hj'))
    have hdiffer := List.pairwise_iff_getElem.mp htells.pairwise j i hj' hi hj other literal
      (tag?_eq_some_iff.mp hother) (hget ▸ hdeclares i option literal hoption hliteral)
    rw [List.getElem_zipIdx, Bool.not_eq_true', Bool.eq_false_iff]
    intro hselects
    rw [(tag?_eq_some_iff.mp hother).selects_iff, hdiffer] at hselects
    cases hselects

/-- **Detection of the discriminator is exact.** A key is the discriminator exactly if there are
options, all of them are objects, and the key is the first one of the first option that tells them
apart; without such a key there is none. So the order of the options does not matter for whether
there is one. Where there is one, each option declares one tag, the tags are listed in the order of
the options, and the tag of an option selects that option. -/
theorem discriminator_exact (options : List Schema) (hwf : LiteralsWellFormed options) :
    (∀ key, discriminator? options = some key ↔ options ≠ [] ∧
      (∀ option ∈ options, ∃ properties, option.kind = .object properties) ∧
        FirstTelling options key) ∧
    (discriminator? options = none ↔ options = [] ∨ ∀ key, ¬ TellsApart options key) ∧
    (∀ options', options'.Perm options →
      (discriminator? options').isSome = (discriminator? options).isSome) ∧
    ∀ key, discriminator? options = some key →
      List.Forall₂ (Declares · key ·) options (tags options key) ∧
        ∀ (i : Nat) option literal, options[i]? = some option →
          (tags options key)[i]? = some literal → branch? options literal = some (i, option) := by
  refine ⟨fun key => ?_, ?_, fun options' hperm => ?_, fun key hkey => ⟨?_, ?_⟩⟩
  · rw [discriminator?_eq_some_iff]
    refine ⟨fun ⟨hobjects, hfirst⟩ => ⟨?_, hobjects, hfirst⟩, fun ⟨_, h⟩ => h⟩
    rintro rfl
    obtain ⟨_, _, _, _, hnone, _⟩ := hfirst
    cases hnone
  · rw [← Option.not_isSome_iff_eq_none, isSome_discriminator?_iff, not_and_or, not_not, not_exists]
  · have hback : ∀ option ∈ options', option ∈ options := fun _ h => hperm.mem_iff.mp h
    have hwf' : LiteralsWellFormed options' := fun option h => hwf option (hback option h)
    rw [Bool.eq_iff_iff, isSome_discriminator?_iff, isSome_discriminator?_iff]
    refine and_congr (not_congr ?_) (exists_congr fun key => ⟨?_, ?_⟩)
    · exact ⟨fun h => List.nil_perm.mp (h ▸ hperm), fun h => List.perm_nil.mp (h ▸ hperm)⟩
    · exact fun h => h.perm hwf' hperm
    · exact fun h => h.perm hwf hperm.symm
  · obtain ⟨literals, hdeclares, _⟩ := (discriminator?_eq_some_iff.mp hkey).2.tellsApart
    exact (forall₂_declares_iff.mp hdeclares).2 ▸ hdeclares
  · exact fun i option literal => branch?_tag hkey hwf

/-- Two shapes that share a name and a kind: the name is declared first, but it does not tell them
apart. -/
def shapes : List Schema :=
  [.object [("name", .string), ("unit", .literal (.str "m")), ("kind", .literal (.str "disc"))],
    .object [("unit", .literal (.str "m")), ("kind", .literal (.str "square"))]]

theorem literalsWellFormed_shapes : LiteralsWellFormed shapes := by
  rintro option hmem key literal ⟨properties, s, hkind, hget, hs⟩
  have hstrings : ∀ e ∈ properties, ∀ l, e.2.kind = .enum [l] → ∃ text, l = .str text := by
    rcases List.mem_pair.mp hmem with rfl | rfl <;> cases hkind <;>
      simp [Entries.ofList, Entries.put, Schema.literal, Schema.enum, Schema.string, ofKind,
        eq_comm]
  obtain ⟨text, rfl⟩ := hstrings _ (Entries.mem_of_get? hget) literal hs
  trivial

theorem discriminator_exact_shapes :
    LiteralsWellFormed shapes ∧ FirstTelling shapes "kind" ∧ ¬ TellsApart shapes "unit" ∧
      (discriminator? shapes.reverse).isSome ∧
      branch? shapes (.str "square") = (shapes[1]?).map fun option => (1, option) := by
  have hkey : discriminator? shapes = some "kind" := by decide
  obtain ⟨hexact, _, hperm, hback⟩ := discriminator_exact shapes literalsWellFormed_shapes
  refine ⟨literalsWellFormed_shapes, ((hexact "kind").mp hkey).2.2, ?_, ?_, ?_⟩
  · rw [← discriminates_iff]
    decide
  · rw [hperm _ shapes.reverse_perm, hkey]
    rfl
  · exact (hback "kind" hkey).2 1 _ _ rfl rfl

/-! ## Tags that select twice -/

theorem selects_iff_declares {option : Schema} {key : String} {tag : Json} :
    option.selects key tag = true ↔
      ∃ literal, option.Declares key literal ∧ Json.literalsEqual literal tag = true := by
  simp only [selects_iff, tag?_eq_some_iff]

theorem literalsEqual_int_float_iff {n : Int} {x : Binary64} :
    Json.literalsEqual (.num (.int n)) (.num (.float x)) = true ↔ Number.RoundsTo n x :=
  Number.sameValue_int_float_iff

/-- Two different integers are declared, and both round to the double `x`. -/
def RoundedTogether (options : List Schema) (key : String) (x : Binary64) : Prop :=
  ∃ n m, n ≠ m ∧ Number.RoundsTo n x ∧ Number.RoundsTo m x ∧
    (∃ option ∈ options, option.Declares key (.num (.int n))) ∧
    ∃ option ∈ options, option.Declares key (.num (.int m))

/-- Two options that are told apart and selected by one tag declare integers that round to it. -/
theorem roundedTogether_of_selects {options : List Schema} {key : String}
    (htells : TellsApart options key) (hwf : LiteralsWellFormed options) {tag : Json}
    (htwo : 1 < options.countP (·.selects key tag)) :
    ∃ x, tag = .num (.float x) ∧ RoundedTogether options key x := by
  rw [List.countP_eq_length_filter] at htwo
  obtain ⟨a, b, rest, hfilter⟩ : ∃ a b rest,
      options.filter (·.selects key tag) = a :: b :: rest := by
    generalize options.filter (·.selects key tag) = selected at htwo
    match selected, htwo with
    | a :: b :: rest, _ => exact ⟨a, b, rest, rfl⟩
  have hmem : ∀ c ∈ a :: b :: rest, c ∈ options ∧ c.selects key tag = true :=
    fun c hc => List.mem_filter.mp (hfilter ▸ hc)
  obtain ⟨ha, hsa⟩ := hmem a List.mem_cons_self
  obtain ⟨hb, hsb⟩ := hmem b (List.mem_cons_of_mem a List.mem_cons_self)
  have hpairwise := htells.pairwise.sublist (List.filter_sublist (p := (·.selects key tag)))
  rw [hfilter] at hpairwise
  have hdiffer := (List.pairwise_cons.mp hpairwise).1 b List.mem_cons_self
  obtain ⟨l, hl, hlt⟩ := selects_iff_declares.mp hsa
  obtain ⟨m, hm, hmt⟩ := selects_iff_declares.mp hsb
  rcases Json.literalsEqual_of_common (hwf b hb key m hm) hlt hmt with
    hequal | ⟨i, j, x, rfl, rfl, rfl⟩
  · rw [hdiffer l m hl hm] at hequal
    cases hequal
  · refine ⟨x, rfl, i, j, ?_, literalsEqual_int_float_iff.mp hlt,
      literalsEqual_int_float_iff.mp hmt, ⟨a, ha, hl⟩, b, hb, hm⟩
    rintro rfl
    have hself := Json.literalsEqual_refl (hwf a ha key _ hl)
    rw [hdiffer _ _ hl hm] at hself
    cases hself

/-- Integers that round to one double make it select both of their options. -/
theorem RoundedTogether.selects_twice {options : List Schema} {key : String} {x : Binary64}
    (h : RoundedTogether options key x) :
    1 < options.countP (·.selects key (.num (.float x))) := by
  obtain ⟨n, m, hne, hn, hm, ⟨a, ha, hda⟩, b, hb, hdb⟩ := h
  have hsa := selects_iff_declares.mpr ⟨_, hda, literalsEqual_int_float_iff.mpr hn⟩
  have hsb := selects_iff_declares.mpr ⟨_, hdb, literalsEqual_int_float_iff.mpr hm⟩
  have hab : a ≠ b := by
    rintro rfl
    exact hne (by simpa using hda.unique hdb)
  let Selects : Schema → Bool := fun option => option.selects key (.num (.float x))
  have hfa : a ∈ options.filter Selects := List.mem_filter.mpr ⟨ha, hsa⟩
  have hfb : b ∈ options.filter Selects := List.mem_filter.mpr ⟨hb, hsb⟩
  rw [List.countP_eq_length_filter]
  change 1 < (options.filter Selects).length
  match options.filter Selects, hfa, hfb with
  | [c], hfa, hfb =>
      rw [List.mem_singleton] at hfa hfb
      exact absurd (hfa.trans hfb.symm) hab
  | _ :: _ :: _, _, _ => simp

/-- **When a tag selects twice.** The options of a discriminated union declare literals no two of
which are equal, and still a tag selects more than one of them: exactly if it is a double to which
two of the integers among the literals round. Integers of magnitude at most `2 ^ 53` are doubles, so
where the union declares no larger one, every value selects at most one option. -/
theorem selected_twice_iff {options : List Schema} {key : String}
    (hkey : discriminator? options = some key) (hwf : LiteralsWellFormed options) :
    (∀ tag, 1 < options.countP (·.selects key tag) ↔
      ∃ x, tag = .num (.float x) ∧ RoundedTogether options key x) ∧
    ((∀ option ∈ options, ∀ n, option.Declares key (.num (.int n)) → n.natAbs ≤ 2 ^ 53) →
      ∀ tag, options.countP (·.selects key tag) ≤ 1) := by
  have htells := (discriminator?_eq_some_iff.mp hkey).2.tellsApart
  constructor
  · intro tag
    constructor
    · exact roundedTogether_of_selects htells hwf
    · rintro ⟨x, rfl, hrounded⟩
      exact hrounded.selects_twice
  · intro hsmall tag
    refine Nat.le_of_not_lt fun htwo => ?_
    obtain ⟨x, rfl, n, m, hne, hn, hm, ⟨a, ha, hda⟩, b, hb, hdb⟩ :=
      roundedTogether_of_selects htells hwf htwo
    exact hne (hn.unique hm (hsmall a ha n hda) (hsmall b hb m hdb))

/-- Two versions of a record, numbered beyond the integers that are doubles. -/
def versions : List Schema :=
  [.object [("v", .literal (.num (.int 9007199254740993)))],
    .object [("v", .literal (.num (.int 9007199254740992)))]]

/-- The double `2 ^ 53`. -/
def lastExact : Binary64 := ⟨false, 2 ^ 52, 1075, by decide⟩

theorem literalsWellFormed_versions : LiteralsWellFormed versions := by
  rintro option hmem key literal ⟨properties, s, hkind, hget, hs⟩
  have hnumbers : ∀ e ∈ properties, ∀ l, e.2.kind = .enum [l] → l.WellFormed := by
    rcases List.mem_pair.mp hmem with rfl | rfl <;> cases hkind <;>
      simp [Entries.ofList, Entries.put, Schema.literal, Schema.enum, ofKind, Json.WellFormed,
        Number.InRange, Number.leastInt, Number.greatestInt]
  exact hnumbers _ (Entries.mem_of_get? hget) literal hs

theorem selected_twice_iff_versions :
    LiteralsWellFormed versions ∧
      1 < versions.countP (·.selects "v" (.num (.float lastExact))) := by
  have hkey : discriminator? versions = some "v" := by decide
  have hodd : Number.RoundsTo 9007199254740993 lastExact := by decide +kernel
  have heven : Number.RoundsTo 9007199254740992 lastExact := by decide +kernel
  refine ⟨literalsWellFormed_versions, ?_⟩
  refine ((selected_twice_iff hkey literalsWellFormed_versions).1 _).mpr ⟨lastExact, rfl, ?_⟩
  refine ⟨_, _, by decide, hodd, heven, ?_⟩
  exact ⟨⟨_, List.mem_cons_self, _, _, rfl, rfl, rfl⟩, _,
    List.mem_cons_of_mem _ List.mem_cons_self, _, _, rfl, rfl, rfl⟩

/-- The union is discriminated, and still the double `2 ^ 53` selects both of its options. -/
theorem selected_twice_versions :
    discriminator? versions = some "v" ∧
      ¬ versions.countP (·.selects "v" (.num (.float lastExact))) ≤ 1 := by
  decide +kernel

end RouteContract.Schema
