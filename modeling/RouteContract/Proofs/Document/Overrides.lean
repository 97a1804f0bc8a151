import RouteContract.Document.Merge
import RouteContract.Proofs.Json.Alike

/-!
# Overrides -- what merging leaves at every key path

A value is looked up along a path of names, down through objects only (`Json.at?`). What a merged
value holds at a path is decided by the two values at that path: where the overrides have a value, it
is merged into what the base has there (`at?_merge_of_at?`); where they have none, the base keeps
what it has, unless the overrides have put something that is no object on the way
(`at?_merge_of_open`).

Members of the base come first, in their order, and new ones follow in theirs (`keys_mergeMembers`).
Overrides that have been merged are not seen by merging them once more (`merge_merge`).
-/

namespace RouteContract

namespace Entries

variable {β : Type}

/-- Putting a value where it is already changes nothing. -/
theorem put_of_get? {es : Entries β} {key : String} {value : β} (h : get? es key = some value) :
    put es key value = es := by
  induction es with
  | nil => cases h
  | cons e rest ih =>
      obtain ⟨k, v⟩ := e
      by_cases hk : k = key
      · rw [get?, if_pos hk, Option.some.injEq] at h
        rw [put, if_pos hk, h]
      · rw [get?, if_neg hk] at h
        rw [put, if_neg hk, ih h]

end Entries

namespace Json

open Entries (keys get? put)

variable {b o v w : Json} {bs os : Entries Json}

/-! ## Key paths -/

/-- The value at a key path, which leads through objects only. -/
def at? : Json → List String → Option Json
  | v, [] => some v
  | .obj ms, key :: rest => (get? ms key).bind fun member => member.at? rest
  | _, _ :: _ => none

/-- A value is an object. -/
def IsObject (v : Json) : Prop := ∃ ms, v = .obj ms

/-- The names of the members, if there is an object. -/
def memberNames : Option Json → List String
  | some (.obj ms) => keys ms
  | _ => []

/-- Nothing but objects is in the way to a key path. -/
def OpenTo (v : Json) (p : List String) : Prop :=
  ∀ q, q <+: p → q ≠ p → ∀ w, v.at? q = some w → w.IsObject

@[simp] theorem at?_nil (v : Json) : v.at? [] = some v := by
  cases v <;> rfl

theorem at?_obj_cons (ms : Entries Json) (key : String) (rest : List String) :
    (Json.obj ms).at? (key :: rest) = (get? ms key).bind fun member => member.at? rest := rfl

theorem at?_cons_of_not_isObject (h : ¬v.IsObject) (key : String) (rest : List String) :
    v.at? (key :: rest) = none := by
  cases v with
  | obj ms => exact absurd ⟨ms, rfl⟩ h
  | _ => rfl

theorem at?_append (v : Json) (p q : List String) :
    v.at? (p ++ q) = (v.at? p).bind fun member => member.at? q := by
  induction p generalizing v with
  | nil => rw [List.nil_append, at?_nil, Option.bind_some]
  | cons key rest ih =>
      by_cases hv : v.IsObject
      · obtain ⟨ms, rfl⟩ := hv
        rw [List.cons_append, at?_obj_cons, at?_obj_cons, Option.bind_assoc]
        exact Option.bind_congr fun member _ => ih member
      · rw [List.cons_append, at?_cons_of_not_isObject hv, at?_cons_of_not_isObject hv, Option.bind_none]

theorem WellFormed.at? {p : List String} (h : v.WellFormed) (hw : v.at? p = some w) : w.WellFormed := by
  induction p generalizing v with
  | nil =>
      rw [at?_nil, Option.some.injEq] at hw
      exact hw ▸ h
  | cons key rest ih =>
      by_cases hv : v.IsObject
      · obtain ⟨ms, rfl⟩ := hv
        obtain ⟨member, hmember, hrest⟩ := Option.bind_eq_some_iff.mp hw
        exact ih (h.get? hmember) hrest
      · rw [at?_cons_of_not_isObject hv] at hw
        cases hw

/-! ## Merging members -/

theorem merge_obj (bs os : Entries Json) : merge (.obj bs) (.obj os) = .obj (mergeMembers bs os) := by
  rw [merge]

/-- What is no object is replaced, and replaces what it meets. -/
theorem merge_of_not_isObject (h : ¬b.IsObject ∨ ¬o.IsObject) : merge b o = o := by
  cases o with
  | obj os =>
      cases b with
      | obj bs => exact absurd h (by simp [IsObject])
      | _ => rw [merge]; exact nofun
  | _ => rw [merge]; exact nofun

/-- Under every name, what the overrides have is merged into what the base has. -/
theorem get?_mergeMembers (hos : os.Distinct) (bs : Entries Json) (key : String) :
    get? (mergeMembers bs os) key = Option.merge merge (get? bs key) (get? os key) := by
  induction os generalizing bs with
  | nil =>
      rw [mergeMembers, Entries.get?_nil]
      cases get? bs key <;> rfl
  | cons e rest ih =>
      obtain ⟨k, w⟩ := e
      rw [mergeMembers, ih hos.tail, Entries.get?_put, get?]
      by_cases hk : k = key
      · subst hk
        have hnone : get? rest k = none := Entries.get?_eq_none_iff.mpr (List.nodup_cons.mp hos).1
        rw [hnone, if_pos rfl, if_pos rfl]
        cases get? bs k <;> rfl
      · rw [if_neg hk, if_neg hk]

/-- The names of the base stay where they are, and new names follow in the order of the overrides. -/
theorem keys_mergeMembers (hos : os.Distinct) (bs : Entries Json) :
    keys (mergeMembers bs os) = keys bs ++ (keys os).filter fun key => key ∉ keys bs := by
  induction os generalizing bs with
  | nil => simp [mergeMembers]
  | cons e rest ih =>
      obtain ⟨k, w⟩ := e
      rw [mergeMembers, ih hos.tail, Entries.keys_put, Entries.keys_cons, List.filter_cons]
      by_cases hk : k ∈ keys bs
      · simp [hk]
      · have hothers : ∀ key ∈ keys rest, (key ∉ keys bs ++ [k]) ↔ key ∉ keys bs := by
          intro key hkey
          have hne : key ≠ k := fun heq => (List.nodup_cons.mp hos).1 (heq ▸ hkey)
          simp [hne]
        rw [if_neg hk, if_pos (decide_eq_true hk), List.append_assoc, List.singleton_append]
        exact congrArg (keys bs ++ k :: ·)
          (List.filter_congr fun key hkey => decide_eq_decide.mpr (hothers key hkey))

/-- Overrides that are merged into each member already change nothing. -/
theorem mergeMembers_of_merged (h : ∀ m ∈ os, ∃ v, get? bs m.1 = some v ∧ merge v m.2 = v) :
    mergeMembers bs os = bs := by
  induction os with
  | nil => rfl
  | cons e rest ih =>
      obtain ⟨k, w⟩ := e
      rw [List.forall_mem_cons] at h
      obtain ⟨⟨v, hv, hmerged⟩, hrest⟩ := h
      simp only [mergeMembers]
      rw [hv]
      dsimp only
      rw [hmerged, Entries.put_of_get? hv]
      exact ih hrest

/-! ## Merging at every key path -/

variable {p : List String}

/-- **Where the overrides have a value**, it is merged into what the base has there. -/
theorem at?_merge_of_at? (ho : o.WellFormed) (hw : o.at? p = some w) :
    (merge b o).at? p = Option.merge merge (b.at? p) (some w) := by
  induction p generalizing b o with
  | nil =>
      rw [at?_nil, Option.some.injEq] at hw
      rw [at?_nil, at?_nil, hw]
      rfl
  | cons key rest ih =>
      have hobject : o.IsObject := by
        by_contra hnot
        rw [at?_cons_of_not_isObject hnot] at hw
        cases hw
      obtain ⟨os, rfl⟩ := hobject
      obtain ⟨override, hoverride, hrest⟩ := Option.bind_eq_some_iff.mp hw
      by_cases hb : b.IsObject
      · obtain ⟨bs, rfl⟩ := hb
        rw [merge_obj, at?_obj_cons, at?_obj_cons, get?_mergeMembers ho.distinct, hoverride]
        cases get? bs key with
        | none => exact hrest
        | some member => exact ih (ho.get? hoverride) hrest
      · rw [merge_of_not_isObject (.inl hb), hw, at?_cons_of_not_isObject hb]
        rfl

/-- **Where the overrides have no value**, the base keeps what it has, if they leave the way open. -/
theorem at?_merge_of_open (ho : o.WellFormed) (hnone : o.at? p = none) (hopen : o.OpenTo p) :
    (merge b o).at? p = b.at? p := by
  induction p generalizing b o with
  | nil => rw [at?_nil] at hnone; cases hnone
  | cons key rest ih =>
      obtain ⟨os, rfl⟩ := hopen [] List.nil_prefix (by simp) o (at?_nil o)
      by_cases hb : b.IsObject
      · obtain ⟨bs, rfl⟩ := hb
        rw [at?_obj_cons] at hnone
        rw [merge_obj, at?_obj_cons, at?_obj_cons, get?_mergeMembers ho.distinct]
        cases hoverride : get? os key with
        | none => cases get? bs key <;> rfl
        | some override =>
            rw [hoverride, Option.bind_some] at hnone
            have hopen' : override.OpenTo rest := by
              intro q hq hne w hw
              refine hopen (key :: q) (List.cons_prefix_cons.mpr ⟨rfl, hq⟩) (by simpa using hne) w ?_
              rw [at?_obj_cons, hoverride]
              exact hw
            cases get? bs key with
            | none => exact hnone
            | some member => exact ih (ho.get? hoverride) hnone hopen'
      · rw [merge_of_not_isObject (.inl hb), hnone, at?_cons_of_not_isObject hb]

/-- Behind something in the overrides that is no object there is nothing. -/
theorem at?_merge_of_not_open (ho : o.WellFormed) (hclosed : ¬o.OpenTo p) :
    (merge b o).at? p = none := by
  simp only [OpenTo, not_forall] at hclosed
  obtain ⟨q, ⟨rest, rfl⟩, hne, w, hw, hnot⟩ := hclosed
  have hat : (merge b o).at? q = some w := by
    rw [at?_merge_of_at? ho hw]
    cases b.at? q with
    | none => rfl
    | some v => exact congrArg some (merge_of_not_isObject (.inr hnot))
  cases rest with
  | nil => exact absurd (List.append_nil q).symm hne
  | cons key rest => rw [at?_append, hat, Option.bind_some, at?_cons_of_not_isObject hnot]

/-- Nothing stands in the merged value that neither of the two has. -/
theorem isSome_at?_merge (ho : o.WellFormed) (h : ((merge b o).at? p).isSome) :
    (b.at? p).isSome ∨ (o.at? p).isSome := by
  cases hw : o.at? p with
  | some w => exact .inr rfl
  | none =>
      by_cases hopen : o.OpenTo p
      · rw [at?_merge_of_open ho hw hopen] at h
        exact .inl h
      · rw [at?_merge_of_not_open ho hopen] at h
        cases h

/-- An object in the overrides is merged into the object of the base, or stands alone. -/
theorem at?_merge_of_object (ho : o.WellFormed) (hw : o.at? p = some (.obj os)) :
    ∃ ms, (merge b o).at? p = some (.obj ms) ∧
      keys ms = memberNames (b.at? p) ++ (keys os).filter fun key => key ∉ memberNames (b.at? p) := by
  have hdistinct : os.Distinct := (ho.at? hw).distinct
  have halone : keys os = [] ++ (keys os).filter fun key => key ∉ ([] : List String) := by simp
  rw [at?_merge_of_at? ho hw]
  cases hb : b.at? p with
  | none => exact ⟨os, rfl, halone⟩
  | some v =>
      by_cases hv : v.IsObject
      · obtain ⟨bs, rfl⟩ := hv
        exact ⟨_, congrArg some (merge_obj bs os), keys_mergeMembers hdistinct bs⟩
      · refine ⟨os, congrArg some (merge_of_not_isObject (.inl hv)), ?_⟩
        cases v with
        | obj bs => exact absurd ⟨bs, rfl⟩ hv
        | _ => exact halone

/-! ## Merging twice -/

theorem merge_self (h : v.WellFormed) : merge v v = v := by
  induction v with
  | obj ms ih =>
      rw [merge_obj]
      refine congrArg obj (mergeMembers_of_merged fun m hm => ?_)
      exact ⟨m.2, h.distinct.get?_of_mem hm, ih m hm (h.member hm)⟩
  | _ => exact merge_of_not_isObject (.inr (by simp [IsObject]))

theorem merge_merge (ho : o.WellFormed) : merge (merge b o) o = merge b o := by
  induction o generalizing b with
  | obj os ih =>
      by_cases hb : b.IsObject
      · obtain ⟨bs, rfl⟩ := hb
        rw [merge_obj, merge_obj]
        refine congrArg obj (mergeMembers_of_merged fun m hm => ?_)
        rw [get?_mergeMembers ho.distinct, ho.distinct.get?_of_mem hm]
        -- a new member is the override itself, one that was there has it merged in
        cases get? bs m.1 with
        | none => exact ⟨m.2, rfl, merge_self (ho.member hm)⟩
        | some v => exact ⟨merge v m.2, rfl, ih m hm (ho.member hm)⟩
      · rw [merge_of_not_isObject (.inl hb), merge_self ho]
  | _ => exact merge_of_not_isObject (.inr (by simp [IsObject]))

/-- **Overrides win at any depth, and nothing else changes.** Look at any key path. What the
overrides have there is in the merged value: exactly, if it is no object; else as an object that has
the members of the base first, in their order, and then the new ones of the overrides in theirs.
Where the overrides have nothing, and nothing that is no object on the way, the base keeps its value;
and no other key path comes in. Merging the same overrides once more changes nothing, nor does
merging a value into itself. -/
theorem overrides_win (b : Json) {o : Json} (ho : o.WellFormed) :
    (∀ p w, o.at? p = some w → ¬w.IsObject → (merge b o).at? p = some w) ∧
      (∀ p os, o.at? p = some (.obj os) → ∃ ms, (merge b o).at? p = some (.obj ms) ∧
        keys ms =
          memberNames (b.at? p) ++ (keys os).filter fun key => key ∉ memberNames (b.at? p)) ∧
      (∀ p v, o.at? p = none → o.OpenTo p → b.at? p = some v → (merge b o).at? p = some v) ∧
      (∀ p, ((merge b o).at? p).isSome → (b.at? p).isSome ∨ (o.at? p).isSome) ∧
      merge (merge b o) o = merge b o ∧
      merge o o = o := by
  refine ⟨fun p w hw hnot => ?_, fun p os hos => at?_merge_of_object ho hos,
    fun p v hnone hopen hv => (at?_merge_of_open ho hnone hopen).trans hv,
    fun p => isSome_at?_merge ho, merge_merge ho, merge_self ho⟩
  rw [at?_merge_of_at? ho hw]
  cases b.at? p with
  | none => rfl
  | some v => exact congrArg some (merge_of_not_isObject (.inr hnot))

/-- A title is overridden, an array gives way to an object, and a version stays. -/
theorem overrides_win_info :
    let b := Json.obj [("info", .obj [("title", .str "API"), ("version", .str "1")]),
      ("tags", .arr [.null])]
    let o := Json.obj [("tags", .obj [("pets", .bool true)]),
      ("info", .obj [("license", .obj []), ("title", .null)])]
    o.WellFormed ∧ (merge b o).at? ["info", "title"] = some .null ∧
      (∃ ms, (merge b o).at? ["info"] = some (.obj ms) ∧ keys ms = ["title", "version", "license"]) ∧
      (∃ ms, (merge b o).at? ["tags"] = some (.obj ms) ∧ keys ms = ["pets"]) ∧
      (merge b o).at? ["info", "version"] = some (.str "1") := by
  intro b o
  have ho : o.WellFormed := by
    simp [o, WellFormed, WellFormedMembers, Entries.Distinct]
  have hopen : o.OpenTo ["info", "version"] := by
    intro q hq hne w hw
    rcases List.prefix_cons_iff.mp hq with rfl | ⟨rest, rfl, hrest⟩
    · exact ⟨_, (Option.some.inj hw).symm⟩
    · rcases List.prefix_cons_iff.mp hrest with rfl | ⟨last, rfl, hlast⟩
      · exact ⟨_, (Option.some.inj hw).symm⟩
      · rw [List.prefix_nil.mp hlast] at hne
        exact absurd rfl hne
  obtain ⟨hreplaced, hmerged, hkept, _⟩ := overrides_win b ho
  exact ⟨ho, hreplaced _ _ rfl (by rintro ⟨_, ⟨⟩⟩), hmerged ["info"] _ rfl, hmerged ["tags"] _ rfl,
    hkept _ _ rfl hopen rfl⟩

end Json

end RouteContract
