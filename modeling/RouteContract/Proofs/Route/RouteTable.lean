import Mathlib.Data.List.Sort
import RouteContract.Proofs.Route.RouteMap
import RouteContract.Route.RouteTable

/-!
# RouteTable -- rows of routes are a sorted map

An insertion into a table adds its route to the row of its template, or finds it there and leaves
everything as it was (`insert_cases`): the row that it opens is not new then. So no row is empty
(`Filled`), and a table shows what a map of routes shows (`Shows`): the first payload of each route,
in the order of templates and methods (`first_stays`).
-/

namespace RouteContract

namespace RouteTable

variable {α : Type} {t : RouteTable α} {template : String} {method : Method}

/-! ## Orders -/

theorem compare_template_eq_lt {a b : String} : compare a b = .lt ↔ a < b := compareOfLessAndEq_eq_lt

theorem compare_method_eq_lt {a b : Method} : compare a b = .lt ↔ a.rank < b.rank :=
  Nat.compare_eq_lt

/-! ## One insertion -/

/-- The row of a template, empty if there is none. -/
def row (t : RouteTable α) (template : String) : RouteRow α := t.rows.getD template ∅

theorem get?_eq_row (t : RouteTable α) (template : String) (method : Method) :
    t.get? template method = (t.row template)[method]? := by
  rw [get?, row, Std.ExtTreeMap.getD_eq_getD_getElem?]
  cases t.rows[template]? with
  | none => exact Std.ExtTreeMap.getElem?_empty.symm
  | some row => rfl

/-- A row that has been opened is the row that was there. -/
theorem getD_opened (t : RouteTable α) (template : String) :
    (t.rows.insertIfNew template ∅).getD template ∅ = t.row template := by
  rw [Std.ExtTreeMap.getD_insertIfNew, row]
  split
  · next hnew => exact (Std.ExtTreeMap.getD_eq_fallback hnew.2).symm
  · rfl

/-- A row that is there is not opened again. -/
theorem insertIfNew_of_mem (h : template ∈ t.rows) : t.rows.insertIfNew template ∅ = t.rows := by
  apply Std.ExtTreeMap.ext_getElem?
  intro other
  rw [Std.ExtTreeMap.getElem?_insertIfNew, if_neg fun hnew => hnew.2 h]

/-- It does not show that a row was opened before it is replaced. -/
theorem insert_opened (t : RouteTable α) (template : String) (r : RouteRow α) :
    (t.rows.insertIfNew template ∅).insert template r = t.rows.insert template r := by
  apply Std.ExtTreeMap.ext_getElem?
  intro other
  rw [Std.ExtTreeMap.getElem?_insert, Std.ExtTreeMap.getElem?_insert]
  split
  · rfl
  · next hne => rw [Std.ExtTreeMap.getElem?_insertIfNew, if_neg fun hnew => hne hnew.1]

/-- **What an insertion does**: nothing where the route is there already, and otherwise it puts the
payload into the row of the template. -/
theorem insert_cases (t : RouteTable α) (template : String) (method : Method) (payload : α) :
    (∃ found, t.get? template method = some found ∧
      t.insert template method payload = (t, false)) ∨
    t.get? template method = none ∧ t.insert template method payload =
      (⟨t.rows.insert template ((t.row template).insert method payload)⟩, true) := by
  rw [get?_eq_row]
  unfold insert
  dsimp only
  rw [getD_opened, Std.ExtTreeMap.contains_eq_isSome_getElem?]
  cases hfound : (t.row template)[method]? with
  | some found =>
      -- A row with a route in it is not the empty one that stands for a missing row.
      have hmem : template ∈ t.rows := by
        by_contra hnew
        rw [row, Std.ExtTreeMap.getD_eq_fallback hnew, Std.ExtTreeMap.getElem?_empty] at hfound
        cases hfound
      refine .inl ⟨found, rfl, ?_⟩
      rw [insertIfNew_of_mem hmem]
      rfl
  | none =>
      refine .inr ⟨rfl, ?_⟩
      rw [insert_opened]
      rfl

/-- An insertion answers whether the route was not there. -/
theorem insert_snd (t : RouteTable α) (template : String) (method : Method) (payload : α) :
    (t.insert template method payload).2 = !(t.get? template method).isSome := by
  rcases insert_cases t template method payload with ⟨found, hfound, hinsert⟩ | ⟨hnone, hinsert⟩
  · rw [hinsert, hfound]
    rfl
  · rw [hinsert, hnone]
    rfl

theorem insert_fst_of_not (payload : α) (h : (t.insert template method payload).2 = false) :
    (t.insert template method payload).1 = t := by
  rcases insert_cases t template method payload with ⟨_, _, hinsert⟩ | ⟨_, hinsert⟩
  · rw [hinsert]
  · rw [hinsert] at h
    cases h

/-- A payload that is put into its row is found there, and everything else where it was. -/
theorem get?_put (t : RouteTable α) (entry : RouteEntry α) (template : String) (method : Method) :
    get? ⟨t.rows.insert entry.template ((t.row entry.template).insert entry.method entry.payload)⟩
      template method =
      if entry.isAt template method then some entry.payload else t.get? template method := by
  rw [get?_eq_row, get?_eq_row, row, Std.ExtTreeMap.getD_insert]
  by_cases htemplate : entry.template = template
  · subst htemplate
    rw [if_pos Std.ReflCmp.compare_self, Std.ExtTreeMap.getElem?_insert]
    by_cases hmethod : entry.method = method
    · subst hmethod
      rw [if_pos Std.ReflCmp.compare_self, if_pos entry.isAt_self]
    · have hat : ¬ entry.isAt entry.template method = true := fun hat =>
        hmethod (Prod.mk.inj (RouteEntry.isAt_iff.mp hat)).2
      rw [if_neg (mt Std.LawfulEqCmp.eq_of_compare hmethod), if_neg hat]
  · have hat : ¬ entry.isAt template method = true := fun hat =>
      htemplate (Prod.mk.inj (RouteEntry.isAt_iff.mp hat)).1
    rw [if_neg (mt Std.LawfulEqCmp.eq_of_compare htemplate), if_neg hat]
    rfl

/-- **An insertion** is found where nothing stood before. -/
theorem get?_insert (t : RouteTable α) (entry : RouteEntry α) (template : String) (method : Method) :
    (t.insert entry.template entry.method entry.payload).1.get? template method =
      (t.get? template method).or
        (if entry.isAt template method then some entry.payload else none) := by
  rcases insert_cases t entry.template entry.method entry.payload with
    ⟨found, hfound, hinsert⟩ | ⟨hnone, hinsert⟩
  · rw [hinsert]
    split
    · next hat =>
        obtain ⟨rfl, rfl⟩ := Prod.mk.inj (RouteEntry.isAt_iff.mp hat)
        rw [hfound, Option.some_or]
    · exact Option.or_none.symm
  · rw [hinsert]
    dsimp only
    rw [get?_put]
    split
    · next hat =>
        obtain ⟨rfl, rfl⟩ := Prod.mk.inj (RouteEntry.isAt_iff.mp hat)
        rw [hnone, Option.none_or]
    · exact Option.or_none.symm

/-! ## Rows are not empty -/

/-- No row is empty. -/
def Filled (t : RouteTable α) : Prop :=
  ∀ (template : String) (r : RouteRow α), t.rows[template]? = some r → r ≠ ∅

theorem filled_empty : Filled ({} : RouteTable α) := by
  intro template r h
  rw [Std.ExtTreeMap.getElem?_empty] at h
  cases h

theorem Filled.insert (h : t.Filled) (template : String) (method : Method) (payload : α) :
    (t.insert template method payload).1.Filled := by
  rcases insert_cases t template method payload with ⟨_, _, hinsert⟩ | ⟨_, hinsert⟩
  · rw [hinsert]
    exact h
  · rw [hinsert]
    intro other r hr
    rw [Std.ExtTreeMap.getElem?_insert] at hr
    split at hr
    · obtain rfl := Option.some.inj hr
      exact Std.ExtTreeMap.insert_ne_empty
    · exact h other r hr

/-! ## Listing a table -/

/-- The routes that are listed are those that are found. -/
theorem mem_entries {e : RouteEntry α} :
    e ∈ t.entries ↔ t.get? e.template e.method = some e.payload := by
  rw [get?, Option.bind_eq_some_iff, entries, List.mem_flatMap]
  constructor
  · rintro ⟨⟨template, r⟩, hrow, he⟩
    obtain ⟨⟨method, payload⟩, hmember, rfl⟩ := List.mem_map.mp he
    exact ⟨r, Std.ExtTreeMap.mem_toList_iff_getElem?_eq_some.mp hrow,
      Std.ExtTreeMap.mem_toList_iff_getElem?_eq_some.mp hmember⟩
  · rintro ⟨r, hrow, hmember⟩
    exact ⟨(e.template, r), Std.ExtTreeMap.mem_toList_iff_getElem?_eq_some.mpr hrow,
      List.mem_map.mpr ⟨(e.method, e.payload),
        Std.ExtTreeMap.mem_toList_iff_getElem?_eq_some.mpr hmember, rfl⟩⟩

/-- **The routes are listed in order**: rows by template, and in a row by method. -/
theorem pairwise_entries (t : RouteTable α) : t.entries.Pairwise RouteEntry.Precedes := by
  rw [entries, List.pairwise_flatMap]
  constructor
  · rintro ⟨template, r⟩ _
    show (rowEntries template r).Pairwise RouteEntry.Precedes
    rw [rowEntries, List.pairwise_map]
    refine Std.ExtTreeMap.ordered_keys_toList.imp fun hmethods => ?_
    exact .inr ⟨rfl, compare_method_eq_lt.mp hmethods⟩
  · refine Std.ExtTreeMap.ordered_keys_toList.imp fun {row row'} htemplates e he e' he' => ?_
    obtain ⟨_, _, rfl⟩ := List.mem_map.mp he
    obtain ⟨_, _, rfl⟩ := List.mem_map.mp he'
    exact .inl (Text.bytes_lt_iff.mpr (compare_template_eq_lt.mp htemplates))

theorem length_rowEntries (template : String) (r : RouteRow α) :
    (rowEntries template r).length = r.size := by
  rw [rowEntries, List.length_map, Std.ExtTreeMap.length_toList]

/-- What is counted row by row is the number of routes. -/
theorem size_eq (t : RouteTable α) : t.size = t.entries.length := by
  have hcount : ∀ (rows : List (String × RouteRow α)) (count : Nat),
      rows.foldl (fun count row => count + row.2.size) count =
        count + (rows.flatMap fun row => rowEntries row.1 row.2).length := by
    intro rows
    induction rows with
    | nil => exact fun count => rfl
    | cons row rest ih =>
        intro count
        rw [List.foldl_cons, ih, List.flatMap_cons, List.length_append, length_rowEntries,
          Nat.add_assoc]
  rw [size, Std.ExtTreeMap.foldl_eq_foldl_toList, hcount, Nat.zero_add]
  rfl

theorem pairwise_templates (t : RouteTable α) : t.templates.Pairwise (· < ·) :=
  Std.ExtTreeMap.ordered_keys.imp compare_template_eq_lt.mp

/-- The rows of a table are those of its routes. -/
theorem Filled.mem_templates (h : t.Filled) {template : String} :
    template ∈ t.templates ↔ ∃ e ∈ t.entries, e.template = template := by
  rw [templates, Std.ExtTreeMap.mem_keys, Std.ExtTreeMap.mem_iff_isSome_getElem?,
    Option.isSome_iff_exists]
  constructor
  · rintro ⟨r, hr⟩
    have hne : r.toList ≠ [] := mt Std.ExtTreeMap.toList_eq_nil_iff.mp (h template r hr)
    obtain ⟨⟨method, payload⟩, hmember⟩ := List.exists_mem_of_ne_nil _ hne
    refine ⟨⟨template, method, payload⟩, mem_entries.mpr ?_, rfl⟩
    rw [get?, hr]
    exact Std.ExtTreeMap.mem_toList_iff_getElem?_eq_some.mp hmember
  · rintro ⟨e, he, rfl⟩
    obtain ⟨r, hr, _⟩ := Option.bind_eq_some_iff.mp (mem_entries.mp he)
    exact ⟨r, hr⟩

/-- There are no rows exactly if there are no routes. -/
theorem Filled.isEmpty_eq (h : t.Filled) : t.isEmpty = t.entries.isEmpty := by
  have hempty : t.templates = [] ↔ t.entries = [] := by
    simp only [List.eq_nil_iff_forall_not_mem, h.mem_templates]
    exact ⟨fun hnone e he => hnone e.template ⟨e, he, rfl⟩, fun hnone _ ⟨e, he, _⟩ => hnone e he⟩
  rw [isEmpty, ← Std.ExtTreeMap.isEmpty_keys, Bool.eq_iff_iff, List.isEmpty_iff, List.isEmpty_iff]
  exact hempty

/-! ## Many insertions -/

/-- The table after inserting entries in turn. -/
def insertAll (t : RouteTable α) (es : List (RouteEntry α)) : RouteTable α :=
  es.foldl (fun t e => (t.insert e.template e.method e.payload).1) t

theorem Filled.insertAll (h : t.Filled) (es : List (RouteEntry α)) : (t.insertAll es).Filled := by
  induction es generalizing t with
  | nil => exact h
  | cons e rest ih => exact ih (h.insert e.template e.method e.payload)

/-- **Of the entries inserted** the first for each route is found. -/
theorem get?_insertAll (t : RouteTable α) (es : List (RouteEntry α)) (template : String)
    (method : Method) :
    (t.insertAll es).get? template method =
      (t.get? template method).or
        ((es.find? fun e => e.isAt template method).map RouteEntry.payload) :=
  RouteMap.look_foldl (fun t : RouteTable α => t.get? template method)
    (fun t e => get?_insert t e template method) t es

/-! ## Tables and maps -/

/-- A table and a map of routes that cannot be told apart: they give the same answers, and neither
changes where nothing is added. -/
structure Shows (t : RouteTable α) (m : RouteMap α) : Prop where
  added : ∀ e : RouteEntry α, (t.insert e.template e.method e.payload).2 =
    (m.insert e.template e.method e.payload).2
  refused : ∀ e : RouteEntry α, (m.insert e.template e.method e.payload).2 = false →
    (t.insert e.template e.method e.payload).1 = t ∧
      (m.insert e.template e.method e.payload).1 = m
  get : ∀ template method, t.get? template method = m.get? template method
  entries : t.entries = m.entries
  size : t.size = m.size
  isEmpty : t.isEmpty = m.isEmpty
  templates : t.templates = m.templates

/-- A table shows what a map shows if look-ups find the same. -/
theorem Filled.shows (h : t.Filled) {m : RouteMap α} (hdistinct : m.Distinct) (hsorted : m.Sorted)
    (hget : ∀ template method, t.get? template method = m.get? template method) : t.Shows m := by
  -- Sorted lists are known from their members.
  have hentries : t.entries = m.entries :=
    (pairwise_entries t).eq_of_mem_iff hsorted fun e => by
      rw [mem_entries, hget, hdistinct.mem_iff]
  have hadded : ∀ e : RouteEntry α, (t.insert e.template e.method e.payload).2 =
      (m.insert e.template e.method e.payload).2 := by
    intro e
    rw [insert_snd, hget, ← RouteMap.has_eq_isSome]
    cases hhas : m.has e.template e.method with
    | true =>
        rw [RouteMap.insert_of_has hhas]
        rfl
    | false =>
        rw [RouteMap.insert_of_not_has hhas]
        rfl
  refine ⟨hadded, fun e hrefused => ⟨insert_fst_of_not e.payload ((hadded e).trans hrefused), ?_⟩,
    hget, hentries, ?_, ?_, ?_⟩
  · cases hhas : m.has e.template e.method with
    | true => rw [RouteMap.insert_of_has hhas]
    | false =>
        rw [RouteMap.insert_of_not_has hhas] at hrefused
        cases hrefused
  · rw [size_eq, hentries, RouteMap.size]
  · rw [h.isEmpty_eq, hentries, RouteMap.isEmpty]
  · have : Std.Irrefl (α := String) (· < ·) := ⟨String.lt_irrefl⟩
    have : Std.Antisymm (α := String) (· < ·) :=
      ⟨fun _ _ hlt hlt' => absurd hlt' (String.lt_asymm hlt)⟩
    refine (pairwise_templates t).eq_of_mem_iff hsorted.pairwise_templates fun template => ?_
    rw [h.mem_templates, RouteMap.mem_templates, hentries]

/-- What a table is after calls that insert entries into an empty one. -/
structure FirstStays (calls : List (RouteEntry α)) (t : RouteTable α) : Prop where
  /-- One more call adds its route exactly if no call before was for this route. -/
  added : ∀ e : RouteEntry α, (t.insert e.template e.method e.payload).2 = true ↔
    e.route ∉ calls.map RouteEntry.route
  /-- A call that adds nothing changes nothing. -/
  refused : ∀ e : RouteEntry α, (t.insert e.template e.method e.payload).2 = false →
    (t.insert e.template e.method e.payload).1 = t
  /-- A route has the payload of the first call for it. -/
  get : ∀ template method, t.get? template method =
    (calls.find? fun e => e.isAt template method).map RouteEntry.payload
  /-- The routes that are listed are those of the calls. -/
  routes : ∀ route, route ∈ t.entries.map RouteEntry.route ↔ route ∈ calls.map RouteEntry.route
  /-- They are listed with the payloads of the first calls for them. -/
  entries : ∀ e, e ∈ t.entries ↔ (calls.find? fun e' => e'.isAt e.template e.method) = some e
  /-- They stand in strict order, so none of them is listed twice. -/
  sorted : t.entries.Pairwise RouteEntry.Precedes
  /-- There are as many routes as are listed. -/
  size : t.size = t.entries.length
  /-- The table is empty exactly if there are none. -/
  isEmpty : t.isEmpty = true ↔ t.size = 0
  /-- The templates that are listed are those of the calls. -/
  templates : ∀ template, template ∈ t.templates ↔ ∃ e ∈ calls, e.template = template
  /-- They stand in strict order, too. -/
  templates_sorted : t.templates.Pairwise fun a b => Text.bytes a < Text.bytes b

/-- **The first insertion of a route stays**, whatever is inserted and in whichever order, in a table
of rows and in a map of routes alike. -/
theorem first_stays (calls : List (RouteEntry α)) :
    FirstStays calls (insertAll {} calls) ∧
      Shows (insertAll {} calls) (({} : RouteMap α).insertAll calls) := by
  have hfilled := filled_empty.insertAll calls
  have hget : ∀ template method, (insertAll {} calls).get? template method =
      (calls.find? fun e => e.isAt template method).map RouteEntry.payload := by
    intro template method
    rw [get?_insertAll, get?, Std.ExtTreeMap.getElem?_empty]
    exact Option.none_or
  have hshows : Shows (insertAll {} calls) (({} : RouteMap α).insertAll calls) := by
    refine hfilled.shows (RouteMap.distinct_empty.insertAll calls)
      (RouteMap.sorted_empty.insertAll calls) fun template method => ?_
    rw [hget, RouteMap.get?_insertAll]
    rfl
  have hroutes : ∀ route, route ∈ (insertAll {} calls).entries.map RouteEntry.route ↔
      route ∈ calls.map RouteEntry.route := fun route => by
    rw [hshows.entries, RouteMap.mem_routes_insertAll]
  refine ⟨⟨fun e => ?_, fun e => insert_fst_of_not e.payload, hget, hroutes, fun e => ?_,
    pairwise_entries _, size_eq _, ?_, fun template => ?_, ?_⟩, hshows⟩
  · rw [insert_snd, hget, Option.isSome_map, Bool.not_eq_true', ← Bool.not_eq_true,
      RouteMap.isSome_find?_isAt]
    rfl
  · rw [hshows.entries, RouteMap.mem_insertAll]
  · rw [hfilled.isEmpty_eq, size_eq, List.isEmpty_iff, List.length_eq_zero_iff]
  · rw [hfilled.mem_templates]
    have hmap : ∀ es : List (RouteEntry α), (∃ e ∈ es, e.template = template) ↔
        ∃ route ∈ es.map RouteEntry.route, route.1 = template := by
      intro es
      simp [RouteEntry.route]
    simp only [hmap, hroutes]
  · exact (pairwise_templates _).imp Text.bytes_lt_iff.mpr

end RouteTable

end RouteContract
