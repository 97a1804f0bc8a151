import Mathlib.Data.List.Nodup
import RouteContract.Proofs.Text.Bytes
import RouteContract.Route.RouteMap

/-!
# RouteMap -- what stands in a map of routes

An insertion shows in look-ups only, and only where nothing stood before (`get?_insert`); so of many
entries inserted in turn the first for each route is found (`get?_insertAll`). No route has two
entries (`Distinct`), so the entries of a map are exactly what look-ups find. They stand in the order
of their routes (`Sorted`).
-/

namespace RouteContract

namespace RouteEntry

variable {α : Type}

/-- The route that an entry is for. -/
def route (e : RouteEntry α) : String × Method := (e.template, e.method)

theorem isAt_iff {e : RouteEntry α} {template : String} {method : Method} :
    e.isAt template method = true ↔ e.route = (template, method) := by
  simp [isAt, route]

theorem isAt_self (e : RouteEntry α) : e.isAt e.template e.method = true := isAt_iff.mpr rfl

end RouteEntry

namespace RouteMap

variable {α β : Type} {m : RouteMap α} {template : String} {method : Method}

/-! ## Look-ups -/

/-- What is found at a route is an entry for this route. -/
theorem of_find?_isAt {es : List (RouteEntry α)} {e : RouteEntry α}
    (h : (es.find? fun e => e.isAt template method) = some e) :
    e ∈ es ∧ e.route = (template, method) := by
  have hat : e.isAt template method = true := by
    have hfound := List.find?_some h
    exact hfound
  exact ⟨List.mem_of_find?_eq_some h, RouteEntry.isAt_iff.mp hat⟩

/-- An entry is known from its route and its payload. -/
theorem map_payload_eq_some_iff {es : List (RouteEntry α)} {e : RouteEntry α} :
    (es.find? fun e' => e'.isAt e.template e.method).map RouteEntry.payload = some e.payload ↔
      (es.find? fun e' => e'.isAt e.template e.method) = some e := by
  refine ⟨fun h => ?_, fun h => by rw [h, Option.map_some]⟩
  obtain ⟨e', hfind, hpayload⟩ := Option.map_eq_some_iff.mp h
  obtain ⟨htemplate, hmethod⟩ := Prod.mk.inj (of_find?_isAt hfind).2
  rw [hfind]
  cases e
  cases e'
  cases htemplate
  cases hmethod
  cases hpayload
  rfl

theorem isSome_find?_isAt {es : List (RouteEntry α)} :
    (es.find? fun e => e.isAt template method).isSome = true ↔
      (template, method) ∈ es.map RouteEntry.route := by
  rw [List.find?_isSome, List.mem_map]
  simp only [RouteEntry.isAt_iff]

theorem has_eq_isSome : m.has template method = (m.get? template method).isSome := by
  rw [has, get?, Option.isSome_map, List.isSome_find?]

theorem get?_map (f : α → β) : (m.map f).get? template method = (m.get? template method).map f := by
  simp only [get?, map, List.find?_map, Option.map_map]
  rfl

theorem find?_insertSorted {entry : RouteEntry α} {es : List (RouteEntry α)}
    (h : ∀ e ∈ es, e.route ≠ entry.route) (template : String) (method : Method) :
    (insertSorted entry es).find? (fun e => e.isAt template method) =
      if entry.isAt template method then some entry
      else es.find? fun e => e.isAt template method := by
  induction es with
  | nil =>
      rw [insertSorted, List.find?_cons]
      cases entry.isAt template method <;> rfl
  | cons e rest ih =>
      obtain ⟨hne, hrest⟩ := List.forall_mem_cons.mp h
      rw [insertSorted]
      split
      · rw [List.find?_cons, List.find?_cons, ih hrest]
        cases hat : e.isAt template method with
        | false => rfl
        | true =>
            have hentry : ¬ entry.isAt template method = true := fun hentry =>
              hne ((RouteEntry.isAt_iff.mp hat).trans (RouteEntry.isAt_iff.mp hentry).symm)
            exact (if_neg hentry).symm
      · rw [List.find?_cons]
        cases entry.isAt template method <;> rfl

theorem insert_of_not_has (h : m.has template method = false) (payload : α) :
    m.insert template method payload = (⟨insertSorted ⟨template, method, payload⟩ m.entries⟩, true) := by
  simp [insert, h]

/-- Where a map has no route, none of its entries is for the route. -/
theorem route_ne_of_not_has (h : m.has template method = false) :
    ∀ e ∈ m.entries, e.route ≠ (template, method) := by
  intro e he hroute
  have hany := List.any_eq_false.mp h e he
  exact hany (RouteEntry.isAt_iff.mpr hroute)

/-- **An insertion** is found where nothing stood before. -/
theorem get?_insert (m : RouteMap α) (entry : RouteEntry α) (template : String) (method : Method) :
    (m.insert entry.template entry.method entry.payload).1.get? template method =
      (m.get? template method).or (if entry.isAt template method then some entry.payload else none) := by
  cases hhas : m.has entry.template entry.method with
  | true =>
      rw [insert_of_has hhas]
      cases hat : entry.isAt template method with
      | false => simp
      | true =>
          have hroute : (entry.template, entry.method) = (template, method) :=
            RouteEntry.isAt_iff.mp hat
          cases hroute
          obtain ⟨found, hfound⟩ := Option.isSome_iff_exists.mp (has_eq_isSome ▸ hhas)
          rw [hfound, Option.some_or]
  | false =>
      have hne := route_ne_of_not_has hhas
      rw [insert_of_not_has hhas, get?, find?_insertSorted hne]
      cases hat : entry.isAt template method with
      | false => simp [get?]
      | true =>
          have hnone : m.get? template method = none := by
            have hroute : (entry.template, entry.method) = (template, method) :=
              RouteEntry.isAt_iff.mp hat
            cases hroute
            simpa [has_eq_isSome] using hhas
          rw [hnone]
          rfl

/-! ## Distinct routes -/

/-- No route has two entries. -/
def Distinct (m : RouteMap α) : Prop := (m.entries.map RouteEntry.route).Nodup

theorem distinct_empty : Distinct ({} : RouteMap α) := List.nodup_nil

theorem Distinct.insert (h : m.Distinct) (template : String) (method : Method) (payload : α) :
    (m.insert template method payload).1.Distinct := by
  cases hhas : m.has template method with
  | true =>
      rw [insert_of_has hhas]
      exact h
  | false =>
      rw [insert_of_not_has hhas, Distinct, ((perm_insertSorted _ _).map _).nodup_iff, List.map_cons,
        List.nodup_cons]
      refine ⟨fun hmem => ?_, h⟩
      obtain ⟨e, he, hroute⟩ := List.mem_map.mp hmem
      exact route_ne_of_not_has hhas e he hroute

/-- The entries of a map are what look-ups find. -/
theorem Distinct.mem_iff (h : m.Distinct) {e : RouteEntry α} :
    e ∈ m.entries ↔ m.get? e.template e.method = some e.payload := by
  rw [get?, map_payload_eq_some_iff]
  refine ⟨fun he => ?_, fun hfind => (of_find?_isAt hfind).1⟩
  obtain ⟨e', hfind⟩ := Option.isSome_iff_exists.mp
    (isSome_find?_isAt.mpr (List.mem_map_of_mem he))
  obtain ⟨he', hroute⟩ := of_find?_isAt hfind
  rw [hfind, List.inj_on_of_nodup_map h he' he hroute]

/-! ## Many insertions -/

/-- Wherever an insertion is found only if nothing stood before, of many insertions the first is
found. -/
theorem look_foldl {σ : Type} (look : σ → Option α) {step : σ → RouteEntry α → σ}
    (h : ∀ s e, look (step s e) =
      (look s).or (if e.isAt template method then some e.payload else none))
    (s : σ) (es : List (RouteEntry α)) :
    look (es.foldl step s) =
      (look s).or ((es.find? fun e => e.isAt template method).map RouteEntry.payload) := by
  induction es generalizing s with
  | nil => exact Option.or_none.symm
  | cons e rest ih =>
      rw [List.foldl_cons, ih, h, Option.or_assoc, List.find?_cons]
      cases e.isAt template method <;> rfl

/-- The map after inserting entries in turn. -/
def insertAll (m : RouteMap α) (es : List (RouteEntry α)) : RouteMap α :=
  es.foldl (fun m e => (m.insert e.template e.method e.payload).1) m

theorem insertAll_append (m : RouteMap α) (es fs : List (RouteEntry α)) :
    m.insertAll (es ++ fs) = (m.insertAll es).insertAll fs := List.foldl_append

theorem Distinct.insertAll (h : m.Distinct) (es : List (RouteEntry α)) : (m.insertAll es).Distinct := by
  induction es generalizing m with
  | nil => exact h
  | cons e rest ih => exact ih (h.insert e.template e.method e.payload)

/-- **Of the entries inserted** the first for each route is found. -/
theorem get?_insertAll (m : RouteMap α) (es : List (RouteEntry α)) (template : String)
    (method : Method) :
    (m.insertAll es).get? template method =
      (m.get? template method).or
        ((es.find? fun e => e.isAt template method).map RouteEntry.payload) :=
  look_foldl (fun m : RouteMap α => m.get? template method)
    (fun m e => get?_insert m e template method) m es

/-- The entries of a map that was filled from nothing. -/
theorem mem_insertAll {es : List (RouteEntry α)} {e : RouteEntry α} :
    e ∈ (({} : RouteMap α).insertAll es).entries ↔
      (es.find? fun e' => e'.isAt e.template e.method) = some e := by
  rw [(distinct_empty.insertAll es).mem_iff, get?_insertAll, ← map_payload_eq_some_iff]
  rfl

/-- A map that was filled from nothing has the routes of all that was inserted. -/
theorem mem_routes_insertAll {es : List (RouteEntry α)} {route : String × Method} :
    route ∈ (({} : RouteMap α).insertAll es).entries.map RouteEntry.route ↔
      route ∈ es.map RouteEntry.route := by
  rw [List.mem_map, List.mem_map]
  constructor
  · rintro ⟨e, he, hroute⟩
    exact ⟨e, (of_find?_isAt (mem_insertAll.mp he)).1, hroute⟩
  · rintro ⟨e, he, rfl⟩
    obtain ⟨found, hfind⟩ := Option.isSome_iff_exists.mp
      (isSome_find?_isAt.mpr (List.mem_map_of_mem he))
    obtain ⟨_, hroute⟩ := of_find?_isAt hfind
    obtain ⟨htemplate, hmethod⟩ := Prod.mk.inj hroute
    refine ⟨found, mem_insertAll.mpr ?_, hroute⟩
    rw [htemplate, hmethod, hfind]

end RouteMap

/-! ## Order -/

namespace RouteEntry

variable {α : Type} {e e' : RouteEntry α}

/-- Whether an entry stands before another one: by the bytes of the templates, and for one template by
the order in which methods are listed. -/
def Precedes (e e' : RouteEntry α) : Prop :=
  Text.bytes e.template < Text.bytes e'.template ∨
    e.template = e'.template ∧ e.method.rank < e'.method.rank

theorem before_iff : e.before e'.template e'.method = true ↔ e.Precedes e' := by
  rw [before, Precedes, Text.bytes_lt_iff]
  simp

theorem Precedes.trans {e'' : RouteEntry α} (h : e.Precedes e') (h' : e'.Precedes e'') :
    e.Precedes e'' := by
  unfold Precedes at h h' ⊢
  rw [Text.bytes_lt_iff] at h h' ⊢
  rcases h with hlt | ⟨heq, hlt⟩
  · rcases h' with hlt' | ⟨heq', _⟩
    · exact .inl (String.lt_trans hlt hlt')
    · exact .inl (heq' ▸ hlt)
  · rw [heq]
    exact h'.imp_right fun h' => ⟨h'.1, Nat.lt_trans hlt h'.2⟩

theorem not_precedes_self (e : RouteEntry α) : ¬ e.Precedes e := by
  rintro (hlt | ⟨_, hlt⟩)
  · exact List.lt_irrefl _ hlt
  · exact Nat.lt_irrefl _ hlt

instance : Std.Irrefl (Precedes (α := α)) := ⟨not_precedes_self⟩

instance : Std.Antisymm (Precedes (α := α)) :=
  ⟨fun e _ h h' => absurd (h.trans h') (not_precedes_self e)⟩

/-- Of two entries for different routes one stands before the other. -/
theorem precedes_of_not_precedes (h : ¬ e.Precedes e') (hne : e.route ≠ e'.route) :
    e'.Precedes e := by
  unfold Precedes at h ⊢
  rw [Text.bytes_lt_iff] at h ⊢
  by_cases hlt : e'.template < e.template
  · exact .inl hlt
  · have htemplate : e.template = e'.template :=
      String.le_antisymm (String.not_lt.mp hlt) (String.not_lt.mp fun hlt' => h (.inl hlt'))
    have hmethod : e.method ≠ e'.method := fun hmethod => hne (Prod.ext htemplate hmethod)
    have hrank : e.method.rank ≠ e'.method.rank := fun hrank => hmethod (Method.rank_injective hrank)
    have hle : ¬ e.method.rank < e'.method.rank := fun hrank => h (.inr ⟨htemplate, hrank⟩)
    exact .inr ⟨htemplate.symm, by omega⟩

end RouteEntry

namespace RouteMap

variable {α : Type} {m : RouteMap α}

/-- Every entry stands before the entries behind it. -/
def Sorted (m : RouteMap α) : Prop := m.entries.Pairwise RouteEntry.Precedes

theorem sorted_empty : Sorted ({} : RouteMap α) := .nil

theorem pairwise_insertSorted {entry : RouteEntry α} {es : List (RouteEntry α)}
    (h : es.Pairwise RouteEntry.Precedes) (hne : ∀ e ∈ es, e.route ≠ entry.route) :
    (insertSorted entry es).Pairwise RouteEntry.Precedes := by
  induction es with
  | nil => exact .cons nofun .nil
  | cons e rest ih =>
      obtain ⟨hfirst, hrest⟩ := List.pairwise_cons.mp h
      obtain ⟨hroute, hroutes⟩ := List.forall_mem_cons.mp hne
      rw [insertSorted]
      split
      · next hbefore =>
          refine .cons (fun e' he' => ?_) (ih hrest hroutes)
          rcases List.mem_cons.mp ((perm_insertSorted entry rest).mem_iff.mp he') with rfl | he'
          · exact RouteEntry.before_iff.mp hbefore
          · exact hfirst e' he'
      · next hbefore =>
          have hentry : entry.Precedes e := RouteEntry.precedes_of_not_precedes
            (fun hprecedes => hbefore (RouteEntry.before_iff.mpr hprecedes)) hroute
          refine .cons (List.forall_mem_cons.mpr ⟨hentry, fun e' he' => ?_⟩) h
          exact hentry.trans (hfirst e' he')

theorem Sorted.insert (h : m.Sorted) (template : String) (method : Method) (payload : α) :
    (m.insert template method payload).1.Sorted := by
  cases hhas : m.has template method with
  | true =>
      rw [insert_of_has hhas]
      exact h
  | false =>
      rw [insert_of_not_has hhas]
      exact pairwise_insertSorted h (route_ne_of_not_has hhas)

theorem Sorted.insertAll (h : m.Sorted) (es : List (RouteEntry α)) : (m.insertAll es).Sorted := by
  induction es generalizing m with
  | nil => exact h
  | cons e rest ih => exact ih (h.insert e.template e.method e.payload)

/-! ## Templates -/

theorem mem_dedup {template : String} {ts : List String} : template ∈ dedup ts ↔ template ∈ ts := by
  induction ts with
  | nil => rfl
  | cons t rest ih =>
      rw [List.mem_cons, ← ih, dedup]
      split
      · next hrest => rw [hrest, List.mem_singleton, or_iff_left List.not_mem_nil]
      · next hrest =>
          rw [hrest]
          split
          · next heq => rw [heq, List.mem_cons, or_self_left]
          · exact List.mem_cons

theorem pairwise_dedup {ts : List String} (h : ts.Pairwise (· ≤ ·)) :
    (dedup ts).Pairwise (· < ·) := by
  induction ts with
  | nil => exact .nil
  | cons t rest ih =>
      obtain ⟨hfirst, hrest⟩ := List.pairwise_cons.mp h
      have hdedup := ih hrest
      have hle : ∀ u ∈ dedup rest, t ≤ u := fun u hu => hfirst u (mem_dedup.mp hu)
      rw [dedup]
      split
      · exact .cons nofun .nil
      · next u others hothers =>
          rw [hothers] at hdedup hle
          split
          · exact hdedup
          · next hne =>
              obtain ⟨hu, _⟩ := List.forall_mem_cons.mp hle
              have hlt : t < u := String.not_le.mp fun hge => hne (String.le_antisymm hu hge)
              refine .cons (List.forall_mem_cons.mpr ⟨hlt, fun v hv => ?_⟩) hdedup
              exact String.lt_trans hlt ((List.pairwise_cons.mp hdedup).1 v hv)

theorem mem_templates {template : String} :
    template ∈ m.templates ↔ ∃ e ∈ m.entries, e.template = template := by
  rw [templates, mem_dedup, List.mem_map]

/-- The templates of a sorted map stand in its order. -/
theorem Sorted.pairwise_templates (h : m.Sorted) : m.templates.Pairwise (· < ·) := by
  apply pairwise_dedup
  rw [List.pairwise_map]
  refine h.imp fun {e e'} hprecedes => ?_
  rcases hprecedes with hlt | ⟨heq, _⟩
  · exact String.not_lt.mp (String.lt_asymm (Text.bytes_lt_iff.mp hlt))
  · exact heq ▸ String.le_refl _

end RouteMap

end RouteContract
