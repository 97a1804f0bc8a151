import Mathlib.Data.List.Perm.Subperm
import RouteContract.Proofs.Entries
import RouteContract.Registry

/-!
# Registry -- what following references comes to

The body of a name refers to other names, and computing it follows these references in turn: a known
name is passed by, a new one is opened, its body computed, and closed. `Registry.Follows` says this
without a bound on how many names are open inside one another, so a derivation of it is a computation
that ends. What it does to a registry is said once, by induction on the derivation: bodies are only
added (`Follows.grows`), every name followed is known afterwards (`Follows.knows`), every body is
that of a reference (`Follows.registered`), and which names there are does not depend on what the
bodies are (`Follows.related`).

A computation with a bound (`Bounded`) is the unbounded one as long as there is room (`Room`): names
in progress are distinct, so no more of them are ever open than there are names (`Bounded.follows`).
-/

namespace RouteContract

namespace Registry

variable {β γ : Type} {r r' r'' after : Registry β} {name target : String}

/-! ## Registries that grow -/

/-- A registry with the same names in progress and all bodies it had. -/
structure Extends (r r' : Registry β) : Prop where
  inProgress : r'.inProgress = r.inProgress
  kept : ∀ name body, Entries.get? r.entries name = some body →
    Entries.get? r'.entries name = some body

theorem Extends.refl (r : Registry β) : Extends r r := ⟨rfl, fun _ _ h => h⟩

theorem Extends.trans (h : Extends r r') (h' : Extends r' r'') : Extends r r'' :=
  ⟨h'.inProgress.trans h.inProgress, fun name body hget => h'.kept name body (h.kept name body hget)⟩

theorem knows_iff : r.knows name = true ↔
    (∃ body, Entries.get? r.entries name = some body) ∨ name ∈ r.inProgress := by
  rw [knows, Bool.or_eq_true, Entries.has, Option.isSome_iff_exists, List.contains_iff_mem]

theorem not_knows_iff : r.knows name = false ↔
    Entries.get? r.entries name = none ∧ name ∉ r.inProgress := by
  rw [knows, Bool.or_eq_false_iff, Entries.has, Option.isSome_eq_false_iff,
    Option.isNone_iff_eq_none, ← Bool.not_eq_true, List.contains_iff_mem]

theorem Extends.knows (h : Extends r r') (hknows : r.knows name = true) : r'.knows name = true := by
  rw [knows_iff] at hknows ⊢
  rcases hknows with ⟨body, hget⟩ | hmem
  · exact .inl ⟨body, h.kept name body hget⟩
  · exact .inr (h.inProgress ▸ hmem)

/-- With nothing in progress the names known are those with a body. -/
theorem exists_body_of_knows (hidle : r.inProgress = []) (hknows : r.knows name = true) :
    ∃ body, Entries.get? r.entries name = some body := by
  rcases knows_iff.mp hknows with hbody | hmem
  · exact hbody
  · rw [hidle] at hmem
    cases hmem

theorem mem_keys_of_knows (hidle : r.inProgress = []) (hknows : r.knows name = true) :
    name ∈ Entries.keys r.entries := by
  obtain ⟨body, hget⟩ := exists_body_of_knows hidle hknows
  exact (Entries.has_iff_mem_keys _ _).mp (by rw [Entries.has, hget, Option.isSome_some])

/-! ## Opening and closing a name -/

/-- The registry while the body of a name is computed. -/
def opened (r : Registry β) (name : String) : Registry β :=
  { r with inProgress := name :: r.inProgress }

/-- The registry when the body of a name is finished. -/
def closed (after : Registry β) (name : String) (body : β) : Registry β :=
  { entries := after.entries.put name body, inProgress := after.inProgress.erase name }

/-- A new name is open while its body is computed, and closed with it. -/
theorem define_of_not_knows (h : r.knows name = false) (body : StateM (Registry β) β) :
    define name body r = ((), (body (r.opened name)).2.closed name (body (r.opened name)).1) := by
  rw [define, h]
  rfl

theorem knows_closed (body : β) : (after.closed name body).knows name = true :=
  knows_iff.mpr (.inl ⟨body, by rw [closed, Entries.get?_put, if_pos rfl]⟩)

/-- What was known while a name was open is known when it is closed. -/
theorem knows_closed_of_knows (hopened : Extends (r.opened name) after) {other : String}
    (h : after.knows other = true) (body : β) : (after.closed name body).knows other = true := by
  by_cases hother : name = other
  · exact hother ▸ knows_closed body
  · rw [knows_iff] at h ⊢
    rw [closed, Entries.get?_put, if_neg hother, hopened.inProgress, opened, List.erase_cons_head]
    refine h.imp_right fun hmem => ?_
    rw [hopened.inProgress] at hmem
    exact (List.mem_cons.mp hmem).resolve_left (Ne.symm hother)

/-- A name that was opened and closed leaves nothing but its body. -/
theorem Extends.closed (hnew : r.knows name = false) (hopened : Extends (r.opened name) after)
    (body : β) : Extends r (after.closed name body) := by
  refine ⟨?_, fun other b hget => ?_⟩
  · rw [Registry.closed, hopened.inProgress, opened, List.erase_cons_head]
  · have hother : name ≠ other := by
      rintro rfl
      rw [(not_knows_iff.mp hnew).1] at hget
      cases hget
    rw [Registry.closed, Entries.get?_put, if_neg hother]
    exact hopened.kept other b hget

/-! ## Following references -/

/-- What targets stand for: what their bodies refer to, in order, and the bodies themselves. -/
structure Bodies (β : Type) where
  /-- Name and target of each reference in the body of a target. -/
  refs : String → List (String × String)
  /-- The body of a target. -/
  body : String → β

variable {bodies : Bodies β} {refs refs' : List (String × String)} {S : String × String → Prop}

/-- **Following references in turn**, each to its end. -/
inductive Follows (bodies : Bodies β) : List (String × String) → Registry β → Registry β → Prop
  | done {r : Registry β} : Follows bodies [] r r
  | known {r r' : Registry β} {name target : String} {rest : List (String × String)} :
      r.knows name = true → Follows bodies rest r r' → Follows bodies ((name, target) :: rest) r r'
  | new {r after r' : Registry β} {name target : String} {rest : List (String × String)} :
      r.knows name = false → Follows bodies (bodies.refs target) (r.opened name) after →
      Follows bodies rest (after.closed name (bodies.body target)) r' →
      Follows bodies ((name, target) :: rest) r r'

namespace Follows

theorem append (h : Follows bodies refs r r') (h' : Follows bodies refs' r' r'') :
    Follows bodies (refs ++ refs') r r'' := by
  induction h with
  | done => exact h'
  | known hknows _ ih => exact .known hknows (ih h')
  | new hnew hbody _ _ ih => exact .new hnew hbody (ih h')

/-- There is one way to follow references. -/
theorem unique (h : Follows bodies refs r r') (h' : Follows bodies refs r r'') : r' = r'' := by
  induction h generalizing r'' with
  | done =>
      cases h'
      rfl
  | known hknows _ ih =>
      cases h' with
      | known _ hrest => exact ih hrest
      | new hnew => exact absurd hknows (Bool.not_eq_true _ ▸ hnew)
  | new hnew _ _ ihbody ihrest =>
      cases h' with
      | known hknows => exact absurd hknows (Bool.not_eq_true _ ▸ hnew)
      | new _ hbody hrest =>
          rw [← ihbody hbody] at hrest
          exact ihrest hrest

/-- Bodies are only added, and nothing stays open. -/
theorem grows (h : Follows bodies refs r r') : Extends r r' := by
  induction h with
  | done => exact .refl _
  | known _ _ ih => exact ih
  | new hnew _ _ ihbody ihrest => exact (ihbody.closed hnew _).trans ihrest

theorem inProgress (h : Follows bodies refs r r') : r'.inProgress = r.inProgress :=
  h.grows.inProgress

/-- Every name followed is known afterwards. -/
theorem knows (h : Follows bodies refs r r') : ∀ ref ∈ refs, r'.knows ref.1 = true := by
  induction h with
  | done => exact nofun
  | known hknows hrest ih => exact List.forall_mem_cons.mpr ⟨hrest.grows.knows hknows, ih⟩
  | new _ _ hrest _ ih =>
      exact List.forall_mem_cons.mpr ⟨hrest.grows.knows (knows_closed _), ih⟩

theorem distinct (h : Follows bodies refs r r') (hr : Entries.Distinct r.entries) :
    Entries.Distinct r'.entries := by
  induction h with
  | done => exact hr
  | known _ _ ih => exact ih hr
  | new _ _ _ ihbody ihrest => exact ihrest ((ihbody hr).put _ _)

end Follows

/-! ## Bodies of references -/

/-- **Every body is that of a reference**, and all names it refers to are known. -/
def Registered (bodies : Bodies β) (S : String × String → Prop) (r : Registry β) : Prop :=
  ∀ name body, Entries.get? r.entries name = some body → ∃ target, S (name, target) ∧
    body = bodies.body target ∧ ∀ ref ∈ bodies.refs target, r.knows ref.1 = true

theorem registered_empty : Registered bodies S {} := fun _ _ hget => nomatch hget

theorem Registered.opened (h : Registered bodies S r) (name : String) :
    Registered bodies S (r.opened name) := by
  intro other body hget
  obtain ⟨target, href, hbody, hrefs⟩ := h other body hget
  refine ⟨target, href, hbody, fun ref hmem => ?_⟩
  exact knows_iff.mpr ((knows_iff.mp (hrefs ref hmem)).imp_right (List.mem_cons_of_mem _))

/-- A name is closed with its body once everything in the body has been followed. -/
theorem Registered.closed (h : Registered bodies S after) (hopened : Extends (r.opened name) after)
    (href : S (name, target)) (hrefs : ∀ ref ∈ bodies.refs target, after.knows ref.1 = true) :
    Registered bodies S (after.closed name (bodies.body target)) := by
  intro other body hget
  rw [Registry.closed, Entries.get?_put] at hget
  by_cases hother : name = other
  · subst hother
    rw [if_pos rfl] at hget
    cases hget
    exact ⟨target, href, rfl, fun ref hmem => knows_closed_of_knows hopened (hrefs ref hmem) _⟩
  · rw [if_neg hother] at hget
    obtain ⟨t, ht, hbody, hall⟩ := h other body hget
    exact ⟨t, ht, hbody, fun ref hmem => knows_closed_of_knows hopened (hall ref hmem) _⟩

/-- **Following references** that lead to no others than themselves adds their bodies only. -/
theorem Follows.registered (h : Follows bodies refs r r') (hrefs : ∀ ref ∈ refs, S ref)
    (hclosed : ∀ ref, S ref → ∀ ref' ∈ bodies.refs ref.2, S ref') (hr : Registered bodies S r) :
    Registered bodies S r' := by
  induction h with
  | done => exact hr
  | known _ _ ih => exact ih (List.forall_mem_cons.mp hrefs).2 hr
  | new _ hbody _ ihbody ihrest =>
      obtain ⟨href, hothers⟩ := List.forall_mem_cons.mp hrefs
      have hafter := ihbody (hclosed _ href) (hr.opened _)
      exact ihrest hothers (hafter.closed hbody.grows href hbody.knows)

/-! ## Registries of related bodies -/

/-- Registries with the same names, finished in the same order, and the same in progress; the bodies
of a name are related. -/
structure Related (R : β → γ → Prop) (r : Registry β) (q : Registry γ) : Prop where
  entries : List.Forall₂ (fun e e' => e.1 = e'.1 ∧ R e.2 e'.2) r.entries q.entries
  inProgress : r.inProgress = q.inProgress

section Related

variable {R : β → γ → Prop} {q : Registry γ}

theorem related_empty : Related R {} {} := ⟨.nil, rfl⟩

theorem Related.keys (h : Related R r q) : Entries.keys r.entries = Entries.keys q.entries := by
  rw [Entries.keys, Entries.keys, ← List.forall₂_eq_eq_eq, List.forall₂_map_left_iff,
    List.forall₂_map_right_iff]
  exact h.entries.imp fun _ _ he => he.1

theorem Related.knows (h : Related R r q) (name : String) : r.knows name = q.knows name := by
  rw [Bool.eq_iff_iff, Registry.knows, Registry.knows, Bool.or_eq_true, Bool.or_eq_true,
    Entries.has_iff_mem_keys, Entries.has_iff_mem_keys, h.keys, h.inProgress]

theorem Related.opened (h : Related R r q) (name : String) :
    Related R (r.opened name) (q.opened name) :=
  ⟨h.entries, congrArg (List.cons name) h.inProgress⟩

theorem Related.closed (h : Related R r q) (name : String) {body : β} {body' : γ}
    (hbody : R body body') : Related R (r.closed name body) (q.closed name body') :=
  ⟨Entries.forall₂_put h.entries name hbody, congrArg (List.erase · name) h.inProgress⟩

/-- Bodies that are made of others are the others, with something made of each. -/
theorem Related.eq_mapValues {f : γ → β} (h : Related (fun body body' => body = f body') r q) :
    r.entries = Entries.mapValues f q.entries := by
  rw [Entries.mapValues, ← List.forall₂_eq_eq_eq, List.forall₂_map_right_iff]
  exact h.entries.imp fun _ _ he => Prod.ext he.1 he.2

/-- **Which names come to be known**, and in which order, depends on what the bodies refer to and not
on what they are. -/
theorem Follows.related (h : Follows bodies refs r r') (bodies' : Bodies γ)
    (hrefs : bodies'.refs = bodies.refs)
    (hbodies : ∀ target, R (bodies.body target) (bodies'.body target)) (hr : Related R r q) :
    ∃ q', Follows bodies' refs q q' ∧ Related R r' q' := by
  induction h generalizing q with
  | done => exact ⟨q, .done, hr⟩
  | known hknows _ ih =>
      obtain ⟨q', hrest, hr'⟩ := ih hr
      exact ⟨q', .known (hr.knows _ ▸ hknows) hrest, hr'⟩
  | @new r after r' name target rest hnew _ _ ihbody ihrest =>
      obtain ⟨after', hbody, hafter⟩ := ihbody (hr.opened name)
      obtain ⟨q', hrest, hr'⟩ := ihrest (hafter.closed name (hbodies target))
      refine ⟨q', .new (hr.knows _ ▸ hnew) ?_ hrest, hr'⟩
      rw [hrefs]
      exact hbody

end Related

/-! ## Bounded computations -/

/-- The registry after one reference. -/
def hear (follow : String → String → StateM (Registry β) Unit) (r : Registry β)
    (ref : String × String) : Registry β :=
  (follow ref.1 ref.2 r).2

/-- **References followed up to a depth**: a known name is passed by; a new one is opened, what its
body refers to is followed with one level less, and it is closed; at depth zero nothing is done. -/
structure Bounded (bodies : Bodies β) (upTo : Nat → String → String → StateM (Registry β) Unit) :
    Prop where
  zero : ∀ r ref, hear (upTo 0) r ref = r
  known : ∀ depth r name target, r.knows name = true →
    hear (upTo (depth + 1)) r (name, target) = r
  new : ∀ depth r name target, r.knows name = false →
    hear (upTo (depth + 1)) r (name, target) =
      ((bodies.refs target).foldl (hear (upTo depth)) (r.opened name)).closed name
        (bodies.body target)

/-- There is room for one name inside another until all the names are in progress. -/
structure Room (names : List String) (depth : Nat) (r : Registry β) : Prop where
  nodup : r.inProgress.Nodup
  subset : ∀ name ∈ r.inProgress, name ∈ names
  length : names.length ≤ depth + r.inProgress.length

section Room

variable {names : List String} {depth : Nat}

/-- Where nothing is in progress, a level for each name is room enough. -/
theorem Room.of_idle (hidle : r.inProgress = []) (hdepth : names.length ≤ depth) :
    Room names depth r := by
  refine ⟨?_, ?_, ?_⟩
  · rw [hidle]
    exact List.nodup_nil
  · rw [hidle]
    exact nofun
  · omega

theorem Room.of_extends (h : Room names depth r) (hext : Extends r r') : Room names depth r' := by
  have hsame := hext.inProgress
  exact ⟨hsame ▸ h.nodup, hsame ▸ h.subset, hsame ▸ h.length⟩

/-- A new name leaves room for one name less. -/
theorem Room.opened (h : Room names (depth + 1) r) (hname : name ∈ names)
    (hnew : r.knows name = false) : Room names depth (r.opened name) := by
  refine ⟨List.nodup_cons.mpr ⟨(not_knows_iff.mp hnew).2, h.nodup⟩,
    List.forall_mem_cons.mpr ⟨hname, h.subset⟩, ?_⟩
  have hlength := h.length
  rw [Registry.opened, List.length_cons]
  omega

/-- With no room left every name is in progress. -/
theorem Room.full (h : Room names 0 r) (hname : name ∈ names) : r.knows name = true := by
  refine knows_iff.mpr (.inr ?_)
  by_contra hnew
  -- one name more would make more distinct names than there are
  have hnodup : (name :: r.inProgress).Nodup := List.nodup_cons.mpr ⟨hnew, h.nodup⟩
  have hsubset : name :: r.inProgress ⊆ names := List.forall_mem_cons.mpr ⟨hname, h.subset⟩
  have hle := (List.subperm_of_subset hnodup hsubset).length_le
  have hlength := h.length
  rw [List.length_cons] at hle
  omega

/-- **A bounded computation follows references to their ends**, as long as there is room for what is
not yet in progress. -/
theorem Bounded.follows {upTo : Nat → String → String → StateM (Registry β) Unit}
    (h : Bounded bodies upTo) (hnames : ∀ ref, S ref → ref.1 ∈ names)
    (hclosed : ∀ ref, S ref → ∀ ref' ∈ bodies.refs ref.2, S ref')
    (hrefs : ∀ ref ∈ refs, S ref) (hroom : Room names depth r) :
    Follows bodies refs r (refs.foldl (hear (upTo depth)) r) := by
  -- outside on the levels, inside on the references that are followed at one level
  induction depth generalizing refs r with
  | zero =>
      induction refs with
      | nil => exact .done
      | cons ref rest ih =>
          obtain ⟨href, hothers⟩ := List.forall_mem_cons.mp hrefs
          rw [List.foldl_cons, h.zero]
          exact .known (hroom.full (hnames ref href)) (ih hothers)
  | succ depth ihdepth =>
      induction refs generalizing r with
      | nil => exact .done
      | cons ref rest ih =>
          obtain ⟨name, target⟩ := ref
          obtain ⟨href, hothers⟩ := List.forall_mem_cons.mp hrefs
          rw [List.foldl_cons]
          cases hknows : r.knows name with
          | true =>
              rw [h.known depth r name target hknows]
              exact .known hknows (ih hothers hroom)
          | false =>
              rw [h.new depth r name target hknows]
              have hbody := ihdepth (hclosed _ href) (hroom.opened (hnames _ href) hknows)
              have hext := hbody.grows.closed hknows (bodies.body target)
              exact .new hknows hbody (ih hothers (hroom.of_extends hext))

end Room

end Registry

end RouteContract
