import RouteContract.Proofs.Route.Documented

/-!
# Regrouping -- how mounts divide a path does not show

A leaf is found under the segments of its place, which are those of the mounts around it, the
outermost first, and those of its own path (`Resolution.Reading.typed_eq_place?`). Joining paths only
appends segments, so trees whose leaves have the same places have the same routes, whatever mounts
lead to them (`Site.routes_regrouped`).
-/

namespace RouteContract

namespace Resolution

variable {ℓ μ : Type} {read : Reading ℓ μ} {leaf leaf' : LeafSite ℓ μ}

/-! ## Places -/

/-- The segments of the place of a leaf, those of the outermost mount first; or why a mount around it
has no template. -/
def Reading.place? (read : Reading ℓ μ) (leaf : LeafSite ℓ μ) : Except PatternError (List String) :=
  (leaf.around.mapM read.template?).map fun templates =>
    templates.flatMap Path.segments ++ Path.segments (read.path leaf.path)

/-- Leaves at the same place with the same handlers; the mounts around them may differ. -/
def Reading.SamePlace (read : Reading ℓ μ) (leaf leaf' : LeafSite ℓ μ) : Prop :=
  read.place? leaf = read.place? leaf' ∧ leaf.registrations = leaf'.registrations

/-- **The template of a leaf** is written from the segments of its place. -/
theorem Reading.typed_eq_place? (read : Reading ℓ μ) (leaf : LeafSite ℓ μ) :
    read.typed leaf = match read.place? leaf with
      | .ok place => Resolution.typed (Path.ofSegments place) leaf.registrations
      | .error _ => [] := by
  unfold Reading.typed Reading.place?
  cases leaf.around.mapM read.template? with
  | error cause => rfl
  | ok templates =>
      show Resolution.typed (Path.ofSegments (Path.segments (Path.joinAll templates) ++ _)) _ = _
      rw [Path.segments_joinAll]
      rfl

theorem Reading.SamePlace.typed_eq (h : read.SamePlace leaf leaf') :
    read.typed leaf = read.typed leaf' := by
  obtain ⟨hplace, hregistrations⟩ := h
  rw [typed_eq_place?, typed_eq_place?, hplace, hregistrations]

/-- The routes of a tree come from its leaves one by one. -/
theorem Reading.routes_congr {tree tree' : List (RouteNode ℓ μ)}
    (h : List.Forall₂ read.SamePlace (RouteNode.leaves [] tree) (RouteNode.leaves [] tree')) :
    read.routes tree = read.routes tree' := by
  unfold Reading.routes
  generalize RouteNode.leaves [] tree = leaves at h ⊢
  generalize RouteNode.leaves [] tree' = leaves' at h ⊢
  induction h with
  | nil => rfl
  | cons hleaf _ ih => rw [List.flatMap_cons, List.flatMap_cons, hleaf.typed_eq, ih]

/-- Whether every mount of a tree has a template. -/
def Reading.Accepts (read : Reading ℓ μ) (tree : List (RouteNode ℓ μ)) : Prop :=
  ∀ m ∈ RouteNode.mounts [] tree, ¬ read.Refuses m.site

end Resolution

namespace Site

variable {ℓ μ : Type} {read : Resolution.Reading ℓ μ} {s s' : Site ℓ μ}

theorem resolve_of_accepts (h : read.Accepts s.tree) :
    (s.resolve read).1 = .ok (({} : RouteMap Endpoint).insertAll (read.routes s.tree)) := by
  rcases resolve_cases read s with ⟨_, _, hstopped⟩ | ⟨hok, _⟩
  · obtain ⟨m, hm, hrefuses⟩ := hstopped.refuses
    exact absurd hrefuses (h m hm)
  · exact hok

/-- **Regrouping the mounts** of a tree leaves its routes alone. -/
theorem routes_regrouped (h : read.Accepts s.tree) (h' : read.Accepts s'.tree)
    (hleaves : List.Forall₂ read.SamePlace (RouteNode.leaves [] s.tree)
      (RouteNode.leaves [] s'.tree)) :
    (s.resolve read).1 = (s'.resolve read).1 := by
  rw [resolve_of_accepts h, resolve_of_accepts h', Resolution.Reading.routes_congr hleaves]

end Site

namespace Router

variable {layers : List (RouteNode PathPattern PathPattern)}

/-- Every mount of a router has a template. -/
theorem Written.accepts (h : Written layers) : reading.Accepts layers := by
  intro m hm
  obtain ⟨template, htemplate, _⟩ := (h.of_mem_mounts m hm).exists_template
  exact Resolution.not_refuses_iff.mpr ⟨template, htemplate⟩

/-- The place of a leaf of a router is told by the paths that lead to it, as they are written. -/
theorem Written.place?_eq (h : Written layers) {leaf : LeafSite PathPattern PathPattern}
    (hleaf : leaf ∈ RouteNode.leaves [] layers) :
    reading.place? leaf = .ok (leaf.paths.flatMap Path.segments) := by
  obtain ⟨haround, _⟩ := h.of_mem_leaves (List.forall_mem_nil _) leaf hleaf
  obtain ⟨templates, htemplates, hsegments⟩ := exists_templates haround
  rw [Resolution.Reading.place?, htemplates, LeafSite.paths, List.flatMap_append,
    List.flatMap_singleton, ← hsegments]
  rfl

end Router

namespace Path

/-- **Joined paths.** Joining appends the parts between slashes that are not empty. What it gives is
normal, it is associative, and at the root it leaves joined paths alone. So a router is resolved to
the same routes however mounts divide the paths to its leaves. -/
theorem join_regroups :
    (∀ path, (split path).map String.toList = path.toList.splitOn '/') ∧
    (∀ base fragment, segments (join base fragment) = segments base ++ segments fragment ∧
      Normal (join base fragment) ∧ join "/" (join base fragment) = join base fragment ∧
      ∀ path, join (join base fragment) path = join base (join fragment path)) ∧
    ∀ {ℓ μ : Type} (read : Resolution.Reading ℓ μ) (s s' : Site ℓ μ), read.Accepts s.tree →
      read.Accepts s'.tree → List.Forall₂ read.SamePlace (RouteNode.leaves [] s.tree)
        (RouteNode.leaves [] s'.tree) → (s.resolve read).1 = (s'.resolve read).1 := by
  refine ⟨fun path => ?_, fun base fragment => ⟨segments_join base fragment,
    normal_join base fragment, join_root (normal_join base fragment), join_assoc base fragment⟩,
    fun read s s' => Site.routes_regrouped⟩
  rw [split, List.map_map, ← splitChars_eq_splitOn]
  simp [Function.comp_def]

end Path

namespace Plan

/-- The house with a mount for every segment. -/
def finerHouse : Plan :=
  .mount (.mount .empty "rooms" (.mount .empty "//:room/" (lamps .put))) "/:kind"
    (.mount .empty "/:name" (lamps .get))

end Plan

namespace Router

/-- What the plan of the same name builds. -/
def finerHouse : Router :=
  let lamps := fun method : Method => RouteNode.leaf
    ⟨"/lamps/:id", [.literal "lamps", .param "id"]⟩ [⟨method, .declared Endpoint.lamp⟩]
  ⟨[.mount ⟨"rooms", [.literal "rooms"]⟩ [.mount ⟨"//:room/", [.param "room"]⟩ [lamps .put]],
    .mount ⟨"/:kind", [.param "kind"]⟩ [.mount ⟨"/:name", [.param "name"]⟩ [lamps .get]]]⟩

theorem build_finerHouse : Plan.finerHouse.build = .ok finerHouse := rfl

end Router

namespace Path

/-- The two houses have the same routes. -/
theorem join_regroups_house :
    Router.reading.Accepts Router.house.site.tree ∧
    Router.reading.Accepts Router.finerHouse.site.tree ∧
    List.Forall₂ Router.reading.SamePlace (RouteNode.leaves [] Router.house.site.tree)
      (RouteNode.leaves [] Router.finerHouse.site.tree) ∧
    (Router.house.site.resolve Router.reading).1 =
      (Router.finerHouse.site.resolve Router.reading).1 := by
  have hhouse := Plan.written Router.build_house
  have hfiner := Plan.written Router.build_finerHouse
  have hleaves : List.Forall₂ Router.reading.SamePlace (RouteNode.leaves [] Router.house.site.tree)
      (RouteNode.leaves [] Router.finerHouse.site.tree) := by
    refine .cons ⟨?_, rfl⟩ (.cons ⟨?_, rfl⟩ .nil)
    · rw [hhouse.place?_eq List.mem_cons_self, hfiner.place?_eq List.mem_cons_self]
      rfl
    · rw [hhouse.place?_eq (List.mem_cons_of_mem _ List.mem_cons_self),
        hfiner.place?_eq (List.mem_cons_of_mem _ List.mem_cons_self)]
      rfl
  exact ⟨hhouse.accepts, hfiner.accepts, hleaves,
    join_regroups.2.2 _ _ _ hhouse.accepts hfiner.accepts hleaves⟩

end Path

end RouteContract
