import Mathlib.Data.Finset.Card
import RouteContract.Proofs.Document.Build
import RouteContract.Proofs.Route.RouteMap
import RouteContract.Proofs.Route.Segments
import RouteContract.Proofs.Text.Runs

/-!
# Routes -- which operations a document keeps

A document lists operations by path and method, and the path is that of the route as documents write
it, so an operation stands at an address that is not quite its route (`Document.address`). Operations
are added in the order of the routes, and one that comes to a taken address replaces what stands
there. Each address then holds the operation of its last route, and there are as many operations as
addresses (`Document.operationCount_wirePaths`, `Document.operation?_wirePaths_last`).

So a document keeps all routes of a map exactly if no two share an address
(`Document.build_keeps_routes`). Two routes of a map can only share one if the braces that documents
put around parameters, or the marks of optional parameters that they drop, are what tells their
templates apart (`Document.apart_of_plain`).
-/

namespace RouteContract

namespace Method

theorem lower_injective : Function.Injective lower := by
  intro a b h
  revert h
  cases a <;> cases b <;> decide

end Method

namespace Document

open Describe

/-! ## Addresses -/

/-- Where the operation of a route stands in a document: under the path of its template and under
its method. -/
def address {α : Type} (e : RouteEntry α) : String × Method := (pathOf e.template, e.method)

/-- No two routes have the same address. -/
def Apart {α : Type} (routes : RouteMap α) : Prop := (routes.entries.map address).Nodup

instance {α : Type} (routes : RouteMap α) : Decidable (Apart routes) :=
  inferInstanceAs (Decidable (List.Nodup _))

/-- The operations of a path. -/
def operationsAt (paths : Entries (Entries Operation)) (path : String) : Entries Operation :=
  (paths.get? path).getD []

/-- The operation at an address. -/
def operation? (paths : Entries (Entries Operation)) (place : String × Method) : Option Operation :=
  (operationsAt paths place.1).get? place.2.lower

/-- Number of operations under all paths. -/
def operationCount (paths : Entries (Entries Operation)) : Nat := (paths.flatMap Prod.snd).length

/-! ## Adding an operation -/

section Add

variable (paths : Entries (Entries Operation)) (path : String) (method : Method) (o : Operation)

/-- An added operation stands at its address, and the others stand where they stood. -/
theorem operation?_addOperation (place : String × Method) :
    operation? (addOperation paths path method o) place =
      if (path, method) = place then some o else operation? paths place := by
  obtain ⟨path', method'⟩ := place
  unfold operation? operationsAt addOperation
  dsimp only
  rw [Entries.get?_put]
  by_cases hpath : path = path'
  · subst hpath
    rw [if_pos rfl, Option.getD_some, Entries.get?_put]
    simp only [Prod.mk.injEq, true_and, Method.lower_injective.eq_iff]
  · rw [if_neg hpath, if_neg fun heq => hpath (Prod.mk.inj heq).1]

/-- What stands under a path is counted once. -/
theorem operationCount_put (os : Entries Operation) :
    operationCount (paths.put path os) + (operationsAt paths path).length =
      operationCount paths + os.length := by
  induction paths with
  | nil => simp [operationCount, operationsAt, Entries.put]
  | cons p rest ih =>
      obtain ⟨k, ps⟩ := p
      unfold operationCount operationsAt at ih ⊢
      by_cases hk : k = path
      · rw [Entries.put, if_pos hk, Entries.get?, if_pos hk]
        simp only [List.flatMap_cons, List.length_append, Option.getD_some]
        omega
      · rw [Entries.put, if_neg hk, Entries.get?, if_neg hk]
        simp only [List.flatMap_cons, List.length_append]
        omega

/-- An added operation counts unless its address is taken. -/
theorem operationCount_addOperation :
    operationCount (addOperation paths path method o) =
      operationCount paths + if (operation? paths (path, method)).isSome then 0 else 1 := by
  have hput := operationCount_put paths path ((operationsAt paths path).put method.lower o)
  rw [Entries.length_put] at hput
  have hadd : operationCount (addOperation paths path method o) =
      operationCount (paths.put path ((operationsAt paths path).put method.lower o)) := rfl
  have hhas : Entries.has (operationsAt paths path) method.lower =
      (operation? paths (path, method)).isSome := rfl
  rw [hhas] at hput
  omega

end Add

/-! ## Adding the operations of routes -/

section Routes

variable {entries before after : List (RouteEntry Metadata)} {e : RouteEntry Metadata}
  {paths : Entries (Entries Operation)} {place : String × Method}

theorem wirePaths_concat (entries : List (RouteEntry Metadata)) (e : RouteEntry Metadata)
    (paths : Entries (Entries Operation)) :
    wirePaths (entries ++ [e]) paths = addOperation (wirePaths entries paths) (pathOf e.template)
      e.method (wireOperation e.payload) :=
  List.foldl_append

/-- One more route takes its address and leaves the others alone. -/
theorem operation?_concat :
    operation? (wirePaths (entries ++ [e]) paths) place =
      if address e = place then some (wireOperation e.payload)
      else operation? (wirePaths entries paths) place := by
  rw [wirePaths_concat, operation?_addOperation]
  rfl

/-- One more route is one more operation, unless its address is taken. -/
theorem operationCount_concat :
    operationCount (wirePaths (entries ++ [e]) paths) =
      operationCount (wirePaths entries paths) +
        if (operation? (wirePaths entries paths) (address e)).isSome then 0 else 1 := by
  rw [wirePaths_concat, operationCount_addOperation]
  rfl

/-- **The last route of an address** has its operation there. -/
theorem operation?_wirePaths_last (h : address e ∉ after.map address) :
    operation? (wirePaths (before ++ e :: after) paths) (address e) =
      some (wireOperation e.payload) := by
  -- from the end: every route behind this one takes another address
  induction after using List.reverseRecOn with
  | nil => rw [operation?_concat, if_pos rfl]
  | append_singleton after last ih =>
      rw [List.map_append, List.mem_append, not_or, List.map_singleton, List.mem_singleton] at h
      rw [← List.cons_append, ← List.append_assoc, operation?_concat, if_neg (Ne.symm h.2), ih h.1]

/-- An address is taken exactly if a route has it. -/
theorem isSome_operation?_wirePaths :
    (operation? (wirePaths entries []) place).isSome = true ↔ place ∈ entries.map address := by
  induction entries using List.reverseRecOn with
  | nil => simp [wirePaths, operation?, operationsAt]
  | append_singleton entries last ih =>
      rw [operation?_concat, List.map_append, List.mem_append, List.map_singleton,
        List.mem_singleton]
      by_cases hlast : address last = place
      · rw [if_pos hlast]
        exact iff_of_true rfl (.inr hlast.symm)
      · rw [if_neg hlast, ih, or_iff_left (Ne.symm hlast)]

/-- **There are as many operations as addresses.** -/
theorem operationCount_wirePaths (entries : List (RouteEntry Metadata)) :
    operationCount (wirePaths entries []) = (entries.map address).toFinset.card := by
  induction entries using List.reverseRecOn with
  | nil => rfl
  | append_singleton entries last ih =>
      have hinsert : ((entries ++ [last]).map address).toFinset =
          insert (address last) (entries.map address).toFinset := by
        ext place
        simp
      rw [operationCount_concat, ih, hinsert]
      by_cases htaken : address last ∈ entries.map address
      · rw [if_pos (isSome_operation?_wirePaths.mpr htaken),
          Finset.insert_eq_of_mem (List.mem_toFinset.mpr htaken), Nat.add_zero]
      · rw [if_neg fun hsome => htaken (isSome_operation?_wirePaths.mp hsome),
          Finset.card_insert_of_notMem fun hmem => htaken (List.mem_toFinset.mp hmem)]

/-- Routes at addresses of their own are the ones that are all counted. -/
theorem operationCount_eq_length_iff :
    operationCount (wirePaths entries []) = entries.length ↔ (entries.map address).Nodup := by
  rw [operationCount_wirePaths, ← Multiset.coe_nodup, ← Multiset.toFinset_card_eq_card_iff_nodup,
    Multiset.coe_card, List.length_map]
  rfl

end Routes

/-! ## Documents that are built -/

/-- The operation that documents describe an endpoint by, whatever was compiled before. -/
def Describes (defs : Definitions) (e : RouteEntry Metadata) (o : Operation) : Prop :=
  ∀ r, ((Describe.operation defs e.template e.method e.payload).run r).1 = .ok o

theorem describes_wireOperation {defs : Definitions} {e : RouteEntry Metadata}
    (h : Describable e) : Describes defs e (wireOperation e.payload) := by
  intro r
  rcases operation_run defs e.template e.method e.payload with ⟨_, _, hnot, _⟩ | ⟨_, hrun⟩
  · exact absurd h hnot
  · rw [hrun]

/-- **A document keeps the last route of each address.** What stands at an address is the operation
of the last route there, whatever was compiled before it. So the operations are as many as the routes
exactly if no two routes share an address, and then each of them has its operation. -/
theorem build_keeps_routes {defs : Definitions} {routes : RouteMap Metadata}
    {config : DocumentConfig} {d : Document} (h : build defs routes config = .ok d) :
    (operationCount d.paths = routes.size ↔ Apart routes) ∧
    (Apart routes → ∀ e ∈ routes.entries, ∃ o, operation? d.paths (address e) = some o ∧
      Describes defs e o) ∧
    ∀ before e after, routes.entries = before ++ e :: after → address e ∉ after.map address →
      ∃ o, operation? d.paths (address e) = some o ∧ Describes defs e o := by
  obtain ⟨hdescribable, hpaths, _⟩ := build_eq_ok h
  have hlast : ∀ before e after, routes.entries = before ++ e :: after →
      address e ∉ after.map address →
      ∃ o, operation? d.paths (address e) = some o ∧ Describes defs e o := by
    intro before e after hsplit hafter
    have hmem : e ∈ routes.entries := by
      rw [hsplit]
      simp
    refine ⟨wireOperation e.payload, ?_, describes_wireOperation (hdescribable e hmem)⟩
    rw [hpaths, hsplit]
    exact operation?_wirePaths_last hafter
  refine ⟨?_, fun hapart e he => ?_, hlast⟩
  · rw [hpaths]
    exact operationCount_eq_length_iff
  · obtain ⟨before, after, hsplit⟩ := List.append_of_mem he
    refine hlast before e after hsplit ?_
    rw [Apart, hsplit, List.map_append, List.map_cons, List.nodup_append, List.nodup_cons] at hapart
    exact hapart.2.1.1

/-- Routes inserted in turn, each with a response schema. -/
def routesOf (routes : List (String × Method × Schema)) : RouteMap Metadata :=
  ({} : RouteMap Metadata).insertAll (routes.map fun route =>
    ⟨route.1, route.2.1, { response := some route.2.2 }⟩)

/-- A list and its elements. -/
theorem build_keeps_users :
    let routes := routesOf [("/users", .get, .string), ("/users/:id", .get, .number)]
    ∃ d, build {} routes {} = .ok d ∧ operationCount d.paths = routes.size ∧
      ∀ e ∈ routes.entries, ∃ o, operation? d.paths (address e) = some o ∧ Describes {} e o := by
  intro routes
  have hbuild : ∃ d, build {} routes {} = .ok d := ⟨_, rfl⟩
  obtain ⟨d, hd⟩ := hbuild
  have hapart : Apart routes := by decide
  obtain ⟨hcount, hkept, _⟩ := build_keeps_routes hd
  exact ⟨d, hd, hcount.mpr hapart, hkept hapart⟩

/-- **A route is lost** when one template has a required parameter and the other an optional one:
both are written in the same way, and the operation added later is the only one left. -/
theorem build_loses_route :
    let routes := routesOf [("/users/:id", .get, .string), ("/users/:id?", .get, .number)]
    ∃ d, build {} routes {} = .ok d ∧ routes.size = 2 ∧ operationCount d.paths = 1 := by
  intro routes
  exact ⟨_, rfl, rfl, rfl⟩

/-! ## Templates that documents tell apart -/

/-- A part of a template that documents write in a way of its own: a literal that does not start with
the brace of a written parameter, or a parameter without the mark of an optional one. -/
def PlainPart (part : String) : Prop :=
  part.toList.head? ≠ some '\x7b' ∧
    ∀ name, part.toList = ':' :: name → name.getLast? ≠ some '?'

/-- A template of plain parts. -/
def Plain (template : String) : Prop := ∀ part ∈ Path.split template, PlainPart part

theorem mem_of_mem_dropRightWhile {p : Char → Bool} {cs : List Char} {c : Char}
    (h : c ∈ dropRightWhile p cs) : c ∈ cs := by
  rw [dropRightWhile, List.mem_reverse] at h
  exact List.mem_reverse.mp ((List.dropWhile_sublist p).subset h)

theorem dropRightWhile_of_getLast? {p : Char → Bool} {cs : List Char}
    (h : ∀ c, cs.getLast? = some c → p c = false) : dropRightWhile p cs = cs := by
  have hkept : cs.reverse.dropWhile p = cs.reverse := by
    refine Text.dropWhile_of_stops fun c hc => h c ?_
    rwa [List.head?_reverse] at hc
  rw [dropRightWhile, hkept, List.reverse_reverse]

/-- A part is a parameter, written in braces and without marks, or it is written as it is. -/
theorem pathPart_cases (part : String) :
    (∃ name, part.toList = ':' :: name ∧
      (pathPart part).toList = '\x7b' :: dropRightWhile (fun c => c == '?') name ++ ['\x7d']) ∨
    part.toList.head? ≠ some ':' ∧ pathPart part = part := by
  unfold pathPart
  split
  · next name hname => exact .inl ⟨name, hname, by simp⟩
  · next hliteral =>
      refine .inr ⟨fun hcolon => ?_, rfl⟩
      obtain ⟨rest, hrest⟩ := List.head?_eq_some_iff.mp hcolon
      exact hliteral rest hrest

theorem not_mem_pathPart {part : String} (h : '/' ∉ part.toList) : '/' ∉ (pathPart part).toList := by
  rcases pathPart_cases part with ⟨name, hname, htext⟩ | ⟨_, htext⟩
  · rw [htext]
    intro hmem
    rcases List.mem_append.mp hmem with hmem | hmem
    · rcases List.mem_cons.mp hmem with hslash | hmem
      · cases hslash
      · exact h (hname ▸ List.mem_cons_of_mem _ (mem_of_mem_dropRightWhile hmem))
    · cases List.mem_singleton.mp hmem
  · rwa [htext]

/-- Plain parts are told apart. -/
theorem pathPart_injOn {part part' : String} (h : PlainPart part) (h' : PlainPart part')
    (heq : pathPart part = pathPart part') : part = part' := by
  have hkept : ∀ {part : String} {name}, PlainPart part → part.toList = ':' :: name →
      dropRightWhile (fun c => c == '?') name = name := by
    intro part name hplain hname
    refine dropRightWhile_of_getLast? fun c hc => ?_
    have hne : c ≠ '?' := fun hmark => hplain.2 name hname (hmark ▸ hc)
    simpa using hne
  rcases pathPart_cases part with ⟨name, hname, htext⟩ | ⟨_, htext⟩ <;>
    rcases pathPart_cases part' with ⟨name', hname', htext'⟩ | ⟨_, htext'⟩
  · rw [heq, htext', hkept h hname, hkept h' hname'] at htext
    have hnames : name' = name := List.append_cancel_right (List.cons.inj htext).2
    exact String.toList_injective (by rw [hname, hname', hnames])
  -- a literal that is written like a parameter starts with a brace
  · rw [heq, htext'] at htext
    exact absurd (by rw [htext]; rfl) h'.1
  · rw [← heq, htext] at htext'
    exact absurd (by rw [htext']; rfl) h.1
  · rw [← htext, heq, htext']

theorem map_pathPart_injOn {parts parts' : List String} (h : ∀ part ∈ parts, PlainPart part)
    (h' : ∀ part ∈ parts', PlainPart part) (heq : parts.map pathPart = parts'.map pathPart) :
    parts = parts' := by
  induction parts generalizing parts' with
  | nil => exact (List.map_eq_nil_iff.mp heq.symm).symm
  | cons part rest ih =>
      cases parts' with
      | nil => cases heq
      | cons part' rest' =>
          obtain ⟨hpart, hrest⟩ := List.forall_mem_cons.mp h
          obtain ⟨hpart', hrest'⟩ := List.forall_mem_cons.mp h'
          rw [List.map_cons, List.map_cons, List.cons.injEq] at heq
          rw [pathPart_injOn hpart hpart' heq.1, ih hrest hrest' heq.2]

/-- **Plain templates are told apart.** -/
theorem pathOf_injOn {template template' : String} (h : Plain template) (h' : Plain template')
    (heq : pathOf template = pathOf template') : template = template' := by
  have hne : ∀ template, (Path.split template).map pathPart ≠ [] := by
    intro template hnil
    exact Path.splitChars_ne_nil '/' template.toList
      (List.map_eq_nil_iff.mp (List.map_eq_nil_iff.mp hnil))
  have hslash : ∀ template, ∀ part ∈ (Path.split template).map pathPart, '/' ∉ part.toList :=
    fun template => List.forall_mem_map.mpr fun part hpart =>
      not_mem_pathPart (Path.not_mem_of_mem_split hpart)
  have hparts : (Path.split template).map pathPart = (Path.split template').map pathPart :=
    Path.ofSegments_injective (hne _) (hne _) (hslash _) (hslash _) (congrArg ("/" ++ ·) heq)
  exact Path.split_injective (map_pathPart_injOn h h' hparts)

/-- **A map of plain templates keeps its routes apart.** -/
theorem apart_of_plain {α : Type} {routes : RouteMap α} (hdistinct : routes.Distinct)
    (hplain : ∀ e ∈ routes.entries, Plain e.template) : Apart routes := by
  refine List.Nodup.map_on ?_ (List.Nodup.of_map _ hdistinct)
  intro e he e' he' heq
  obtain ⟨hpath, hmethod⟩ := Prod.mk.inj heq
  have hroute : e.route = e'.route :=
    Prod.ext (pathOf_injOn (hplain e he) (hplain e' he') hpath) hmethod
  exact List.inj_on_of_nodup_map hdistinct he he' hroute

end Document

end RouteContract
