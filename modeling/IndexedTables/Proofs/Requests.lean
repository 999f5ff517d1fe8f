import Mathlib.Data.List.TakeDrop
import Mathlib.Data.List.TakeWhile
import IndexedTables.Proofs.JsonText
import IndexedTables.Proofs.Operations
import IndexedTables.Query.Router
set_option autoImplicit false

namespace IndexedTables

/-- The path that asks a route with a modifier or without. -/
def pathOf (route : String) : Option String → String
  | none => route
  | some modifier => route ++ "?" ++ modifier

theorem splitPath_pathOf {route : String} (h : '?' ∉ route.toList) (modifier : Option String) :
    splitPath (pathOf route modifier) = (route, modifier) := by
  have others : ∀ c ∈ route.toList, decide (c ≠ '?') = true := by
    intro c hc
    rw [decide_eq_true_eq]
    rintro rfl
    exact h hc
  unfold splitPath
  rw [List.span_eq_takeWhile_dropWhile]
  cases modifier with
  | none =>
    rw [pathOf, List.takeWhile_eq_self_iff.2 others, List.dropWhile_eq_nil_iff.2 others]
  | some modifier =>
    have htext : (pathOf route (some modifier)).toList =
        route.toList ++ '?' :: modifier.toList := by
      simp [pathOf]
    rw [htext, List.takeWhile_append_of_pos others, List.dropWhile_append_of_pos others]
    simp

theorem exists_pathOf (path : String) :
    ∃ route modifier, '?' ∉ route.toList ∧ path = pathOf route modifier := by
  by_cases h : '?' ∈ path.toList
  · obtain ⟨route, modifier, hpath, hroute⟩ := List.eq_append_cons_of_mem h
    refine ⟨String.ofList route, some (String.ofList modifier), by simpa using hroute, ?_⟩
    exact String.toList_injective (by simp [pathOf, hpath])
  · exact ⟨path, none, h, rfl⟩

namespace KeyRange

def toJson (range : KeyRange) : Json := .ofFields <|
  (range.start.map fun b => ("start", Json.ofBytes b)).toList ++
    (range.stop.map fun b => ("end", Json.ofBytes b)).toList

theorem plain_toJson (range : KeyRange) : range.toJson.Plain ∧ range.toJson.depth ≤ 2 := by
  have bounds : ∀ f ∈ (range.start.map fun b => ("start", Json.ofBytes b)).toList ++
      (range.stop.map fun b => ("end", Json.ofBytes b)).toList, ∃ b, f.2 = Json.ofBytes b := by
    intro f hf
    simp only [List.mem_append, Option.mem_toList, Option.map_eq_some_iff] at hf
    rcases hf with ⟨b, -, rfl⟩ | ⟨b, -, rfl⟩ <;> exact ⟨b, rfl⟩
  refine ⟨Json.plain_ofFields fun f hf => ?_, Json.depth_ofFields_le fun f hf => ?_⟩ <;>
    obtain ⟨b, hb⟩ := bounds f hf <;> rw [hb]
  · exact Json.plain_ofBytes b
  · exact Json.depth_ofBytes_le b

theorem range?_toJson (range : KeyRange) : Modifier.range? range.toJson = some range := by
  obtain ⟨start, stop⟩ := range
  rw [Modifier.range?, toJson, Json.members?_ofFields]
  have hbound : ∀ b, Modifier.bound? (some (.ofBytes b)) = some (some b) := fun b =>
    congrArg (Option.map some) (Json.bytes?_ofBytes b)
  have hopen : Modifier.bound? none = some none := rfl
  cases start <;> cases stop <;> simp [hbound, hopen]

end KeyRange

namespace Modifier

/-- What a modifier and a payload ask for. -/
inductive Reads : Option String → Bytes → Modifier → Prop where
  | exact {modifier : Option String} {key : Bytes} (plain : modifier = none ∨ modifier = some "")
      (nonempty : key ≠ []) : Reads modifier key (.exact key)
  | beginning {lead : Bytes} (nonempty : lead ≠ []) : Reads (some "prefix") lead (.beginning lead)
  | everything : Reads (some "range") [] (.range .all)
  | range {payload : Bytes} {j : Json} {range : KeyRange} (text : Json.read? payload = some j)
      (states : range? j = some range) : Reads (some "range") payload (.range range)

theorem Reads.parse {modifier : Option String} {payload : Bytes} {q : Modifier}
    (h : Reads modifier payload q) : Modifier.parse modifier payload = .ok q := by
  cases h with
  | exact plain nonempty => rcases plain with rfl | rfl <;> simp [Modifier.parse, nonempty]
  | beginning nonempty => simp [Modifier.parse, nonempty]
  | everything => rfl
  | range text states =>
    have nonempty : payload ≠ [] := by
      rintro rfl
      cases text
    simp [Modifier.parse, parseRange, nonempty, text, states, Except.map]

theorem eq_some_of_getD {modifier : Option String} {name : String} (h : modifier.getD "" = name)
    (nonempty : name ≠ "") : modifier = some name := by
  cases modifier with
  | none => exact absurd h.symm nonempty
  | some modifier => exact congrArg some h

theorem reads_of_parse {modifier : Option String} {payload : Bytes} {q : Modifier}
    (h : parse modifier payload = .ok q) : Reads modifier payload q := by
  unfold parse at h
  split at h
  · next plain =>
    split at h
    · cases h
    · next nonempty =>
      cases h
      refine .exact ?_ nonempty
      cases modifier with
      | none => exact .inl rfl
      | some modifier => exact .inr (congrArg some plain)
  · next named =>
    cases eq_some_of_getD named (by decide)
    split at h
    · cases h
    · next nonempty =>
      cases h
      exact .beginning nonempty
  · next named =>
    cases eq_some_of_getD named (by decide)
    unfold parseRange at h
    split at h
    · next empty =>
      cases h
      rw [empty]
      exact .everything
    · split at h
      · next found hfound =>
        cases h
        obtain ⟨j, text, states⟩ := Option.bind_eq_some_iff.1 hfound
        exact .range text states
      · cases h
  · cases h

theorem kind_of_parse {modifier : Option String} {payload : Bytes} {e : Error}
    (h : parse modifier payload = .error e) : e.kind = .invalidArgument := by
  unfold parse at h
  split at h
  · split at h <;> cases h
    rfl
  · split at h <;> cases h
    rfl
  · unfold parseRange at h
    split at h
    · cases h
    · split at h <;> cases h
      rfl
  · cases h
    rfl

theorem reads_toJson (range : KeyRange) : Reads (some "range") range.toJson.render (.range range) :=
  have ⟨plain, hdepth⟩ := range.plain_toJson
  .range (plain.read?_render (hdepth.trans (by decide))) range.range?_toJson

end Modifier

namespace Router

/-- A router in which these routes, and no others, were registered. -/
inductive Registered (config : Config) : List (String × Target) → Router → Prop where
  | build {r : Router} (built : build config = .ok r) : Registered config [] r
  | register {routes : List (String × Target)} {r r' : Router} {path : String} {target : Target}
      (before : Registered config routes r) (added : r.register path target = .ok r') :
      Registered config ((path, target) :: routes) r'

variable {config : Config} {routes : List (String × Target)} {r : Router}

theorem build_cases (h : build config = .ok r) :
    r = ⟨.empty, config.maxQueryResult⟩ ∧ config.maxQueryResult ≠ 0 := by
  unfold build Config.check at h
  split at h
  · cases h
  · next positive =>
    split at h <;> cases h
    exact ⟨rfl, positive⟩

theorem register_cases {r r' : Router} {path : String} {target : Target}
    (h : r.register path target = .ok r') : '?' ∉ path.toList ∧ r.routes.find? path = none ∧
      r' = { r with routes := r.routes.insert path target } := by
  unfold register at h
  split at h
  · cases h
  · next allowed =>
    split at h
    · cases h
    · next free =>
      cases h
      exact ⟨fun mark => allowed (.inr mark), by simpa [SortedMap.contains] using free, rfl⟩

theorem Registered.maxRows (h : Registered config routes r) :
    r.maxRows = config.maxQueryResult ∧ config.maxQueryResult ≠ 0 := by
  induction h with
  | build built =>
    obtain ⟨rfl, positive⟩ := build_cases built
    exact ⟨rfl, positive⟩
  | register before added ih =>
    obtain ⟨-, -, rfl⟩ := register_cases added
    exact ih

theorem Registered.find?_eq_some_iff (h : Registered config routes r) {route : String}
    {target : Target} : r.routes.find? route = some target ↔ (route, target) ∈ routes := by
  induction h with
  | build built =>
    obtain ⟨rfl, -⟩ := build_cases built
    simp
  | @register routes r r' path new before added ih =>
    obtain ⟨-, free, rfl⟩ := register_cases added
    rw [List.mem_cons, Prod.mk.injEq]
    by_cases same : route = path
    · subst same
      have absent : (route, target) ∉ routes := by
        rw [← ih, free]
        simp
      simp [absent, eq_comm]
    · simp [SortedMap.find?_insert_of_ne _ _ same, ih, same]

theorem Registered.no_mark (h : Registered config routes r) {route : String} {target : Target}
    (hroute : (route, target) ∈ routes) : '?' ∉ route.toList := by
  induction h with
  | build built => cases hroute
  | register before added ih =>
    obtain ⟨hpath, -, -⟩ := register_cases added
    rcases List.mem_cons.1 hroute with same | hroute
    · cases same
      exact hpath
    · exact ih hroute

end Router

end IndexedTables
