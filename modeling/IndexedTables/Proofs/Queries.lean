import IndexedTables.Proofs.Lookups
import IndexedTables.Proofs.Pages
import IndexedTables.Proofs.Requests
set_option autoImplicit false

namespace IndexedTables

variable {T : Type}

namespace Modifier

/-- The keys that are asked for. -/
def Asks : Modifier → Bytes → Prop
  | .exact key, k => k = key
  | .beginning lead, k => lead <+: k
  | .range r, k => (∀ start ∈ r.start, start ≤ k) ∧ ∀ stop ∈ r.stop, k < stop

instance : (q : Modifier) → (k : Bytes) → Decidable (q.Asks k)
  | .exact key, k => inferInstanceAs (Decidable (k = key))
  | .beginning lead, k => inferInstanceAs (Decidable (lead <+: k))
  | .range r, k => inferInstanceAs
    (Decidable ((∀ start ∈ r.start, start ≤ k) ∧ ∀ stop ∈ r.stop, k < stop))

def keyRange : Modifier → KeyRange
  | .exact key => .only key
  | .beginning lead => .beginningWith lead
  | .range r => r

theorem contains_keyRange (q : Modifier) (k : Bytes) : q.keyRange.contains k ↔ q.Asks k := by
  cases q with
  | exact key => exact KeyRange.contains_only key k
  | beginning lead => exact KeyRange.contains_beginningWith lead k
  | range r => simp [keyRange, KeyRange.contains_iff, Asks]

def inverted : Modifier → Bool
  | .range r => r.inverted
  | _ => false

/-- Asks for what can be scanned: no empty key and no inverted range. -/
structure Sound (q : Modifier) : Prop where
  nonempty : ∀ key, q = .exact key → key ≠ []
  upright : q.inverted = false

theorem Reads.sound {modifier : Option String} {payload : Bytes} {q : Modifier}
    (h : Reads modifier payload q) (upright : q.inverted = false) : q.Sound := by
  refine ⟨?_, upright⟩
  rintro key rfl
  cases h with
  | exact _ nonempty => exact nonempty

/-- The answer to a request that asks for these rows, at most `cap` of which are shown. The error of
a row that cannot be had is the answer, unless more rows stand before it than are looked at. -/
inductive Answers (q : Modifier) (cap : Nat) (found : List (Except Error (Row Json))) :
    Except Error Bytes → Prop where
  | failed {before : List (Row Json)} {e : Error} {after : List (Except Error (Row Json))}
      (first : found.take (cap + 1) = before.map .ok ++ .error e :: after) :
      Answers q cap found (.error e)
  | missing {key : Bytes} (exact : q = .exact key) (nothing : found = []) :
      Answers q cap found (.error .notFound)
  | rows {rows : List (Row Json)} (all : found.take (cap + 1) = rows.map .ok)
      (allowed : found = [] → ∀ key, q ≠ .exact key) :
      Answers q cap found <| .ok <| Json.render <| .ofFields [
        ("data", .array ((rows.take cap).map fun row =>
          .ofFields [("key", .ofBytes row.id.bytes), ("value", row.value.sortFields)])),
        ("has_more", .bool (cap < found.length))]

theorem Answers.unique {q : Modifier} {cap : Nat} {found : List (Except Error (Row Json))}
    {answer other : Except Error Bytes} (h : q.Answers cap found answer)
    (h' : q.Answers cap found other) : answer = other := by
  cases h with
  | failed first =>
    cases h' with
    | failed first' =>
      exact congrArg Except.error (first_failure_unique (first.symm.trans first'))
    | missing exact nothing => simp [nothing] at first
    | rows all => exact absurd (all.symm.trans first) (rows_ne_failure _ _)
  | missing exact nothing =>
    cases h' with
    | failed first => simp [nothing] at first
    | missing => rfl
    | rows all allowed => exact absurd exact (allowed nothing _)
  | rows all allowed =>
    cases h' with
    | failed first => exact absurd (all.symm.trans first) (rows_ne_failure _ _)
    | missing exact nothing => exact absurd exact (allowed nothing _)
    | rows all' =>
      have same := List.map_injective_iff.2 (fun _ _ => Except.ok.inj) (all.symm.trans all')
      rw [same]

end Modifier

def Store.asked (m : Store) (q : Modifier) : List (Bytes × Bytes) :=
  m.entries.filter fun e => q.Asks e.1

def Rows.shown (rows : Rows T) (id : RowId) (stored : Bytes) : Except Error (Row Json) := do
  let value ← rows.codec.unmarshal stored
  return ⟨id, ← rows.codec.toJson value⟩

/-- The rows of a table that are asked for. -/
def Table.found (t : Table T) (s : Store) (q : Modifier) : List (Except Error (Row Json)) :=
  ((s.part t.space).asked q).map fun (id, stored) => t.shown ⟨id⟩ stored

def UniqueIndex.found (ix : UniqueIndex T) (s : Store) (q : Modifier) :
    List (Except Error (Row Json)) :=
  ((s.part ix.space).asked q).map fun (_, id) =>
    match (s.part ix.rows.space).find? id with
    | some stored => ix.rows.shown ⟨id⟩ stored
    | none => .error .notFound

/-- The target finds these rows, and refuses an inverted range. -/
structure Target.Finds (target : Target) (s : Store)
    (found : Modifier → List (Except Error (Row Json))) : Prop where
  select : ∀ q, q.Sound → ∃ cursor, (target.select q).on s = (.ok cursor, s) ∧
    cursor.Yields s (found q)
  refuses : ∀ q, Modifier.inverted q → (target.select q).on s = (.error .emptyRange, s)

theorem Store.range_keyRange (m : Store) (q : Modifier) : m.range q.keyRange = m.asked q := by
  refine List.filter_congr fun e _ => ?_
  rw [Bool.eq_iff_iff, Modifier.contains_keyRange, decide_eq_true_iff]

theorem Modifier.inverted_keyRange (q : Modifier) : q.keyRange.inverted = q.inverted := by
  cases q with
  | exact key =>
    have hlt : key < key ++ [0] := Bytes.lt_append key (by simp)
    simp [keyRange, KeyRange.only, KeyRange.inverted, inverted, hlt]
  | beginning lead => exact MultiKeyIndex.beginningWith_not_inverted lead
  | range r => rfl

theorem Rows.on_get (rows : Rows T) (id : RowId) (s : Store) :
    (rows.get id).on s = (match (s.part rows.space).find? id.bytes with
      | some stored => rows.codec.unmarshal stored
      | none => .error .notFound, s) := by
  have hread : ((Op.get id.bytes).inSpace rows.space).on s =
      (.ok ((s.part rows.space).find? id.bytes), s) := Op.on_inSpace_of_reads (by simp)
  rw [get, Op.on_bind_of_ok hread]
  cases (s.part rows.space).find? id.bytes with
  | none => rfl
  | some stored => exact Op.on_lift _ s

theorem Rows.on_shown (rows : Rows T) {id : RowId} {stored : Bytes} {s : Store} {load : Op T}
    (h : load.on s = (rows.codec.unmarshal stored, s)) :
    (do
      let row ← (do return ⟨id, ← load⟩ : Op (Row T))
      return ⟨row.id, ← rows.codec.toJson row.value⟩ : Op (Row Json)).on s =
      (rows.shown id stored, s) := by
  unfold shown
  cases hvalue : rows.codec.unmarshal stored with
  | error e =>
    rw [hvalue] at h
    exact Op.on_bind_of_error (Op.on_bind_of_error h _) _
  | ok value =>
    rw [hvalue] at h
    rw [Op.on_bind_of_ok (Op.on_bind_of_ok h _), Op.on_bind, Op.on_lift]
    change _ = ((do return ⟨id, ← rows.codec.toJson value⟩ : Except Error (Row Json)), s)
    cases rows.codec.toJson value <;> rfl

theorem Target.finds_of_scan {target : Target} {space : Space} (load : Item → Op (Row T))
    (toJson : T → Except Error Json) {s : Store} {shown : Bytes × Bytes → Except Error (Row Json)}
    (hselect : ∀ q, (∀ key, q = .exact key → key ≠ []) → target.select q = (do
      q.keyRange.check
      let items ← (Op.scan q.keyRange false).inSpace space
      return Cursor.mapValues toJson (items.map load)))
    (hload : ∀ e, (do
      let row ← load (.ok e)
      return ⟨row.id, ← toJson row.value⟩ : Op (Row Json)).on s = (shown e, s)) :
    target.Finds s fun q => ((s.part space).asked q).map shown := by
  constructor
  · intro q sound
    have hcheck := KeyRange.check_of_not_inverted (q.inverted_keyRange.trans sound.upright)
    refine ⟨_, ?_, Cursor.yields_map _ fun e _ => hload e⟩
    rw [hselect q sound.nonempty, hcheck, Op.on_bind_of_ok (Op.on_lift _ s),
      Op.on_bind_of_ok (Op.on_scan_inSpace space _ false s), ← Store.range_keyRange, Op.on_pure]
    simp only [Cursor.mapValues, List.map_map]
    rfl
  · intro q hq
    have hcheck := KeyRange.check_of_inverted (q.inverted_keyRange.trans hq)
    have nonempty : ∀ key, q = .exact key → key ≠ [] := by
      rintro key rfl
      cases hq
    rw [hselect q nonempty, hcheck]
    rfl

theorem Table.finds (t : Table T) (s : Store) : t.target.Finds s (t.found s) := by
  refine Target.finds_of_scan (fun item => liftM (t.ofItem item)) t.codec.toJson
    (fun q _ => ?_) fun e => ?_
  · have hselect : t.target.select q = (do
        let cursor ← t.scan q.keyRange false
        return cursor.mapValues t.codec.toJson) := by cases q <;> rfl
    simp only [hselect, scan, bind_assoc, pure_bind]
  · have hitem : (liftM (t.ofItem (.ok e)) : Op (Row T)) = (do
        return ⟨⟨e.1⟩, ← liftM (t.codec.unmarshal e.2)⟩) := by
      change liftM (do return ⟨⟨e.1⟩, ← t.codec.unmarshal e.2⟩ : Except Error (Row T)) = _
      cases t.codec.unmarshal e.2 <;> rfl
    rw [hitem]
    exact t.on_shown (Op.on_lift _ s)

theorem UniqueIndex.get_eq_scan (ix : UniqueIndex T) {key : Bytes} (h : key ≠ []) :
    ix.get key = ix.scan (.only key) false := by
  have hcheck : (KeyRange.only key).check = .ok () := if_neg (by
    rw [Bool.not_eq_true]
    exact (Modifier.exact key).inverted_keyRange)
  rw [get, scan, hcheck, MultiKeyIndex.checkIndexKey_of_ne h]

theorem UniqueIndex.finds (ix : UniqueIndex T) (s : Store) : ix.target.Finds s (ix.found s) := by
  refine Target.finds_of_scan ix.load ix.rows.codec.toJson (fun q nonempty => ?_) fun e => ?_
  · have hselect : ix.target.select q = (do
        let cursor ← ix.scan q.keyRange false
        return cursor.mapValues ix.rows.codec.toJson) := by
      cases q with
      | exact key =>
        change (do
          let cursor ← ix.get key
          return cursor.mapValues ix.rows.codec.toJson) = _
        rw [ix.get_eq_scan (nonempty key rfl)]
        rfl
      | beginning lead => rfl
      | range r => rfl
    simp only [hselect, scan, bind_assoc, pure_bind]
  · have hget := ix.rows.on_get ⟨e.2⟩ s
    cases hstored : (s.part ix.rows.space).find? e.2 with
    | none =>
      simp only [hstored] at hget ⊢
      exact Op.on_bind_of_error (Op.on_bind_of_error hget _) _
    | some stored =>
      simp only [hstored] at hget ⊢
      exact ix.rows.on_shown hget

def Modifier.admit (q : Modifier) (page : Page Json) : Op (Page Json) :=
  match q, page.rows with
  | .exact _, [] => throw .notFound
  | _, _ => return page

namespace Target

variable {target : Target} {s : Store} {q : Modifier} {cap : Nat}

def page (target : Target) (q : Modifier) (cap : Nat) : Op (Page Json) := do
  let cursor ← target.select q
  q.admit (← cursor.page cap)

theorem page_cases {cursor : Cursor Json} {page : Page Json}
    (hselect : (target.select q).on s = (.ok cursor, s))
    (hpage : (cursor.page cap).on s = (.ok page, s)) :
    (∃ key, q = .exact key ∧ page.rows = [] ∧ (target.page q cap).on s = (.error .notFound, s)) ∨
      (page.rows = [] → ∀ key, q ≠ .exact key) ∧ (target.page q cap).on s = (.ok page, s) := by
  rw [Target.page, Op.on_bind_of_ok hselect, Op.on_bind_of_ok hpage]
  unfold Modifier.admit
  split
  · next key hrows => exact .inl ⟨key, rfl, hrows, rfl⟩
  · next allowed => exact .inr ⟨fun hrows key same => allowed key same hrows, rfl⟩

theorem Finds.exists_answer {found : Modifier → List (Except Error (Row Json))}
    (finds : target.Finds s found) (sound : q.Sound) (hcap : cap ≠ 0) :
    ∃ answer, (do return (Router.envelope (← target.page q cap)).render : Op Bytes).on s =
      (answer, s) ∧ q.Answers cap (found q) answer := by
  obtain ⟨cursor, hselect, yields⟩ := finds.select q sound
  rcases rows_or_failure ((found q).take (cap + 1)) with ⟨rows, hrows⟩ | ⟨rows, e, after, hrows⟩
  · have hempty : rows.take cap = [] ↔ found q = [] := by
      rw [List.take_eq_nil_iff, or_iff_right hcap, ← List.map_eq_nil_iff, ← hrows,
        List.take_eq_nil_iff, or_iff_right (Nat.succ_ne_zero cap)]
    -- One row more than the cap was looked at, which tells whether there are more.
    have hmore : (rows[cap]?.map (·.id)).isSome = decide (cap < (found q).length) := by
      have hlength := congrArg List.length hrows
      rw [List.length_take, List.length_map] at hlength
      rw [Option.isSome_map, Bool.eq_iff_iff, decide_eq_true_iff]
      simp only [isSome_getElem?]
      omega
    rcases page_cases hselect (yields.on_page hrows) with
      ⟨key, rfl, hnone, hrun⟩ | ⟨allowed, hrun⟩
    · exact ⟨_, Op.on_bind_of_error hrun _, .missing rfl (hempty.1 hnone)⟩
    · refine ⟨_, Op.on_bind_of_ok hrun _, ?_⟩
      have answers := Modifier.Answers.rows hrows fun nothing => allowed (hempty.2 nothing)
      rwa [← hmore] at answers
  · have hrun : (target.page q cap).on s = (.error e, s) :=
      (Op.on_bind_of_ok hselect _).trans
        (Op.on_bind_of_error (yields.on_page_of_failure hrows) _)
    exact ⟨.error e, Op.on_bind_of_error hrun _, .failed hrows⟩

end Target

namespace Router

/-- How requests to a route are answered. -/
structure Serves (r : Router) (cap : Nat) (s : Store) (route : String)
    (found : Modifier → List (Except Error (Row Json))) : Prop where
  answered : ∀ modifier payload q, Modifier.Reads modifier payload q → q.inverted = false →
    ∃ answer, (r.handle (pathOf route modifier) payload).on s = (answer, s) ∧
      ∀ other, q.Answers cap (found q) other ↔ other = answer
  inverted : ∀ modifier payload q, Modifier.Reads modifier payload q → q.inverted →
    (r.handle (pathOf route modifier) payload).on s = (.error .emptyRange, s)
  refused : ∀ modifier payload, (∀ q, ¬ Modifier.Reads modifier payload q) →
    (r.handle (pathOf route modifier) payload).Invalid s

variable {config : Config} {routes : List (String × Target)} {r : Router} {s : Store}

theorem select_of_unknown {route : String} (hroute : '?' ∉ route.toList)
    (unknown : r.routes.find? route = none) (modifier : Option String) (payload : Bytes) :
    r.select (pathOf route modifier) payload = throw (.unknownRoute route) := by
  unfold select
  rw [splitPath_pathOf hroute]
  simp only [unknown]

theorem select_of_route {route : String} (hroute : '?' ∉ route.toList) {target : Target}
    (found : r.routes.find? route = some target) (modifier : Option String) (payload : Bytes) :
    r.select (pathOf route modifier) payload = (do
      let q ← Modifier.parse modifier payload
      target.page q r.maxRows) := by
  unfold select
  rw [splitPath_pathOf hroute]
  dsimp only
  split
  · next absent =>
    rw [found] at absent
    cases absent
  · next other hother =>
    cases found.symm.trans hother
    rfl

theorem serves_of_finds (h : Registered config routes r) {route : String} {target : Target}
    (hroute : (route, target) ∈ routes) {found : Modifier → List (Except Error (Row Json))}
    (finds : target.Finds s found) : r.Serves config.maxQueryResult s route found := by
  obtain ⟨hmax, hcap⟩ := h.maxRows
  have hselect := select_of_route (h.no_mark hroute) (h.find?_eq_some_iff.2 hroute)
  constructor
  · intro modifier payload q reads upright
    rw [← hmax] at hcap ⊢
    rw [handle, hselect, reads.parse]
    obtain ⟨answer, hrun, answers⟩ := finds.exists_answer (reads.sound upright) hcap
    refine ⟨answer, hrun, fun other => ⟨fun h => h.unique answers, ?_⟩⟩
    rintro rfl
    exact answers
  · intro modifier payload q reads hinverted
    rw [handle, hselect, reads.parse]
    exact Op.on_bind_of_error (Op.on_bind_of_error (finds.refuses q hinverted) _) _
  · intro modifier payload unread
    rw [handle, hselect]
    cases hparse : Modifier.parse modifier payload with
    | ok q => exact absurd (Modifier.reads_of_parse hparse) (unread q)
    | error e => exact ⟨e, rfl, Modifier.kind_of_parse hparse⟩

/-- Every path asks one route, with a modifier or without, and the text of a range asks for that
range. A route that was not registered is unknown; that of a table or of an index with one row under
a key is served with what is found there. -/
theorem requests_answered (h : Registered config routes r) (s : Store) :
    (∀ path, ∃ route modifier, '?' ∉ route.toList ∧ path = pathOf route modifier) ∧
    (∀ range : KeyRange, Modifier.Reads (some "range") range.toJson.render (.range range)) ∧
    (∀ route modifier payload, '?' ∉ route.toList → route ∉ routes.map (·.1) →
      (r.handle (pathOf route modifier) payload).on s = (.error (.unknownRoute route), s)) ∧
    (∀ (T : Type) (t : Table T) route, (route, t.target) ∈ routes →
      r.Serves config.maxQueryResult s route (t.found s)) ∧
    ∀ (T : Type) (ix : UniqueIndex T) route, (route, ix.target) ∈ routes →
      r.Serves config.maxQueryResult s route (ix.found s) := by
  refine ⟨exists_pathOf, Modifier.reads_toJson, ?_, ?_, ?_⟩
  · intro route modifier payload hroute unknown
    have absent : r.routes.find? route = none := by
      cases hfind : r.routes.find? route with
      | none => rfl
      | some target =>
        exact absurd (List.mem_map_of_mem (h.find?_eq_some_iff.1 hfind)) unknown
    rw [handle, select_of_unknown hroute absent]
    rfl
  · exact fun T t route hroute => serves_of_finds h hroute (t.finds s)
  · exact fun T ix route hroute => serves_of_finds h hroute (ix.finds s)

end Router

def oneAtATime : Config := { maxQueryResult := 1 }

def initialIndex : UniqueIndex Bytes := ⟨initials.space, words.toRows⟩

def wordRoutes : List (String × Target) :=
  [("/initials", initialIndex.target), ("/words", words.target)]

def wordRouter : Router :=
  ⟨(SortedMap.empty.insert "/words" words.target).insert "/initials" initialIndex.target, 1⟩

theorem wordRouter_registered : Router.Registered oneAtATime wordRoutes wordRouter :=
  .register (.register (.build rfl) rfl) rfl

def twoWords : Store := ((words.create ⟨[2]⟩ [0x62]).on ((words.create ⟨[1]⟩ [0x61]).on .empty).2).2

theorem wordRouter_serves :
    Router.Registered oneAtATime wordRoutes wordRouter ∧
      '?' ∉ "/letters".toList ∧ "/letters" ∉ wordRoutes.map (·.1) ∧
      ("/words", words.target) ∈ wordRoutes ∧ ("/initials", initialIndex.target) ∈ wordRoutes ∧
      (wordRouter.handle (pathOf "/letters" (some "prefix?")) [0x61]).on twoWords =
        (.error (.unknownRoute "/letters"), twoWords) ∧
      wordRouter.Serves 1 twoWords "/words" (words.found twoWords) ∧
      Modifier.Reads (some "range") [] (.range .all) ∧ Modifier.inverted (.range .all) = false ∧
      ∃ answer, (wordRouter.handle (pathOf "/initials" (some "range")) []).on twoWords =
        (answer, twoWords) ∧
        ∀ other, Modifier.Answers (.range .all) 1
          (initialIndex.found twoWords (.range .all)) other ↔ other = answer := by
  have hwords : ("/words", words.target) ∈ wordRoutes := by simp [wordRoutes]
  have hinitials : ("/initials", initialIndex.target) ∈ wordRoutes := by simp [wordRoutes]
  obtain ⟨-, -, unknown, tables, indexes⟩ :=
    Router.requests_answered wordRouter_registered twoWords
  exact ⟨wordRouter_registered, by decide, by decide, hwords, hinitials,
    unknown _ _ _ (by decide) (by decide), tables Bytes words _ hwords, .everything, rfl,
    (indexes Bytes initialIndex _ hinitials).answered _ _ _ .everything rfl⟩

/-- A request for a key under which there is nothing and one for an inverted range are refused, not
answered without rows. -/
theorem nothing_found_refused :
    Router.Registered oneAtATime wordRoutes wordRouter ∧ ("/words", words.target) ∈ wordRoutes ∧
      Modifier.Reads none [0x61] (.exact [0x61]) ∧ words.found .empty (.exact [0x61]) = [] ∧
      (wordRouter.handle (pathOf "/words" none) [0x61]).on .empty = (.error .notFound, .empty) ∧
      Modifier.Reads (some "range") (KeyRange.toJson ⟨some [2], some [1]⟩).render
        (.range ⟨some [2], some [1]⟩) ∧ words.found .empty (.range ⟨some [2], some [1]⟩) = [] ∧
      (wordRouter.handle (pathOf "/words" (some "range"))
        (KeyRange.toJson ⟨some [2], some [1]⟩).render).on .empty =
        (.error .emptyRange, .empty) := by
  have hexact : Modifier.Reads none [0x61] (.exact [0x61]) := .exact (.inl rfl) (by simp)
  have hrange := Modifier.reads_toJson ⟨some [2], some [1]⟩
  have hroute : wordRouter.routes.find? "/words" = some words.target := rfl
  refine ⟨wordRouter_registered, by simp [wordRoutes], hexact, rfl, ?_, hrange, rfl, ?_⟩
  · rw [Router.handle, Router.select_of_route (by decide) hroute, hexact.parse]
    rfl
  · rw [Router.handle, Router.select_of_route (by decide) hroute, hrange.parse]
    rfl

end IndexedTables
