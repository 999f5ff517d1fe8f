import IndexedTables.Proofs.Disks
import IndexedTables.Proofs.Overlays
/-!
Nested transactions against a stack of plain maps. A session answers every script as the stack does
in which opening a transaction copies the top map, committing one puts the top map in place of the
one below, and discarding one drops it; and what lies below all changes only with the last commit.
-/
set_option autoImplicit false

namespace IndexedTables

/-- Maps over one another, the innermost apart. -/
structure Stack where
  top : Store
  below : List Store

namespace Stack

def base (r : Stack) : Store := r.below.getLastD r.top

def begin (r : Stack) : Stack := ⟨r.top, r.top :: r.below⟩

def commit : Stack → Stack
  | ⟨top, _ :: below⟩ => ⟨top, below⟩
  | ⟨top, []⟩ => ⟨top, []⟩

def discard : Stack → Stack
  | ⟨_, map :: below⟩ => ⟨map, below⟩
  | ⟨top, []⟩ => ⟨top, []⟩

def list (map : Store) (range : KeyRange) (reverse : Bool) : List (Bytes × Bytes) :=
  let entries := if range.inverted then [] else map.entries.filter fun e => range.contains e.1
  if reverse then entries.reverse else entries

def call : (c : Call) → Stack → Except Error c.Reply × Stack
  | .get key, r => (.ok (r.top.find? key), r)
  | .has key, r => (.ok (r.top.contains key), r)
  | .set key value, r => (.ok (), { r with top := r.top.insert key value })
  | .delete key, r => (.ok (), { r with top := r.top.erase key })
  | .scan range reverse, r => (.ok ((list r.top range reverse).map .ok), r)

def perform {β : Type} (p : Program β) (r : Stack) : β × Stack :=
  ((p.run Store.handler r.top).1, { r with top := (p.run Store.handler r.top).2 })

theorem list_eq (map : Store) (range : KeyRange) (reverse : Bool) :
    list map range reverse = if reverse then (map.range range).reverse else map.range range := by
  by_cases h : range.inverted
  · simp [list, h, Overlay.range_of_inverted h]
  · simp [list, h, Store.range]

theorem call_eq (c : Call) (r : Stack) : r.call c = r.perform (.call c .done) := by
  cases c with
  | get key => rfl
  | has key => rfl
  | set key value => rfl
  | delete key => rfl
  | scan range reverse =>
    cases reverse <;> simp [call, list_eq, perform, Program.run, Store.handler, Store.answer]

end Stack

/-- Steps of nested transactions, each chosen by the answers before it. -/
inductive Script (α : Type) : Type 1 where
  | done (answer : α)
  | begin (next : Script α)
  | commit (next : Except Error Unit → Script α)
  | discard (next : Script α)
  | call (c : Call) (next : Except Error c.Reply → Script α)
  | perform {β : Type} (p : Program β) (next : β → Script α)

structure Machine (σ : Type) where
  begin : σ → σ
  commit : σ → Except Error Unit × σ
  discard : σ → σ
  call : (c : Call) → σ → Except Error c.Reply × σ
  perform : {β : Type} → Program β → σ → β × σ

def Script.run {α σ : Type} (m : Machine σ) : Script α → σ → α × σ
  | .done a, s => (a, s)
  | .begin next, s => next.run m (m.begin s)
  | .commit next, s => (next (m.commit s).1).run m (m.commit s).2
  | .discard next, s => next.run m (m.discard s)
  | .call c next, s => (next (m.call c s).1).run m (m.call c s).2
  | .perform p next, s => (next (m.perform p s).1).run m (m.perform p s).2

/-- Steps from related states answer alike and lead to related states. -/
structure Machine.Simulates {σ τ : Type} (m : Machine σ) (n : Machine τ) (R : σ → τ → Prop) :
    Prop where
  begin : ∀ s r, R s r → R (m.begin s) (n.begin r)
  commit : ∀ s r, R s r → (m.commit s).1 = (n.commit r).1 ∧ R (m.commit s).2 (n.commit r).2
  discard : ∀ s r, R s r → R (m.discard s) (n.discard r)
  call : ∀ c s r, R s r → (m.call c s).1 = (n.call c r).1 ∧ R (m.call c s).2 (n.call c r).2
  perform : ∀ {β : Type} (p : Program β) s r, R s r →
    (m.perform p s).1 = (n.perform p r).1 ∧ R (m.perform p s).2 (n.perform p r).2

theorem Script.run_of_simulates {α σ τ : Type} {m : Machine σ} {n : Machine τ}
    {R : σ → τ → Prop} (h : m.Simulates n R) (script : Script α) {s : σ} {r : τ} (hR : R s r) :
    (script.run m s).1 = (script.run n r).1 ∧ R (script.run m s).2 (script.run n r).2 := by
  induction script generalizing s r with
  | done a => exact ⟨rfl, hR⟩
  | begin next ih => exact ih (h.begin s r hR)
  | commit next ih =>
    obtain ⟨same, related⟩ := h.commit s r hR
    simpa only [run, same] using ih (n.commit r).1 related
  | discard next ih => exact ih (h.discard s r hR)
  | call c next ih =>
    obtain ⟨same, related⟩ := h.call c s r hR
    simpa only [run, same] using ih (n.call c r).1 related
  | perform p next ih =>
    obtain ⟨same, related⟩ := h.perform p s r hR
    simpa only [run, same] using ih (n.perform p r).1 related

def Stack.machine : Machine Stack where
  begin := Stack.begin
  commit r := (.ok (), r.commit)
  discard := Stack.discard
  call := Stack.call
  perform := Stack.perform

def Session.machine : Machine Session where
  begin := Session.begin
  commit := Session.commit
  discard := Session.leave
  call c := Session.perform (.call c .done)
  perform := Session.perform

theorem Fault.plan_nil : Fault.plan [] = .none := by
  have hcall : (plan []).call = FaultPlan.none.call := by
    funext n c
    cases c <;> rfl
  exact congrArg (FaultPlan.mk · FaultPlan.none.entry) hcall

namespace Overlay

def levels : List Overlay → Store → Stack
  | [], s => ⟨s, []⟩
  | o :: outer, s => ⟨o.onto (levels outer s).top, (levels outer s).top :: (levels outer s).below⟩

theorem levels_base (overlays : List Overlay) (s : Store) : (levels overlays s).base = s := by
  induction overlays with
  | nil => rfl
  | cons o outer ih => rwa [levels, Stack.base, List.getLastD_cons]

theorem levels_length (overlays : List Overlay) (s : Store) :
    (levels overlays s).below.length = overlays.length := by
  induction overlays with
  | nil => rfl
  | cons o outer ih => simp [levels, ih]

/-- A program over overlays runs on the map that is seen through them all. -/
theorem run_serveAll {α : Type} (overlays : List Overlay) (p : Program α) (s : Store) :
    ∃ overlays' s', (serveAll overlays p).run Store.handler s =
        (((p.run Store.handler (levels overlays s).top).1, overlays'), s') ∧
      levels overlays' s' =
        ⟨(p.run Store.handler (levels overlays s).top).2, (levels overlays s).below⟩ := by
  induction overlays generalizing α with
  | nil =>
    refine ⟨[], (p.run Store.handler s).2, ?_, rfl⟩
    change Program.run Store.handler (p.bind fun a => .done (a, [])) s = _
    rw [Program.run_bind]
    rfl
  | cons o outer ih =>
    -- The innermost overlay turns the program into one for the overlays around it.
    obtain ⟨o', hserve, honto⟩ := run_serve p o (levels outer s).top
    obtain ⟨outer', s', hrun, hlevels⟩ := ih (o.serve p)
    rw [hserve] at hrun hlevels
    refine ⟨o' :: outer', s', ?_, ?_⟩
    · change Program.run Store.handler ((serveAll outer (o.serve p)).bind _) s = _
      rw [Program.run_bind, hrun]
      rfl
    · simp only [levels, hlevels, honto]

theorem on_commit (o : Overlay) (s : Store) : o.commit.on s = (.ok (), o.onto s) := by
  unfold commit onto
  induction o.entries generalizing s with
  | nil => rfl
  | cons e rest ih =>
    have hwrite : (write e).on s = (.ok (), apply s e) := by
      obtain ⟨key, change⟩ := e
      cases change <;> rfl
    rw [Op.on_forM_cons, Op.on_bind_of_ok hwrite, ih, List.foldl_cons]

end Overlay

namespace Session

variable {α : Type} {s : Session}

def ofStore (base : Store) : Session := ⟨.ofStore base, [], [], .empty, []⟩

/-- The maps that the open transactions see, and the store below. -/
def stack (s : Session) : Stack := Overlay.levels s.overlays s.disk.store

theorem perform_spec (h : s.faults = []) (p : Program α) :
    (s.perform p).1 = (p.run Store.handler s.stack.top).1 ∧ (s.perform p).2.faults = [] ∧
      (s.perform p).2.stack = ⟨(p.run Store.handler s.stack.top).2, s.stack.below⟩ := by
  obtain ⟨overlays', base', hrun, hlevels⟩ := Overlay.run_serveAll s.overlays p s.disk.store
  obtain ⟨hanswer, hstore⟩ := Disk.run_none (Overlay.serveAll s.overlays p) s.disk
  rw [hrun] at hanswer hstore
  have hperform : s.perform p =
      let run := (Overlay.serveAll s.overlays p).run (Disk.handler .none) s.disk
      (run.1.1, { s with disk := run.2, overlays := run.1.2 }) := by
    rw [perform, h, Fault.plan_nil]
  rw [hperform]
  refine ⟨congrArg Prod.fst hanswer, h, ?_⟩
  simp only [stack, hstore, hanswer]
  exact hlevels

theorem stack_begin (s : Session) : s.begin.stack = s.stack.begin := rfl

theorem stack_leave (s : Session) : s.leave.stack = s.stack.discard := by
  unfold stack leave
  cases s.overlays <;> rfl

theorem commit_spec (h : s.faults = []) :
    s.commit.1 = .ok () ∧ s.commit.2.faults = [] ∧ s.commit.2.stack = s.stack.commit := by
  cases hontolays : s.overlays with
  | nil => simp [commit, stack, hontolays, h, Overlay.levels, Stack.commit]
  | cons o outer =>
    have hcommit : s.commit = s.leave.perform o.commit.run := by
      unfold commit
      rw [hontolays]
    have hleave : s.leave.stack = Overlay.levels outer s.disk.store := by
      simp [stack, leave, hontolays]
    obtain ⟨hanswer, hfaults, hstack⟩ := perform_spec (s := s.leave) h o.commit.run
    have hon := o.on_commit s.leave.stack.top
    rw [Op.on] at hon
    rw [hon] at hanswer hstack
    rw [hcommit]
    refine ⟨hanswer, hfaults, ?_⟩
    rw [hstack, hleave]
    simp [stack, hontolays, Overlay.levels, Stack.commit]

theorem machine_simulates :
    machine.Simulates Stack.machine fun s r => s.faults = [] ∧ s.stack = r where
  begin := by
    intro s _ found
    obtain ⟨h, rfl⟩ := found
    exact ⟨h, stack_begin s⟩
  commit := by
    intro s _ found
    obtain ⟨h, rfl⟩ := found
    exact commit_spec h
  discard := by
    intro s _ found
    obtain ⟨h, rfl⟩ := found
    exact ⟨h, stack_leave s⟩
  call := by
    intro c s _ found
    obtain ⟨h, rfl⟩ := found
    simp only [Stack.machine, Stack.call_eq]
    exact perform_spec h (.call c .done)
  perform := by
    intro β p s _ found
    obtain ⟨h, rfl⟩ := found
    exact perform_spec h p

def transact (op : Op α) (s : Session) : Except Error α × Session :=
  let (answer, s) := s.begin.perform op.run
  match answer with
  | .ok a =>
    let (committed, s) := s.commit
    (committed.map fun _ => a, s)
  | .error e => (.error e, s.leave)

theorem transact_of_ok (h : s.faults = []) {op : Op α} {a : α} {store : Store}
    (hop : op.on s.stack.top = (.ok a, store)) :
    ∃ s', s.transact op = (.ok a, s') ∧ s'.faults = [] ∧ s'.stack = ⟨store, s.stack.below⟩ := by
  obtain ⟨hanswer, hfaults, hstack⟩ := perform_spec (s := s.begin) h op.run
  rw [stack_begin] at hanswer hstack
  change _ = (op.on s.stack.top).1 at hanswer
  change _ = (⟨(op.on s.stack.top).2, s.stack.top :: s.stack.below⟩ : Stack) at hstack
  rw [hop] at hanswer hstack
  obtain ⟨hcommitted, hfaults', hstack'⟩ := commit_spec hfaults
  rw [hstack] at hstack'
  refine ⟨(s.begin.perform op.run).2.commit.2, ?_, hfaults', hstack'⟩
  simp only [transact, hanswer, hcommitted, Except.map]

theorem transact_of_error (h : s.faults = []) {op : Op α} {e : Error} {store : Store}
    (hop : op.on s.stack.top = (.error e, store)) :
    ∃ s', s.transact op = (.error e, s') ∧ s'.faults = [] ∧ s'.stack = s.stack := by
  obtain ⟨hanswer, hfaults, hstack⟩ := perform_spec (s := s.begin) h op.run
  rw [stack_begin] at hanswer hstack
  change _ = (op.on s.stack.top).1 at hanswer
  rw [hop] at hanswer
  refine ⟨(s.begin.perform op.run).2.leave, ?_, hfaults, ?_⟩
  · simp only [transact, hanswer]
  · rw [stack_leave, hstack]
    rfl

theorem stack_base (s : Session) : s.stack.base = s.disk.store :=
  Overlay.levels_base s.overlays s.disk.store

theorem stack_length (s : Session) : s.stack.below.length = s.overlays.length :=
  Overlay.levels_length s.overlays s.disk.store

theorem store_perform (h : s.faults = []) (hopen : s.overlays ≠ []) (p : Program α) :
    (s.perform p).2.disk.store = s.disk.store := by
  rw [← stack_base, ← stack_base, (perform_spec h p).2.2]
  have hbelow : s.stack.below ≠ [] := by
    rwa [← List.length_pos_iff, stack_length, List.length_pos_iff]
  cases hcase : s.stack.below with
  | nil => exact absurd hcase hbelow
  | cons map below => rw [Stack.base, Stack.base, hcase, List.getLastD_cons, List.getLastD_cons]

theorem store_commit (h : s.faults = []) :
    s.commit.2.disk.store = if s.overlays.length = 1 then s.stack.top else s.disk.store := by
  rw [← stack_base, ← stack_base, (commit_spec h).2.2, ← stack_length]
  obtain ⟨top, below⟩ := s.stack
  rcases below with _ | ⟨map, _ | ⟨outer, below⟩⟩ <;> simp [Stack.commit, Stack.base]

/-- The session shows what the stack holds: every program answers as on the top map, and with a
transaction open only the commit of the outermost one reaches the base. -/
structure Follows (s : Session) (r : Stack) : Prop where
  base : s.disk.store = r.base
  depth : s.overlays.length = r.below.length
  answers : ∀ (α : Type) (p : Program α), (s.perform p).1 = (p.run Store.handler r.top).1
  perform_keeps : s.overlays ≠ [] →
    ∀ (α : Type) (p : Program α), (s.perform p).2.disk.store = s.disk.store
  begin_keeps : s.begin.disk.store = s.disk.store
  discard_keeps : s.leave.disk.store = s.disk.store
  inner_commit_keeps : 1 < s.overlays.length → s.commit.2.disk.store = s.disk.store
  outer_commit : s.overlays.length = 1 → s.commit.2.disk.store = r.top

theorem follows_stack (h : s.faults = []) : s.Follows s.stack where
  base := (stack_base s).symm
  depth := (stack_length s).symm
  answers _ p := (perform_spec h p).1
  perform_keeps hopen _ p := store_perform h hopen p
  begin_keeps := rfl
  discard_keeps := rfl
  inner_commit_keeps hdeep := by rw [store_commit h, if_neg (by omega)]
  outer_commit hsole := by rw [store_commit h, if_pos hsole]

/-- Every script of nested transactions answers as on the stack of maps, and goes on showing what
the stack holds. -/
theorem transactions_follow_maps (base : Store) :
    (∀ (α : Type) (script : Script α),
      (script.run machine (ofStore base)).1 = (script.run Stack.machine ⟨base, []⟩).1) ∧
    ∀ script : Script Unit,
      Follows (script.run machine (ofStore base)).2 (script.run Stack.machine ⟨base, []⟩).2 := by
  refine ⟨fun α script => ?_, fun script => ?_⟩
  · exact (script.run_of_simulates machine_simulates ⟨rfl, rfl⟩).1
  · obtain ⟨hfaults, hstack⟩ := (script.run_of_simulates machine_simulates (s := ofStore base)
      (r := ⟨base, []⟩) ⟨rfl, rfl⟩).2
    rw [← hstack]
    exact follows_stack hfaults

end Session

end IndexedTables
