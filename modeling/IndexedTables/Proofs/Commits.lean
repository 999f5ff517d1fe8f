import IndexedTables.Proofs.SaveWrites
import IndexedTables.Proofs.Transactions
set_option autoImplicit false

namespace IndexedTables

namespace Write

def call : Write → Call
  | set key value => .set key value
  | delete key => .delete key

def op : Write → Op Unit
  | set key value => Op.set key value
  | delete key => Op.delete key

def change : Write → Change
  | set _ value => .put value
  | delete _ => .remove

def ofEntry : Bytes × Change → Write
  | (key, .put value) => .set key value
  | (key, .remove) => .delete key

/-- The last of the writes to a key. -/
def last? (ws : List Write) (key : Bytes) : Option Write :=
  (ws.filter fun w => w.key = key).getLast?

@[simp] theorem ofEntry_entry (w : Write) : ofEntry (w.key, w.change) = w := by
  cases w <;> rfl

@[simp] theorem key_ofEntry (e : Bytes × Change) : (ofEntry e).key = e.1 := by
  obtain ⟨key, change⟩ := e
  cases change <;> rfl

@[simp] theorem change_ofEntry (e : Bytes × Change) : (ofEntry e).change = e.2 := by
  obtain ⟨key, change⟩ := e
  cases change <;> rfl

theorem op_ofEntry (e : Bytes × Change) : (ofEntry e).op = Overlay.write e := by
  obtain ⟨key, change⟩ := e
  cases change <;> rfl

end Write

def Store.write (s : Store) : Write → Store
  | .set key value => s.insert key value
  | .delete key => s.erase key

theorem Store.answer_of_write {c : Call} {w : Write} (h : c.write? = some w) (s : Store) :
    (s.answer c).2 = s.write w := by
  cases c <;> cases h <;> rfl

variable {α β σ : Type}

namespace Program

def issued (h : Handler σ) : Program α → σ → List Call
  | .done _, _ => []
  | .tell line next, s => next.issued h (h.hear line s)
  | .call c next, s => c :: (next (h.answer c s).1).issued h (h.answer c s).2

theorem issued_bind (h : Handler σ) (p : Program α) (f : α → Program β) (s : σ) :
    (p.bind f).issued h s =
      p.issued h s ++ (f (p.run h s).1).issued h (p.run h s).2 := by
  induction p generalizing s with
  | done a => rfl
  | tell line next ih => exact ih _
  | call c next ih => exact congrArg (c :: ·) (ih _ _)

/-- The writes among the calls that a program makes. -/
def asked (h : Handler σ) (p : Program α) (s : σ) : List Write :=
  (p.issued h s).filterMap Call.write?

theorem asked_call (h : Handler σ) (c : Call) (next : Except Error c.Reply → Program α) (s : σ) :
    (Program.call c next).asked h s =
      c.write?.toList ++ (next (h.answer c s).1).asked h (h.answer c s).2 := by
  rw [asked, issued, List.filterMap_cons]
  cases c.write? <;> rfl

theorem ReadsTo.issued {P : α → Prop} {p : Program α} (reads : p.ReadsTo P) (h : Handler σ)
    (s : σ) : ∀ c ∈ p.issued h s, c.write? = none := by
  induction p generalizing s with
  | done a => simp [Program.issued]
  | tell line next ih => exact ih reads _
  | call c next ih => exact List.forall_mem_cons.2 ⟨reads.1, ih _ (reads.2 _) _⟩

end Program

namespace Handler

def make (h : Handler σ) (w : Write) (s : σ) : Except Error Unit × σ := w.op.run.run h s

inductive Accepts (h : Handler σ) : List Write → σ → σ → Prop where
  | nil (s : σ) : h.Accepts [] s s
  | cons {w : Write} {ws : List Write} {s s₁ s₂ : σ} (first : h.make w s = (.ok (), s₁))
      (rest : h.Accepts ws s₁ s₂) : h.Accepts (w :: ws) s s₂

end Handler

/-- What answers calls from a map of entries, and may fail any. A write that succeeds is made on the
map; nothing else changes it. -/
structure Backing (σ : Type) extends Handler σ where
  contents : σ → Store
  made : ∀ {c w reply s s'}, c.write? = some w → answer c s = (.ok reply, s') →
    contents s' = (contents s).write w
  refused : ∀ {c e s s'}, answer c s = (.error e, s') → contents s' = contents s
  read : ∀ {c}, c.write? = none → ∀ s, contents (answer c s).2 = contents s
  told : ∀ line s, contents (hear line s) = contents s

namespace Backing

theorem contents_of_make (b : Backing σ) {w : Write} {s s' : σ}
    (h : b.make w s = (.ok (), s')) : b.contents s' = (b.contents s).write w := by
  cases w with
  | set key value => exact @b.made (.set key value) _ _ _ _ rfl h
  | delete key => exact @b.made (.delete key) _ _ _ _ rfl h

theorem contents_of_not_make (b : Backing σ) {w : Write} {e : Error} {s s' : σ}
    (h : b.make w s = (.error e, s')) : b.contents s' = b.contents s := by
  cases w with
  | set key value => exact @b.refused (.set key value) _ _ _ h
  | delete key => exact @b.refused (.delete key) _ _ _ h

theorem contents_of_readsTo (b : Backing σ) {P : α → Prop} {p : Program α} (h : p.ReadsTo P)
    (s : σ) : b.contents (p.run b.toHandler s).2 = b.contents s :=
  h.keeps (f := b.contents) b.read b.told s

end Backing

theorem Disk.answer_cases (plan : FaultPlan) (c : Call) (d : Disk) :
    (∃ e, (answer plan c d).1 = .error e ∧ (answer plan c d).2.store = d.store) ∨
      ∃ reply, (answer plan c d).1 = .ok reply ∧
        (answer plan c d).2.store = (d.store.answer c).2 := by
  cases hfault : plan.call d.calls c with
  | some e =>
    rw [answer_of_fault hfault]
    exact .inl ⟨e, rfl, rfl⟩
  | none =>
    rw [answer_of_sound hfault]
    refine .inr ?_
    cases c with
    | scan range reverse => cases reverse <;> exact ⟨_, rfl, rfl⟩
    | _ => exact ⟨_, rfl, rfl⟩

def Backing.disk (plan : FaultPlan) : Backing Disk where
  toHandler := Disk.handler plan
  contents := Disk.store
  made := by
    intro c w reply d d' hwrite h
    rcases Disk.answer_cases plan c d with ⟨e, herror, -⟩ | ⟨reply', -, hstore⟩
    · exact nomatch herror.symm.trans (congrArg Prod.fst h)
    · rw [← Store.answer_of_write hwrite, ← hstore]
      exact congrArg (fun run => run.2.store) h.symm
  refused := by
    intro c e d d' h
    rcases Disk.answer_cases plan c d with ⟨e', -, hstore⟩ | ⟨reply, hok, -⟩
    · rw [← hstore]
      exact congrArg (fun run => run.2.store) h.symm
    · exact nomatch hok.symm.trans (congrArg Prod.fst h)
  read := by
    intro c hread d
    rcases Disk.answer_cases plan c d with ⟨e, -, hstore⟩ | ⟨reply, -, hstore⟩
    · exact hstore
    · exact hstore.trans (Program.answer_of_read hread d.store)
  told _ _ := rfl

theorem Disk.answer_of_read {c : Call} (h : c.write? = none) (plan : FaultPlan) (d : Disk) :
    ((answer plan c d).2.store, (answer plan c d).2.writes) = (d.store, d.writes) := by
  refine Prod.ext ((Backing.disk plan).read h d) ?_
  cases hfault : plan.call d.calls c with
  | some e => rw [answer_of_fault hfault]
  | none =>
    rw [answer_of_sound hfault, (answer_none c d).2, h]
    exact List.append_nil _

namespace Overlay

def handler (h : Handler σ) : Handler (Overlay × σ) where
  answer c s :=
    let ((reply, o), below) := (serve (.call c .done) s.1).run h s.2
    (reply, (o, below))
  hear line s := (s.1, h.hear line s.2)

/-- To serve a program is to run it on the store with the overlay over it. -/
theorem run_serve_eq (h : Handler σ) (p : Program α) (o : Overlay) (s : σ) :
    (serve p o).run h s = (((p.run (handler h) (o, s)).1, (p.run (handler h) (o, s)).2.1),
      (p.run (handler h) (o, s)).2.2) := by
  induction p generalizing o s with
  | done a => rfl
  | tell line next ih => exact ih o _
  | call c next ih =>
    rw [serve_call, Program.run_bind, ih]
    rfl

def keep (o : Overlay) (ws : List Write) : Overlay :=
  ws.foldl (fun o w => o.insert w.key w.change) o

theorem keep_append (o : Overlay) (ws ws' : List Write) :
    o.keep (ws ++ ws') = (o.keep ws).keep ws' := List.foldl_append ..

theorem answered_eq (o : Overlay) (c : Call) : o.answered c = o.keep c.write?.toList := by
  cases c <;> rfl

theorem onto_of_read (b : Backing σ) {c : Call} (h : c.write? = none) (s : Overlay × σ) :
    let s' := ((handler b.toHandler).answer c s).2
    s'.1.onto (b.contents s'.2) = s.1.onto (b.contents s.2) := by
  intro s'
  have served := readsTo_serve_call c s.1
  have hkept : s'.1 = s.1 := (served.answer b.toHandler s.2).trans (answered_of_read h s.1)
  have hbelow : b.contents s'.2 = b.contents s.2 := b.contents_of_readsTo served s.2
  rw [hkept, hbelow]

end Overlay

/-- What is seen through an overlay may have another one over it, and take its commit. -/
def Backing.overlaid (b : Backing σ) : Backing (Overlay × σ) where
  toHandler := Overlay.handler b.toHandler
  contents s := s.1.onto (b.contents s.2)
  made := by
    intro c w reply s s' hwrite h
    cases c with
    | set key value =>
      cases hwrite
      cases h
      exact s.1.onto_insert (b.contents s.2) key (.put value)
    | delete key =>
      cases hwrite
      cases h
      exact s.1.onto_insert (b.contents s.2) key .remove
    | get key => cases hwrite
    | has key => cases hwrite
    | scan range reverse => cases hwrite
  refused := by
    intro c e s s' h
    cases hwrite : c.write? with
    | none =>
      have hread := Overlay.onto_of_read b hwrite s
      rwa [h] at hread
    | some w => cases c <;> cases hwrite <;> cases h
  read := Overlay.onto_of_read b
  told line s := congrArg s.1.onto (b.told line s.2)

namespace Overlay

theorem overlay_of_run (h : Handler σ) (p : Program α) (o : Overlay) (s : σ) :
    (p.run (handler h) (o, s)).2.1 = o.keep (p.asked (handler h) (o, s)) := by
  induction p generalizing o s with
  | done a => rfl
  | tell line next ih => exact ih o _
  | call c next ih =>
    -- The overlay changes with the call, not with what the store below replies.
    have hkept : ((handler h).answer c (o, s)).2.1 = o.answered c :=
      (readsTo_serve_call c o).answer h s
    rw [Program.asked_call, keep_append, ← answered_eq, ← hkept]
    exact ih _ _ _

theorem asked_forM (h : Handler σ) (ws : List Write) (o : Overlay) (s : σ) :
    (ws.forM Write.op).run.asked (handler h) (o, s) = ws := by
  induction ws generalizing o with
  | nil => rfl
  | cons w ws ih => cases w <;> exact congrArg (List.cons _) (ih _)

def writes (o : Overlay) : List Write := o.entries.map Write.ofEntry

theorem ascending_writes (o : Overlay) : o.writes.Pairwise fun w w' => w.key < w'.key :=
  List.pairwise_map.2 (o.ascending.imp fun below => by simpa using below)

theorem keep_empty (ws : List Write) :
    keep .empty ws = .ofList (ws.map fun w => (w.key, w.change)) := by
  rw [keep, SortedMap.ofList, List.foldl_map]

theorem mem_writes_keep {ws : List Write} {w : Write} :
    w ∈ (keep .empty ws).writes ↔ Write.last? ws w.key = some w := by
  have hentry : w ∈ (keep .empty ws).writes ↔ (w.key, w.change) ∈ (keep .empty ws).entries := by
    constructor
    · intro h
      obtain ⟨e, he, rfl⟩ := List.mem_map.1 h
      simpa using he
    · intro h
      exact List.mem_map.2 ⟨_, h, w.ofEntry_entry⟩
  rw [hentry, ← SortedMap.find?_eq_some_iff, keep_empty, SortedMap.find?_ofList,
    SortedMap.lastValue, List.filter_map, List.getLast?_map, Option.map_map]
  change (Write.last? ws w.key).map Write.change = some w.change ↔ _
  constructor
  · intro h
    obtain ⟨w', hlast, hchange⟩ := Option.map_eq_some_iff.1 h
    have hkey : w'.key = w.key := by simpa using (List.mem_filter.1 (List.mem_of_getLast? hlast)).2
    rw [hlast, ← w.ofEntry_entry, ← w'.ofEntry_entry, hkey, hchange]
  · intro h
    rw [h]
    rfl

end Overlay

namespace Handler

variable {h : Handler σ} {w : Write} {s s₁ : σ}

theorem issued_make (h : Handler σ) (w : Write) (s : σ) : w.op.run.issued h s = [w.call] := by
  cases w <;> rfl

theorem run_of_make (hmake : h.make w s = (.ok (), s₁)) (op : Op Unit) :
    (w.op >>= fun _ => op).run.run h s = op.run.run h s₁ ∧
      (w.op >>= fun _ => op).run.issued h s = w.call :: op.run.issued h s₁ := by
  have hbind : (w.op >>= fun _ => op).run = w.op.run.bind (ExceptT.bindCont fun _ => op) := rfl
  have hrun : w.op.run.run h s = (.ok (), s₁) := hmake
  rw [hbind, Program.run_bind, Program.issued_bind, issued_make, hrun]
  exact ⟨rfl, rfl⟩

theorem run_of_not_make {e : Error} (hmake : h.make w s = (.error e, s₁)) (op : Op Unit) :
    (w.op >>= fun _ => op).run.run h s = (.error e, s₁) ∧
      (w.op >>= fun _ => op).run.issued h s = [w.call] := by
  have hbind : (w.op >>= fun _ => op).run = w.op.run.bind (ExceptT.bindCont fun _ => op) := rfl
  have hrun : w.op.run.run h s = (.error e, s₁) := hmake
  rw [hbind, Program.run_bind, Program.issued_bind, issued_make, hrun]
  exact ⟨rfl, rfl⟩

end Handler

namespace Backing

theorem contents_of_accepts (b : Backing σ) {ws : List Write} {s s' : σ} (h : b.Accepts ws s s') :
    b.contents s' = ws.foldl Store.write (b.contents s) := by
  induction h with
  | nil s => rfl
  | cons first rest ih => rw [ih, b.contents_of_make first, List.foldl_cons]

/-- What becomes of writes that an operation makes in turn: all of them are made, one call for each,
or those before the first that fails, which is called too and whose error is answered. -/
inductive InTurn (b : Backing σ) (op : Op Unit) (ws : List Write) (s : σ) : Prop where
  | all {s' : σ} (accepted : b.Accepts ws s s')
      (answer : op.run.run b.toHandler s = (.ok (), s'))
      (issued : op.run.issued b.toHandler s = ws.map Write.call)
      (contents : b.contents s' = ws.foldl Store.write (b.contents s))
  | cut {before after : List Write} {w : Write} {e : Error} {s₁ s' : σ}
      (split : ws = before ++ w :: after)
      (accepted : b.Accepts before s s₁)
      (failed : b.make w s₁ = (.error e, s'))
      (answer : op.run.run b.toHandler s = (.error e, s'))
      (issued : op.run.issued b.toHandler s = (before ++ [w]).map Write.call)
      (contents : b.contents s' = before.foldl Store.write (b.contents s))

theorem inTurn_forM (b : Backing σ) (ws : List Write) (s : σ) :
    b.InTurn (ws.forM Write.op) ws s := by
  induction ws generalizing s with
  | nil => exact .all (.nil s) rfl rfl rfl
  | cons w ws ih =>
    rcases hmake : b.make w s with ⟨e | ok, s₁⟩
    · obtain ⟨hrun, hissued⟩ := Handler.run_of_not_make hmake (ws.forM Write.op)
      exact .cut rfl (.nil s) hmake hrun hissued (b.contents_of_not_make hmake)
    · obtain ⟨hrun, hissued⟩ := Handler.run_of_make hmake (ws.forM Write.op)
      cases ih s₁ with
      | all accepted answer issued =>
        have accepted' := Handler.Accepts.cons hmake accepted
        exact .all accepted' (hrun.trans answer) (hissued.trans (congrArg _ issued))
          (b.contents_of_accepts accepted')
      | @cut before after w' e s₂ s' split accepted failed answer issued =>
        have split' : w :: ws = (w :: before) ++ w' :: after := congrArg _ split
        have accepted' := Handler.Accepts.cons hmake accepted
        exact .cut split' accepted' failed (hrun.trans answer) (hissued.trans (congrArg _ issued))
          ((b.contents_of_not_make failed).trans (b.contents_of_accepts accepted'))

end Backing

namespace Overlay

theorem commit_eq (o : Overlay) : o.commit = o.writes.forM Write.op := by
  unfold commit writes
  induction o.entries with
  | nil => rfl
  | cons e rest ih =>
    change (write e >>= fun _ => rest.forM write) = _
    rw [ih, ← Write.op_ofEntry]
    rfl

end Overlay

theorem Session.below_of_discard (session : Session) (p : Program α) :
    let left := (session.begin.perform p).2.leave
    left.overlays = session.overlays ∧ left.disk.store = session.disk.store ∧
      left.disk.writes = session.disk.writes := by
  intro left
  have served : (Overlay.serveAll (.empty :: session.overlays) p).ReadsTo
      fun a => a.2.tail = session.overlays :=
    (Overlay.readsTo_serveAll (Overlay.readsTo_serve p .empty) session.overlays).bind
      fun a ha => ha.2
  let plan := Fault.plan session.faults
  have hdisk := served.keeps (h := Disk.handler plan) (f := fun d => (d.store, d.writes))
    (fun hread d => Disk.answer_of_read hread plan d) (fun _ _ => rfl) session.disk
  obtain ⟨hstore, hwrites⟩ := Prod.mk.inj hdisk
  exact ⟨served.answer (Disk.handler plan) session.disk, hstore, hwrites⟩

/-- Until a commit the store below is only read, and a transaction that is discarded leaves nothing.
A commit makes the last of the writes to each key, in key order, up to the first that fails. -/
theorem Overlay.commits_in_key_order (b : Backing σ) (p : Program α) (s : σ) :
    let served := serve p .empty
    let asked := p.asked (handler b.toHandler) (.empty, s)
    let o := (served.run b.toHandler s).1.2
    let below := (served.run b.toHandler s).2
    (∀ c ∈ served.issued b.toHandler s, c.write? = none) ∧ b.contents below = b.contents s ∧
    (∃ ws : List Write, ws.Pairwise (fun w w' => w.key < w'.key) ∧
      (∀ w, w ∈ ws ↔ Write.last? asked w.key = some w) ∧ b.InTurn o.commit ws below) ∧
    ∀ session : Session,
      let left := (session.begin.perform p).2.leave
      left.overlays = session.overlays ∧ left.disk.store = session.disk.store ∧
        left.disk.writes = session.disk.writes := by
  intro served asked o below
  have reads := readsTo_serve p .empty
  have hkept : o = keep .empty asked := by
    rw [← overlay_of_run]
    exact congrArg (fun run => run.1.2) (run_serve_eq b.toHandler p .empty s)
  refine ⟨reads.issued b.toHandler s, b.contents_of_readsTo reads s,
    ⟨o.writes, o.ascending_writes, ?_, ?_⟩, fun session => session.below_of_discard p⟩
  · intro w
    rw [hkept]
    exact mem_writes_keep
  · rw [commit_eq]
    exact b.inTurn_forM o.writes below

/-- Of five writes three are left for the commit. The disk jams at the second of them; an overlay
over the disk takes them all. -/
theorem Overlay.jammed_commit :
    let ws : List Write := [.set [3] [1], .delete [2], .set [1] [5], .delete [3], .set [1] [6]]
    let b := Backing.disk (jamming 1 [])
    let d := Disk.ofStore .empty
    let o := ((serve (ws.forM Write.op).run .empty).run b.toHandler d).1.2
    (∃ made : List Write, (∀ w, w ∈ made ↔ Write.last? ws w.key = some w) ∧
      b.InTurn o.commit made d) ∧
    (∃ made : List Write, (∀ w, w ∈ made ↔ Write.last? ws w.key = some w) ∧
      b.overlaid.InTurn o.commit made (.empty, d)) ∧
    o.commit.onDisk (jamming 1 []) d =
      (.error jam, ⟨.ofList [([1], [6])], 2, [.set [1] [6]], []⟩) ∧
    o.commit.run.run b.overlaid.toHandler (.empty, d) = (.ok (), (o, d)) := by
  intro ws b d o
  obtain ⟨-, -, ⟨made, -, hmade, inTurn⟩, -⟩ :=
    commits_in_key_order b (ws.forM Write.op).run d
  obtain ⟨-, -, ⟨above, -, habove, inTurn_above⟩, -⟩ :=
    commits_in_key_order b.overlaid (ws.forM Write.op).run (.empty, d)
  rw [asked_forM] at hmade habove
  exact ⟨⟨made, hmade, inTurn⟩, ⟨above, habove, inTurn_above⟩, rfl, rfl⟩

end IndexedTables
