import Mathlib.Order.Defs.Unbundled
import IndexedTables.Proofs.Composition
import IndexedTables.Proofs.Operations
import IndexedTables.Store.Disk
set_option autoImplicit false

namespace IndexedTables

/-- The answer of an operation on a disk under a plan of faults, and the disk it leaves. -/
def Op.onDisk {α : Type} (plan : FaultPlan) (op : Op α) (d : Disk) : Except Error α × Disk :=
  Program.run (Disk.handler plan) op.run d

namespace Disk

variable {plan : FaultPlan} {d : Disk} {c : Call}

theorem spoil_none (n : Nat) (c : Call) (reply : Except Error c.Reply) :
    spoil .none n c reply = reply := by
  cases c with
  | scan range reverse =>
    cases reply with
    | error e => rfl
    | ok items => simp [spoil, FaultPlan.none]
  | _ => rfl

theorem run_none {α : Type} (p : Program α) (d : Disk) :
    (p.run (handler .none) d).1 = (p.run Store.handler d.store).1 ∧
      (p.run (handler .none) d).2.store = (p.run Store.handler d.store).2 := by
  induction p generalizing d with
  | done a => exact ⟨rfl, rfl⟩
  | tell line next ih => exact ih _
  | call c next ih =>
    have hreply : (answer .none c d).1 = (d.store.answer c).1 := spoil_none d.calls c _
    have hstore : (answer .none c d).2.store = (d.store.answer c).2 := rfl
    have h := ih (answer .none c d).1 (answer .none c d).2
    rw [hstore, hreply] at h
    simpa only [Program.run, handler, Store.handler, hreply] using h

theorem answer_of_fault {e : Error} (h : plan.call d.calls c = some e) :
    answer plan c d = (.error e, { d with calls := d.calls + 1 }) := by
  simp [answer, h]

theorem answer_of_sound (h : plan.call d.calls c = none) :
    answer plan c d = (spoil plan d.calls c (d.store.answer c).1, (answer .none c d).2) := by
  simp [answer, h, FaultPlan.none]

theorem answer_none (c : Call) (d : Disk) :
    (answer .none c d).1 = (d.store.answer c).1 ∧
      (answer .none c d).2.writes = d.writes ++ c.write?.toList :=
  ⟨spoil_none d.calls c _, rfl⟩

end Disk

namespace Op

variable {α β : Type}

theorem inSpace_bind (space : Space) (op : Op α) (f : α → Op β) :
    (op >>= f).inSpace space = op.inSpace space >>= fun a => (f a).inSpace space := by
  have bind_within : ∀ (p : Program (Except Error α))
      (g : Except Error α → Program (Except Error β)),
      (p.bind g).within [space] = (p.within [space]).bind fun a => (g a).within [space] := by
    intro p g
    induction p with
    | done a => rfl
    | tell line next ih => exact congrArg (Program.tell line) ih
    | call c next ih =>
      cases c <;> exact congrArg (Program.call _) (funext fun reply => ih _)
  change ExceptT.mk ((Program.bind _ _).within [space]) = ExceptT.mk (Program.bind _ _)
  rw [bind_within]
  congr 2
  funext a
  cases a <;> rfl

theorem inSpace_pure (space : Space) (a : α) : (pure a : Op α).inSpace space = pure a := rfl

theorem inSpace_get (space : Space) (key : Bytes) :
    (get key).inSpace space = get (space :: key) := rfl

theorem inSpace_has (space : Space) (key : Bytes) :
    (has key).inSpace space = has (space :: key) := rfl

theorem inSpace_set (space : Space) (key value : Bytes) :
    (set key value).inSpace space = set (space :: key) value := rfl

theorem inSpace_delete (space : Space) (key : Bytes) :
    (delete key).inSpace space = delete (space :: key) := rfl

theorem inSpace_scan (space : Space) (range : KeyRange) (reverse : Bool) :
    (scan range reverse).inSpace space =
      scan (range.behind [space]) reverse >>= fun items =>
        pure (items.map (Item.behind [space])) := by
  refine congrArg (Program.call _) (funext fun reply => ?_)
  cases reply <;> rfl

theorem onDisk_bind (op : Op α) (f : α → Op β) (plan : FaultPlan) (d : Disk) :
    (op >>= f).onDisk plan d = match op.onDisk plan d with
      | (.ok a, d') => (f a).onDisk plan d'
      | (.error e, d') => (.error e, d') := by
  unfold onDisk
  rw [ExceptT.run_bind]
  change Program.run (Disk.handler plan) (Program.bind _ _) d = _
  rw [Program.run_bind]
  rcases Program.run (Disk.handler plan) op.run d with ⟨a | e, d'⟩ <;> rfl

@[simp] theorem onDisk_lift (x : Except Error α) (plan : FaultPlan) (d : Disk) :
    (liftM x : Op α).onDisk plan d = (x, d) := by cases x <;> rfl

/-- On a disk that holds `s`, the operation may leave `s'`, whatever fails. -/
def Reaches (op : Op α) (s s' : Store) : Prop :=
  ∃ plan d, d.store = s ∧ (op.onDisk plan d).2.store = s'

variable {s s' : Store}

theorem eq_of_reaches_pure {a : α} (h : (pure a : Op α).Reaches s s') : s' = s := by
  obtain ⟨plan, d, rfl, rfl⟩ := h
  rfl

theorem eq_of_reaches_throw {e : Error} (h : (throw e : Op α).Reaches s s') : s' = s := by
  obtain ⟨plan, d, rfl, rfl⟩ := h
  rfl

theorem eq_of_reaches_lift {x : Except Error α} (h : (liftM x : Op α).Reaches s s') : s' = s := by
  cases x with
  | ok a => exact eq_of_reaches_pure h
  | error e => exact eq_of_reaches_throw h

theorem reaches_bind {op : Op α} {f : α → Op β} (h : (op >>= f).Reaches s s') :
    op.Reaches s s' ∨ ∃ a s₁, op.Reaches s s₁ ∧ (f a).Reaches s₁ s' := by
  obtain ⟨plan, d, rfl, rfl⟩ := h
  rw [onDisk_bind]
  rcases hop : op.onDisk plan d with ⟨a | e, d'⟩
  · exact .inl ⟨plan, d, rfl, by rw [hop]⟩
  · exact .inr ⟨_, d'.store, ⟨plan, d, rfl, by rw [hop]⟩, plan, d', rfl, rfl⟩

theorem reaches_of_return {op : Op α} {f : α → β} (h : (do return f (← op) : Op β).Reaches s s') :
    op.Reaches s s' := by
  rcases reaches_bind h with hop | ⟨a, s₁, hop, hdone⟩
  · exact hop
  · exact eq_of_reaches_pure hdone ▸ hop

theorem reaches_lift {x : Except Error α} {f : α → Op β} (h : (liftM x >>= f).Reaches s s') :
    s' = s ∨ ∃ a, x = .ok a ∧ (f a).Reaches s s' := by
  cases x with
  | error e => exact .inl (eq_of_reaches_throw h)
  | ok a => exact .inr ⟨a, rfl, h⟩

theorem reaches_call {c : Call} (hc : ∀ range reverse, c ≠ .scan range reverse)
    {f : c.Reply → Op β} {reply : c.Reply} (hreply : (s.answer c).1 = .ok reply)
    (h : (ofCall c >>= f).Reaches s s') : s' = s ∨ (f reply).Reaches (s.answer c).2 s' := by
  obtain ⟨plan, d, rfl, rfl⟩ := h
  have hcall : (ofCall c).onDisk plan d = Disk.answer plan c d := rfl
  rw [onDisk_bind, hcall]
  cases hfault : plan.call d.calls c with
  | some e =>
    rw [Disk.answer_of_fault hfault]
    exact .inl rfl
  | none =>
    have hspoil : Disk.spoil plan d.calls c (d.store.answer c).1 = .ok reply := by
      rw [hreply]
      cases c <;> first | rfl | exact absurd rfl (hc _ _)
    rw [Disk.answer_of_sound hfault, hspoil]
    exact .inr ⟨plan, _, rfl, rfl⟩

theorem reaches_get {key : Bytes} {f : Option Bytes → Op β} (h : (get key >>= f).Reaches s s') :
    s' = s ∨ (f (s.find? key)).Reaches s s' :=
  reaches_call (by simp) rfl h

theorem reaches_has {key : Bytes} {f : Bool → Op β} (h : (has key >>= f).Reaches s s') :
    s' = s ∨ (f (s.contains key)).Reaches s s' :=
  reaches_call (by simp) rfl h

theorem reaches_set {key value : Bytes} (h : (set key value).Reaches s s') :
    s' = s ∨ s' = s.insert key value := by
  rw [← bind_pure (set key value)] at h
  exact (reaches_call (by simp) rfl h).imp_right eq_of_reaches_pure

theorem reaches_delete {key : Bytes} (h : (delete key).Reaches s s') :
    s' = s ∨ s' = s.erase key := by
  rw [← bind_pure (delete key)] at h
  exact (reaches_call (by simp) rfl h).imp_right eq_of_reaches_pure

/-- Whatever fails, what the operation leaves is so related to what was there. -/
def Obeys (R : Store → Store → Prop) (op : Op α) : Prop := ∀ s s', op.Reaches s s' → R s s'

variable {R : Store → Store → Prop} [IsPreorder Store R]

theorem obeys_lift (x : Except Error α) : (liftM x : Op α).Obeys R := by
  intro s s' h
  rw [eq_of_reaches_lift h]
  exact refl s

theorem Obeys.bind {op : Op α} {f : α → Op β} (h : op.Obeys R) (hf : ∀ a, (f a).Obeys R) :
    (op >>= f).Obeys R := by
  intro s s' hrun
  rcases reaches_bind hrun with hop | ⟨a, s₁, hop, hrest⟩
  · exact h s s' hop
  · exact Trans.trans (h s s₁ hop) (hf a s₁ s' hrest)

theorem obeys_closed : Closed fun _ op => op.Obeys R := ⟨obeys_lift, .bind⟩

theorem obeys_call {c : Call} (hanswer : ∀ s : Store, R s (s.answer c).2) :
    (ofCall c).Obeys R := by
  intro s s' h
  obtain ⟨plan, d, rfl, rfl⟩ := h
  change R d.store (Disk.answer plan c d).2.store
  cases hfault : plan.call d.calls c with
  | some e =>
    rw [Disk.answer_of_fault hfault]
    exact refl _
  | none =>
    rw [Disk.answer_of_sound hfault]
    exact hanswer d.store

theorem obeys_get (key : Bytes) : (get key).Obeys R := obeys_call refl

theorem obeys_has (key : Bytes) : (has key).Obeys R := obeys_call refl

theorem obeys_scan (range : KeyRange) (reverse : Bool) : (scan range reverse).Obeys R := by
  cases reverse <;> exact obeys_call refl

theorem Obeys.mono {R R' : Store → Store → Prop} {op : Op α} (h : op.Obeys R)
    (weaker : ∀ s s', R s s' → R' s s') : op.Obeys R' :=
  fun s s' hrun => weaker s s' (h s s' hrun)

end Op

instance (spaces : List Space) : IsPreorder Store (Store.SameBut spaces) where
  refl := .refl spaces
  trans _ _ _ := .trans

theorem Store.sameBut_insert (s : Store) (space : Space) (key value : Bytes) :
    SameBut [space] s (s.insert (space :: key) value) := fun _ hother =>
  SortedMap.find?_insert_of_ne s value
    (@ne_of_not_begins [space] key _ (hother space List.mem_cons_self))

theorem Store.sameBut_erase (s : Store) (space : Space) (key : Bytes) :
    SameBut [space] s (s.erase (space :: key)) := fun _ hother =>
  SortedMap.find?_erase_of_ne s
    (@ne_of_not_begins [space] key _ (hother space List.mem_cons_self))

theorem Disk.sameBut_answer (plan : FaultPlan) {c : Call} {d : Disk} {spaces : List Space}
    (h : Store.SameBut spaces d.store (d.store.answer c).2) :
    Store.SameBut spaces d.store (answer plan c d).2.store := by
  cases hfault : plan.call d.calls c with
  | some e =>
    rw [answer_of_fault hfault]
    exact .refl _ _
  | none =>
    rw [answer_of_sound hfault]
    exact h

theorem Program.sameBut_within {α : Type} (space : Space) (plan : FaultPlan) (p : Program α)
    (d : Disk) :
    Store.SameBut [space] d.store ((p.within [space]).run (Disk.handler plan) d).2.store := by
  induction p generalizing d with
  | done a => exact .refl _ _
  | tell line next ih => exact ih _
  | call c next ih =>
    cases c with
    | get key => exact (Disk.sameBut_answer plan (.refl _ _)).trans (ih _ _)
    | has key => exact (Disk.sameBut_answer plan (.refl _ _)).trans (ih _ _)
    | set key value =>
      exact (Disk.sameBut_answer plan (Store.sameBut_insert _ space key value)).trans (ih _ _)
    | delete key =>
      exact (Disk.sameBut_answer plan (Store.sameBut_erase _ space key)).trans (ih _ _)
    | scan range reverse =>
      refine (Disk.sameBut_answer plan ?_).trans (ih _ _)
      cases reverse <;> exact .refl _ _

theorem Op.obeys_inSpace {α : Type} (space : Space) (op : Op α) :
    (op.inSpace space).Obeys (Store.SameBut [space]) := by
  intro s s' h
  obtain ⟨plan, d, rfl, rfl⟩ := h
  exact Program.sameBut_within space plan op.run d

end IndexedTables
