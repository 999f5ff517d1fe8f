import IndexedTables.Cursor
import IndexedTables.Proofs.Parts
import IndexedTables.Store.Disk
set_option autoImplicit false

namespace IndexedTables

/-- The answer of an operation on a store, and the store it leaves. -/
def Op.on {α : Type} (op : Op α) (s : Store) : Except Error α × Store :=
  Program.run Store.handler op.run s

/-- The part of a store that belongs to a space. -/
def Store.part (space : Space) (s : Store) : Store := s.under [space]

namespace Store

@[simp] theorem find?_part (space : Space) (s : Store) (key : Bytes) :
    (s.part space).find? key = s.find? (space :: key) := s.find?_under [space] key

/-- The stores hold the same under every key that begins with none of these spaces. -/
def SameBut (spaces : List Space) (s s' : Store) : Prop :=
  ∀ key, (∀ space ∈ spaces, ¬ [space] <+: key) → s'.find? key = s.find? key

theorem SameBut.refl (spaces : List Space) (s : Store) : SameBut spaces s s := fun _ _ => rfl

theorem SameBut.trans {spaces : List Space} {s s' s'' : Store} (h : SameBut spaces s s')
    (h' : SameBut spaces s' s'') : SameBut spaces s s'' :=
  fun key hkey => (h' key hkey).trans (h key hkey)

theorem SameBut.mono {spaces more : List Space} {s s' : Store} (h : SameBut spaces s s')
    (sub : spaces ⊆ more) : SameBut more s s' :=
  fun key hkey => h key fun space hs => hkey space (sub hs)

theorem SameBut.part {spaces : List Space} {s s' : Store} (h : SameBut spaces s s')
    {other : Space} (hother : other ∉ spaces) : s'.part other = s.part other := by
  refine SortedMap.ext_find? fun key => ?_
  rw [find?_part, find?_part]
  refine h _ fun space hs hp => hother ?_
  have same : space = other := by simpa using hp
  exact same ▸ hs

end Store

namespace Program

variable {α β σ : Type}

/-- Whatever it is answered, the program asks for no write. -/
def ReadsOnly : Program α → Prop
  | .done _ => True
  | .tell _ next => next.ReadsOnly
  | .call c next => c.write? = none ∧ ∀ reply, (next reply).ReadsOnly

theorem reading_cases {c : Call} (h : c.write? = none) :
    (∃ key, c = .get key) ∨ (∃ key, c = .has key) ∨ ∃ range reverse, c = .scan range reverse := by
  cases c with
  | get key => exact .inl ⟨key, rfl⟩
  | has key => exact .inr (.inl ⟨key, rfl⟩)
  | scan range reverse => exact .inr (.inr ⟨range, reverse, rfl⟩)
  | set key value => cases h
  | delete key => cases h

theorem answer_of_read {c : Call} (h : c.write? = none) (s : Store) : (s.answer c).2 = s := by
  rcases reading_cases h with ⟨key, rfl⟩ | ⟨key, rfl⟩ | ⟨range, reverse, rfl⟩
  · rfl
  · rfl
  · exact s.answer_scan_keeps range reverse

def ReadsTo (P : α → Prop) : Program α → Prop
  | .done a => P a
  | .tell _ next => next.ReadsTo P
  | .call c next => c.write? = none ∧ ∀ reply, (next reply).ReadsTo P

theorem ReadsOnly.readsTo {p : Program α} (h : p.ReadsOnly) : p.ReadsTo fun _ => True := by
  induction p with
  | done a => trivial
  | tell line next ih => exact ih h
  | call c next ih => exact ⟨h.1, fun reply => ih reply (h.2 reply)⟩

namespace ReadsTo

variable {P : α → Prop} {p : Program α}

theorem readsOnly (reads : p.ReadsTo P) : p.ReadsOnly := by
  induction p with
  | done a => trivial
  | tell line next ih => exact ih reads
  | call c next ih => exact ⟨reads.1, fun reply => ih reply (reads.2 reply)⟩

theorem bind {Q : β → Prop} {f : α → Program β} (reads : p.ReadsTo P)
    (hf : ∀ a, P a → (f a).ReadsTo Q) : (p.bind f).ReadsTo Q := by
  induction p with
  | done a => exact hf a reads
  | tell line next ih => exact ih reads
  | call c next ih => exact ⟨reads.1, fun reply => ih reply (reads.2 reply)⟩

theorem answer (reads : p.ReadsTo P) (h : Handler σ) (s : σ) : P (p.run h s).1 := by
  induction p generalizing s with
  | done a => exact reads
  | tell line next ih => exact ih reads _
  | call c next ih => exact ih _ (reads.2 _) _

theorem keeps {γ : Type} {h : Handler σ} {f : σ → γ} (reads : p.ReadsTo P)
    (read : ∀ {c}, c.write? = none → ∀ s, f (h.answer c s).2 = f s)
    (told : ∀ line s, f (h.hear line s) = f s) (s : σ) : f (p.run h s).2 = f s := by
  induction p generalizing s with
  | done a => rfl
  | tell line next ih => exact (ih reads _).trans (told line s)
  | call c next ih => exact (ih _ (reads.2 _) _).trans (read reads.1 s)

end ReadsTo

theorem ReadsOnly.store {p : Program α} (h : p.ReadsOnly) (s : Store) :
    (p.run Store.handler s).2 = s :=
  h.readsTo.keeps (f := id) answer_of_read (fun _ _ => rfl) s

end Program

namespace Op

variable {α β : Type}

@[simp] theorem on_pure (a : α) (s : Store) : (pure a : Op α).on s = (.ok a, s) := rfl

@[simp] theorem on_throw (e : Error) (s : Store) : (throw e : Op α).on s = (.error e, s) := rfl

@[simp] theorem on_lift (x : Except Error α) (s : Store) : (liftM x : Op α).on s = (x, s) := by
  cases x <;> rfl

theorem on_bind (op : Op α) (f : α → Op β) (s : Store) :
    (op >>= f).on s = match op.on s with
      | (.ok a, s') => (f a).on s'
      | (.error e, s') => (.error e, s') := by
  unfold on
  rw [ExceptT.run_bind]
  change Program.run Store.handler (Program.bind _ _) s = _
  rw [Program.run_bind]
  rcases Program.run Store.handler op.run s with ⟨a | e, s'⟩ <;> rfl

theorem on_bind_of_ok {op : Op α} {s s' : Store} {a : α} (h : op.on s = (.ok a, s'))
    (f : α → Op β) : (op >>= f).on s = (f a).on s' := by
  rw [on_bind, h]

theorem on_bind_of_error {op : Op α} {s s' : Store} {e : Error} (h : op.on s = (.error e, s'))
    (f : α → Op β) : (op >>= f).on s = (.error e, s') := by
  rw [on_bind, h]

theorem ok_of_bind {op : Op α} {f : α → Op β} {s s' : Store} {b : β}
    (h : (op >>= f).on s = (.ok b, s')) :
    ∃ a s₁, op.on s = (.ok a, s₁) ∧ (f a).on s₁ = (.ok b, s') := by
  rw [on_bind] at h
  rcases hop : op.on s with ⟨a | e, s₁⟩
  · rw [hop] at h
    cases h
  · rw [hop] at h
    exact ⟨_, s₁, rfl, h⟩

@[simp] theorem on_get (key : Bytes) (s : Store) : (get key).on s = (.ok (s.find? key), s) := rfl

@[simp] theorem on_has (key : Bytes) (s : Store) : (has key).on s = (.ok (s.contains key), s) := rfl

@[simp] theorem on_set (key value : Bytes) (s : Store) :
    (set key value).on s = (.ok (), s.insert key value) := rfl

@[simp] theorem on_delete (key : Bytes) (s : Store) :
    (delete key).on s = (.ok (), s.erase key) := rfl

theorem on_scan (range : KeyRange) (reverse : Bool) (s : Store) :
    (scan range reverse).on s =
      (.ok ((if reverse then (s.range range).reverse else s.range range).map .ok), s) := by
  cases reverse <;> rfl

@[simp] theorem on_forM_nil (f : α → Op Unit) (s : Store) :
    (([] : List α).forM f).on s = (.ok (), s) := rfl

theorem on_forM_cons (f : α → Op Unit) (a : α) (as : List α) (s : Store) :
    ((a :: as).forM f).on s = (f a >>= fun _ => as.forM f).on s := rfl

theorem on_forM_keeps {σ : Type} {f : α → Op Unit} {g : σ → α → σ} {P : σ → Store → Prop}
    (turn : ∀ a x s s', P x s → (f a).on s = (.ok (), s') → P (g x a) s')
    {as : List α} {x : σ} {s s' : Store} (hP : P x s) (h : (as.forM f).on s = (.ok (), s')) :
    P (as.foldl g x) s' := by
  induction as generalizing x s with
  | nil =>
    cases h
    exact hP
  | cons a rest ih =>
    rw [on_forM_cons] at h
    obtain ⟨_, s₁, h₁, h₂⟩ := ok_of_bind h
    exact ih (turn a x s s₁ hP h₁) h₂

/-- A loop in which every turn succeeds. The invariant speaks of the turns that are left. -/
theorem exists_on_forM {f : α → Op Unit} {P : List α → Store → Prop}
    (turn : ∀ a rest s, P (a :: rest) s → ∃ s', (f a).on s = (.ok (), s') ∧ P rest s')
    {as : List α} {s : Store} (h : P as s) :
    ∃ s', (as.forM f).on s = (.ok (), s') ∧ P [] s' := by
  induction as generalizing s with
  | nil => exact ⟨s, rfl, h⟩
  | cons a rest ih =>
    obtain ⟨s₁, h₁, hP⟩ := turn a rest s h
    obtain ⟨s', hs, hdone⟩ := ih hP
    exact ⟨s', (on_bind_of_ok h₁ fun _ => rest.forM f).trans hs, hdone⟩

theorem mapM_lift (f : β → Except Error α) (bs : List β) :
    (bs.mapM fun b => (liftM (f b) : Op α)) = liftM (bs.mapM f) := by
  induction bs with
  | nil => rfl
  | cons b rest ih =>
    rw [List.mapM_cons, List.mapM_cons, ih]
    cases f b with
    | error e => rfl
    | ok a => cases rest.mapM f <;> rfl

/-- An operation in a space answers what it does on that part and turns the part into what it
leaves there. -/
theorem exists_on_inSpace {op : Op α} {space : Space} {s m : Store} {answer : Except Error α}
    {P : Store → Prop} (h : op.on (s.part space) = (answer, m))
    (hP : ∀ s', s'.part space = m → Store.SameBut [space] s s' → P s') :
    ∃ s', (op.inSpace space).on s = (answer, s') ∧ P s' := by
  obtain ⟨same, inside, outside⟩ := Program.run_within [space] op.run s
  have hanswer : (Program.run Store.handler op.run (s.under [space])).1 = answer :=
    congrArg Prod.fst h
  have hpart : (Program.run Store.handler op.run (s.under [space])).2 = m :=
    congrArg Prod.snd h
  refine ⟨((op.inSpace space).on s).2, Prod.ext (same.trans hanswer) rfl, hP _ ?_ ?_⟩
  · exact inside.trans hpart
  · intro key hkey
    exact outside key (hkey space List.mem_cons_self)

theorem on_within_of_reads {op : Op α} {lead : Bytes} {s : Store} {answer : Except Error α}
    (h : op.on (s.under lead) = (answer, s.under lead)) :
    (op.within lead).on s = (answer, s) := by
  obtain ⟨same, inside, outside⟩ := Program.run_within lead op.run s
  have hanswer : (Program.run Store.handler op.run (s.under lead)).1 = answer :=
    congrArg Prod.fst h
  have hpart : (Program.run Store.handler op.run (s.under lead)).2 = s.under lead :=
    congrArg Prod.snd h
  refine Prod.ext (same.trans hanswer) (SortedMap.ext_find? fun key => ?_)
  by_cases hp : lead <+: key
  · obtain ⟨rest, rfl⟩ := hp
    rw [← Store.find?_under, ← Store.find?_under]
    exact congrArg (SortedMap.find? · rest) (inside.trans hpart)
  · exact outside key hp

theorem on_inSpace_of_reads {op : Op α} {space : Space} {s : Store} {answer : Except Error α}
    (h : op.on (s.part space) = (answer, s.part space)) :
    (op.inSpace space).on s = (answer, s) :=
  on_within_of_reads h

theorem on_scan_inSpace (space : Space) (range : KeyRange) (reverse : Bool) (s : Store) :
    ((scan range reverse).inSpace space).on s =
      (.ok ((if reverse then ((s.part space).range range).reverse
        else (s.part space).range range).map .ok), s) :=
  on_inSpace_of_reads (on_scan range reverse (s.part space))

end Op

end IndexedTables
