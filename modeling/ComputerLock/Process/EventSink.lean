import ComputerLock.Process.Handler

/-!
# The event sink

`Indicate` asks every event object for the process that was created, and has it checked. The
conversion of a `_variant_t` to a pointer takes a reference, and so does `QueryInterface`, which
moreover stores what it finds in the caller's array; only the reference of the `_variant_t`
itself is given back.
-/

namespace ComputerLock.Process
open Library Common

/-! ## Indicate -/

/-- What the lookup of `ProcessId` brings. -/
inductive ProcessId where
  | failed
  /-- `VT_NULL` -/
  | null
  /-- `VT_EMPTY` -/
  | empty
  | value (lVal : UInt32)

/-- An event object, and what the calls made for it bring. A lookup of `TargetInstance` that
succeeds gives an object. -/
structure Event where
  /-- the caller's pointer to the event object -/
  pointer : ℕ
  targetInstance : Option ℕ
  queryInterface : Option ℕ
  processId : ProcessId
  /-- the answers while the process is checked -/
  answers : Answers

/-- What `Indicate` changes. -/
structure Sink where
  apObjArray : List ℕ
  /-- the interface of every reference taken -/
  taken : List ℕ
  /-- the interface of every reference given back -/
  released : List ℕ
  /-- the arguments of `CheckSingleProcess` -/
  checked : List UInt32
  handles : Handles

namespace Sink

def addRef (p : ℕ) (s : Sink) : Sink := { s with taken := s.taken ++ [p] }
def release (p : ℕ) (s : Sink) : Sink := { s with released := s.released ++ [p] }
def store (i p : ℕ) (s : Sink) : Sink := { s with apObjArray := s.apObjArray.set i p }

def start (events : List Event) (k : Handles) : Sink :=
  ⟨events.map Event.pointer, [], [], [], k⟩

end Sink

/-- The argument of `CheckSingleProcess`, and the check itself. -/
def checkSingle (processID : UInt32) (a : Answers) : EStateM Fault Sink Unit := do
  modify fun s => { s with checked := s.checked ++ [processID] }
  Stateful.zoom Sink.handles (fun k s => { s with handles := k }) (checkSingleProcess a)

/-- `ProcessId` in `Indicate`: zero unless something else is read. -/
def ProcessId.toNumber : ProcessId → UInt32
  | .value lVal => lVal
  | _ => 0

/-- What follows the conversion of `vtProp` to `IUnknown*`. -/
def queryObject (i : ℕ) (e : Event) : EStateM Fault Sink Unit :=
  match e.queryInterface with
  | none => modify (·.store i null)
  | some object => do
    modify (·.addRef object)
    modify (·.store i object)
    if e.processId.toNumber ≠ 0 then
      checkSingle e.processId.toNumber e.answers

/-- The body of the loop. -/
def indicateObject (i : ℕ) (e : Event) : EStateM Fault Sink Unit :=
  match e.targetInstance with
  | none => return
  | some vtProp => do
    -- one reference for the `_variant_t`, and one for the pointer it is converted to
    modify (·.addRef vtProp)
    modify (·.addRef vtProp)
    queryObject i e
    -- `VariantClear(&vtProp)`
    modify (·.release vtProp)

def indicateFrom : ℕ → List Event → EStateM Fault Sink Unit
  | _, [] => return
  | i, e :: events => do
    indicateObject i e
    indicateFrom (i + 1) events

def indicate (events : List Event) : EStateM Fault Sink Unit := indicateFrom 0 events

/-! ## What is to be checked -/

/-- The process the object asks to be checked. -/
def Event.due (e : Event) : Option UInt32 :=
  if e.targetInstance.isSome ∧ e.queryInterface.isSome ∧ e.processId.toNumber ≠ 0 then
    some e.processId.toNumber
  else none

/-- The processes due are checked once each and in order; and if the call returns, the array is
as it was and every reference taken has been given back. -/
structure Delivered (events : List Event) : Prop where
  checked : ∀ k, (Stateful.final (indicate events) (Sink.start events k)).checked =
    events.filterMap Event.due
  array : ∀ k s, (indicate events).run (Sink.start events k) = .ok () s →
    s.apObjArray = events.map Event.pointer
  references : ∀ k s, (indicate events).run (Sink.start events k) = .ok () s →
    ∀ p, s.taken.count p = s.released.count p

def Event.Throws (e : Event) : Prop := e.due.isSome ∧ e.answers.Throws

instance (e : Event) : Decidable e.Throws := inferInstanceAs (Decidable (_ ∧ _))

/-- Some check throws, and nothing is due behind the first that does. -/
def EndsThrowing : List Event → Prop
  | [] => False
  | e :: events => if e.Throws then events.filterMap Event.due = [] else EndsThrowing events

/-- No object has a `TargetInstance`, or the call does not return and has nothing left to do. -/
def Untouched (events : List Event) : Prop :=
  (∀ e ∈ events, e.targetInstance = none) ∨ EndsThrowing events

/-! ## One object -/

section Objects

variable {e : Event} {i : ℕ} {s : Sink}

/-- The state in which a check is logged. -/
def Sink.logged (s : Sink) (processID : UInt32) (k : Handles) : Sink :=
  { s with checked := s.checked ++ [processID], handles := k }

theorem run_checkSingle_throws {a : Answers} (h : a.Throws) (p : UInt32) :
    ∃ err k, (checkSingle p a).run s = .error err (s.logged p k) := by
  cases hrun : (checkSingleProcess a).run s.handles with
  | ok u k => exact absurd h (checkSingleProcess_returns_iff.mp ⟨k, hrun⟩)
  | error err k => exact ⟨err, k, by simp [checkSingle, hrun, Sink.logged]⟩

theorem run_checkSingle {a : Answers} (h : ¬ a.Throws) (p : UInt32) :
    ∃ k, (checkSingle p a).run s = .ok () (s.logged p k) := by
  obtain ⟨k, hk⟩ := checkSingleProcess_returns_iff (k := s.handles).mpr h
  exact ⟨k, by simp [checkSingle, hk, Sink.logged]⟩

/-- Between two states more references have been taken than given back. -/
def Owes (s s' : Sink) : Prop :=
  s.taken.length + s'.released.length < s'.taken.length + s.released.length

theorem Owes.trans {s s' s'' : Sink} (h : Owes s s') (h' : Owes s' s'') : Owes s s'' := by
  unfold Owes at *
  omega

/-- What is left when an object has been dealt with. -/
structure Handled (e : Event) (s s' : Sink) : Prop where
  checked : s'.checked = s.checked ++ e.due.toList
  same : e.targetInstance = none → s' = s
  owes : e.targetInstance.isSome → Owes s s'

theorem run_indicateObject {t : ℕ} (ht : e.targetInstance = some t) :
    (indicateObject i e).run s =
      match (queryObject i e).run ((s.addRef t).addRef t) with
      | .ok _ s' => .ok () (s'.release t)
      | .error err s' => .error err s' := by
  simp only [indicateObject, ht, EStateM.run_bind, EStateM.run_modify]
  cases (queryObject i e).run ((s.addRef t).addRef t) <;> rfl

theorem run_queryObject_none (hq : e.queryInterface = none) :
    (queryObject i e).run s = .ok () (s.store i null) := by
  simp only [queryObject, hq]
  rfl

theorem run_queryObject {q : ℕ} (hq : e.queryInterface = some q) :
    (queryObject i e).run s =
      if e.processId.toNumber ≠ 0 then
        (checkSingle e.processId.toNumber e.answers).run ((s.addRef q).store i q)
      else .ok () ((s.addRef q).store i q) := by
  simp only [queryObject, hq, EStateM.run_bind, EStateM.run_modify]
  split_ifs <;> rfl

theorem due_isSome_iff : e.due.isSome ↔
    e.targetInstance.isSome ∧ e.queryInterface.isSome ∧ e.processId.toNumber ≠ 0 := by
  unfold Event.due
  split_ifs with h <;> simp [h]

theorem indicateObject_throws (h : e.Throws) :
    ∃ err s', (indicateObject i e).run s = .error err s' ∧
      s'.checked = s.checked ++ e.due.toList := by
  obtain ⟨hdue, hthrows⟩ := h
  have hasked := due_isSome_iff.mp hdue
  obtain ⟨t, ht⟩ := Option.isSome_iff_exists.mp hasked.1
  obtain ⟨q, hq⟩ := Option.isSome_iff_exists.mp hasked.2.1
  obtain ⟨err, k, hrun⟩ := run_checkSingle_throws hthrows e.processId.toNumber
    (s := (((s.addRef t).addRef t).addRef q).store i q)
  rw [run_indicateObject ht, run_queryObject hq, if_pos hasked.2.2, hrun]
  refine ⟨err, _, rfl, ?_⟩
  rw [Event.due, if_pos hasked]
  rfl

/-- Behind the conversion the process is checked if it is due, and nothing is given back. -/
theorem queryObject_returns (ht : e.targetInstance.isSome) (h : ¬ e.Throws) :
    ∃ s', (queryObject i e).run s = .ok () s' ∧ s'.checked = s.checked ++ e.due.toList ∧
      s.taken.length ≤ s'.taken.length ∧ s'.released = s.released := by
  cases hq : e.queryInterface with
  | none =>
    have hdue : e.due = none := by simp [Event.due, hq]
    rw [run_queryObject_none hq]
    exact ⟨_, rfl, by simp [hdue, Sink.store], le_rfl, rfl⟩
  | some q =>
    rw [run_queryObject hq]
    by_cases hnumber : e.processId.toNumber ≠ 0
    · have hasked : e.targetInstance.isSome ∧ e.queryInterface.isSome ∧
          e.processId.toNumber ≠ 0 := ⟨ht, by simp [hq], hnumber⟩
      have hdue : e.due = some e.processId.toNumber := by rw [Event.due, if_pos hasked]
      have hreturns : ¬ e.answers.Throws := fun hthrows => h ⟨due_isSome_iff.mpr hasked, hthrows⟩
      obtain ⟨k, hrun⟩ := run_checkSingle hreturns e.processId.toNumber
        (s := (s.addRef q).store i q)
      rw [if_pos hnumber, hrun]
      refine ⟨_, rfl, ?_, by simp [Sink.logged, Sink.store, Sink.addRef], rfl⟩
      rw [hdue]
      rfl
    · have hdue : e.due = none := by simp [Event.due, hnumber]
      rw [if_neg hnumber]
      exact ⟨_, rfl, by simp [hdue, Sink.store, Sink.addRef], by simp [Sink.store, Sink.addRef],
        rfl⟩

/-- Every turn gives one reference back for two or three it takes. -/
theorem indicateObject_returns (h : ¬ e.Throws) :
    ∃ s', (indicateObject i e).run s = .ok () s' ∧ Handled e s s' := by
  cases ht : e.targetInstance with
  | none =>
    have hdue : e.due = none := by simp [Event.due, ht]
    refine ⟨s, by simp [indicateObject, ht], ⟨by simp [hdue], fun _ => rfl, by simp [ht]⟩⟩
  | some t =>
    obtain ⟨s', hrun, hchecked, htaken, hreleased⟩ :=
      queryObject_returns (i := i) (s := (s.addRef t).addRef t) (by simp [ht]) h
    rw [run_indicateObject ht, hrun]
    refine ⟨_, rfl, ⟨hchecked, by simp [ht], ?_⟩⟩
    intro _
    simp [Owes, Sink.release, Sink.addRef, hreleased] at htaken ⊢
    omega

end Objects

/-! ## The whole array -/

/-- The processes checked before the first check that throws, and the one of that check. -/
def reachedChecks : List Event → List UInt32
  | [] => []
  | e :: events => e.due.toList ++ if e.Throws then [] else reachedChecks events

section Loop

variable {events : List Event} {i : ℕ} {s : Sink}

theorem final_indicateFrom_checked :
    (Stateful.final (indicateFrom i events) s).checked = s.checked ++ reachedChecks events := by
  induction events generalizing i s with
  | nil => simp [indicateFrom, reachedChecks, Stateful.final]
  | cons e events ih =>
    by_cases h : e.Throws
    · obtain ⟨err, s', hrun, hchecked⟩ := indicateObject_throws h (i := i) (s := s)
      rw [indicateFrom, Stateful.final_bind_error hrun, hchecked]
      simp [reachedChecks, h]
    · obtain ⟨s', hrun, handled⟩ := indicateObject_returns h (i := i) (s := s)
      rw [indicateFrom, Stateful.final_bind_ok hrun, ih, handled.checked]
      simp [reachedChecks, h]

/-- The call returns unless some check throws, and owes references once some object has had a
`TargetInstance`. -/
theorem indicateFrom_returns (h : ∀ e ∈ events, ¬ e.Throws) :
    ∃ s', (indicateFrom i events).run s = .ok () s' ∧
      ((∀ e ∈ events, e.targetInstance = none) → s' = s) ∧
      ((∃ e ∈ events, e.targetInstance.isSome) → Owes s s') := by
  induction events generalizing i s with
  | nil => exact ⟨s, rfl, by simp, by simp⟩
  | cons e events ih =>
    obtain ⟨t, hfirst, handled⟩ := indicateObject_returns (h e (by simp)) (i := i) (s := s)
    obtain ⟨s', hrest, same, owes⟩ := ih (i := i + 1) (s := t) fun e he => h e (by simp [he])
    have hrun : (indicateFrom i (e :: events)).run s = .ok () s' := by
      rw [indicateFrom, EStateM.run_bind, hfirst]
      exact hrest
    refine ⟨s', hrun, ?_, ?_⟩
    · intro hnone
      rw [same fun e he => hnone e (by simp [he]), handled.same (hnone e (by simp))]
    · intro hsome
      by_cases hfound : ∃ e ∈ events, e.targetInstance.isSome
      · cases htarget : e.targetInstance with
        | none => exact handled.same htarget ▸ owes hfound
        | some t' => exact (handled.owes (by simp [htarget])).trans (owes hfound)
      · have hnone : ∀ e ∈ events, e.targetInstance = none := by simpa using hfound
        obtain ⟨e', he', htarget⟩ := hsome
        obtain rfl : e' = e := by
          apply (List.mem_cons.mp he').resolve_right
          intro hmem
          simp [hnone e' hmem] at htarget
        exact same hnone ▸ handled.owes htarget

theorem indicateFrom_throws (h : ∃ e ∈ events, e.Throws) :
    ∃ err s', (indicateFrom i events).run s = .error err s' := by
  induction events generalizing i s with
  | nil => simp at h
  | cons e events ih =>
    by_cases he : e.Throws
    · obtain ⟨err, s', hrun, -⟩ := indicateObject_throws he (i := i) (s := s)
      exact ⟨err, s', by rw [indicateFrom, EStateM.run_bind, hrun]⟩
    · obtain ⟨t, hfirst, -⟩ := indicateObject_returns he (i := i) (s := s)
      have hlater : ∃ e ∈ events, e.Throws := by simpa [he] using h
      obtain ⟨err, s', hrest⟩ := ih hlater (i := i + 1) (s := t)
      refine ⟨err, s', ?_⟩
      rw [indicateFrom, EStateM.run_bind, hfirst]
      exact hrest

theorem not_throws_of_returns {s' : Sink} (h : (indicateFrom i events).run s = .ok () s') :
    ∀ e ∈ events, ¬ e.Throws := by
  by_contra hthrows
  simp only [not_forall, not_not] at hthrows
  obtain ⟨e, he, hthrows⟩ := hthrows
  obtain ⟨err, s'', hrun⟩ := indicateFrom_throws (i := i) (s := s) ⟨e, he, hthrows⟩
  rw [h] at hrun
  cases hrun

end Loop

theorem reachedChecks_eq_iff {events : List Event} :
    reachedChecks events = events.filterMap Event.due ↔
      (∀ e ∈ events, ¬ e.Throws) ∨ EndsThrowing events := by
  induction events with
  | nil => simp [reachedChecks]
  | cons e events ih =>
    have hdue : (e :: events).filterMap Event.due =
        e.due.toList ++ events.filterMap Event.due := by
      cases h : e.due <;> simp [h]
    rw [reachedChecks, hdue, List.append_cancel_left_eq]
    by_cases h : e.Throws
    · have hsome : ¬ ∀ e' ∈ e :: events, ¬ e'.Throws := fun hall => hall e (by simp) h
      rw [if_pos h, EndsThrowing, if_pos h, or_iff_right hsome, eq_comm]
    · simp [h, EndsThrowing, ih]

theorem final_indicate_checked (events : List Event) (k : Handles) :
    (Stateful.final (indicate events) (Sink.start events k)).checked = reachedChecks events :=
  final_indicateFrom_checked

/-- Whenever the call returns, exactly the processes due have been checked, in order. -/
theorem checked_of_returns {events : List Event} {k : Handles} {s : Sink}
    (h : (indicate events).run (Sink.start events k) = .ok () s) :
    s.checked = events.filterMap Event.due := by
  have hfinal := final_indicate_checked events k
  rw [Stateful.final, h] at hfinal
  exact hfinal.trans (reachedChecks_eq_iff.mpr (.inl (not_throws_of_returns h)))

theorem Delivered.untouched {events : List Event} (h : Delivered events) : Untouched events := by
  have hchecked := (final_indicate_checked events Handles.empty).symm.trans (h.checked _)
  rcases reachedChecks_eq_iff.mp hchecked with hreturns | hends
  · left
    intro e he
    obtain ⟨s, hrun, -, owes⟩ := indicateFrom_returns hreturns (i := 0)
      (s := Sink.start events Handles.empty)
    have hperm := List.perm_iff_count.mpr (h.references _ s hrun)
    by_contra htarget
    have := owes ⟨e, he, Option.isSome_iff_ne_none.mpr htarget⟩
    simp only [Owes, Sink.start, List.length_nil, hperm.length_eq] at this
    omega
  · exact .inr hends

theorem EndsThrowing.exists_throws {events : List Event} (h : EndsThrowing events) :
    ∃ e ∈ events, e.Throws := by
  induction events with
  | nil => exact h.elim
  | cons e events ih =>
    by_cases he : e.Throws
    · exact ⟨e, by simp, he⟩
    · rw [EndsThrowing, if_neg he] at h
      obtain ⟨e', he', hthrows⟩ := ih h
      exact ⟨e', by simp [he'], hthrows⟩

theorem Untouched.delivered {events : List Event} (h : Untouched events) : Delivered events := by
  rcases h with hnone | hends
  · have hreturns : ∀ e ∈ events, ¬ e.Throws := by
      intro e he hthrows
      simp [due_isSome_iff, Event.Throws, hnone e he] at hthrows
    have hstate : ∀ k s, (indicate events).run (Sink.start events k) = .ok () s →
        s = Sink.start events k := by
      intro k s hs
      obtain ⟨s', hrun, same, -⟩ := indicateFrom_returns hreturns (i := 0)
        (s := Sink.start events k)
      rw [indicate, hrun] at hs
      exact (EStateM.Result.ok.inj hs).2.symm.trans (same hnone)
    refine ⟨?_, ?_, ?_⟩
    · intro k
      exact (final_indicate_checked events k).trans (reachedChecks_eq_iff.mpr (.inl hreturns))
    · intro k s hs
      rw [hstate k s hs]
      rfl
    · intro k s hs p
      rw [hstate k s hs]
      rfl
  · have hfails : ∀ k s, (indicate events).run (Sink.start events k) ≠ .ok () s := by
      intro k s hs
      obtain ⟨e, he, hthrows⟩ := hends.exists_throws
      exact not_throws_of_returns hs e he hthrows
    refine ⟨?_, ?_, ?_⟩
    · intro k
      exact (final_indicate_checked events k).trans (reachedChecks_eq_iff.mpr (.inr hends))
    · intro k s hs
      exact absurd hs (hfails k s)
    · intro k s hs
      exact absurd hs (hfails k s)

/-- The events are delivered with array and references respected exactly when no object has a
`TargetInstance`, or when the check of the last process due does not return. -/
theorem delivered_iff (events : List Event) : Delivered events ↔ Untouched events :=
  ⟨Delivered.untouched, Untouched.delivered⟩

/-- A created process with the identifier 4, which cannot be opened. -/
def created : Event where
  pointer := 16
  targetInstance := some 32
  queryInterface := some 48
  processId := .value 4
  answers := { named fun _ => [] with openProcess := null }

/-- The references to the created process are never given back, and its pointer replaces the
caller's. -/
theorem not_always_delivered : ¬ ∀ events, Delivered events := by
  intro h
  have hthrows : ¬ created.Throws := fun hthrows => hthrows.2.1 rfl
  rcases (h [created]).untouched with hnone | hends
  · exact absurd (hnone created (by simp)) (by simp [created])
  · obtain ⟨e, he, hends⟩ := hends.exists_throws
    obtain rfl : e = created := by simpa using he
    exact hthrows hends

end ComputerLock.Process
