import Mathlib.Data.List.Perm.Subperm
import ComputerLock.Library.Runs
import ComputerLock.Trampoline.Hook

/-!
# How many files a process can open

Nobody closes the handle through which the hook has read the extensions file. The process has
room for a limited number of handles, and every call that gets so far as to open a file has first
taken up a place for good.
-/

namespace ComputerLock.Trampoline
open Library Common

/-- A call that has returned, and what it has returned. -/
structure Served where
  call : HookedCall
  returned : ℕ
  /-- there was room for a handle when the call was made -/
  room : Bool

/-- A process with the hook in it. -/
structure Inspected where
  process : Process
  served : List Served

inductive Use where
  | call (c : HookedCall)
  | closeHandle (hObject : ℕ)

/-- The hook has read the extensions file for this call. -/
def Served.Examined (v : Served) : Prop := v.call.own ≠ invalidHandleValue

instance (v : Served) : Decidable v.Examined := inferInstanceAs (Decidable (_ ≠ _))

/-- The extensions file could not be opened although there was room. -/
def Served.Denied (v : Served) : Prop := ¬ v.Examined ∧ v.room = true

instance (v : Served) : Decidable v.Denied := inferInstanceAs (Decidable (_ ∧ _))

/-- The call has returned a handle. -/
def Served.Answered (v : Served) : Prop := v.returned ≠ invalidHandleValue

instance (v : Served) : Decidable v.Answered := inferInstanceAs (Decidable (_ ≠ _))

namespace Inspected

def start (handles : List ℕ) : Inspected := ⟨⟨handles, [], 0⟩, []⟩

def examined (s : Inspected) : List Served := s.served.filter (·.Examined)

def denied (s : Inspected) : List Served := s.served.filter (·.Denied)

def answered (s : Inspected) : List Served := s.served.filter (·.Answered)

/-- The handles of the extensions file. -/
def leaked (s : Inspected) : List ℕ := s.examined.map (·.call.own)

section Steps

variable (settingsPath : WString) (limit : ℕ)

/-- A call that does not return ends the process. -/
def step (s : Inspected) : Use → Option Inspected
  | .call c =>
    match (hookCreateFile settingsPath c).run s.process with
    | .ok returned process =>
      some ⟨process, ⟨c, returned, s.process.handles.length < limit⟩ :: s.served⟩
    | .error _ _ => none
  | .closeHandle hObject =>
    if hObject ∈ s.process.handles then
      some { s with process :=
        { s.process with handles := s.process.handles.erase hObject } }
    else none

/-- The system gives out a handle only while there is room for it; the process closes handles that
its own calls have returned. -/
def Admitted (s : Inspected) : Use → Prop
  | .call c =>
    (c.own ≠ invalidHandleValue → s.process.handles.length < limit) ∧
    (c.verdict = false → c.result ≠ invalidHandleValue →
      (s.process.called (settingsCall settingsPath) c.own).handles.length < limit)
  | .closeHandle hObject => hObject ∉ s.leaked

instance (s : Inspected) (a : Use) : Decidable (s.Admitted settingsPath limit a) :=
  match a with
  | .call _ => inferInstanceAs (Decidable (_ ∧ _))
  | .closeHandle _ => inferInstanceAs (Decidable (_ ∉ _))

/-- The handles of the extensions file are among the open ones, which fit, and a call that has
returned a handle was examined, unless the extensions file could not be opened. -/
structure Accounted (s : Inspected) : Prop where
  leaked : s.leaked.Subperm s.process.handles
  room : s.process.handles.length ≤ limit
  answered : ∀ v ∈ s.served, v.Answered → v.Examined ∨ v.Denied

variable {settingsPath limit} {s s' : Inspected}

theorem leaked_cons (process : Process) (v : Served) (served : List Served) :
    leaked ⟨process, v :: served⟩ =
      if v.Examined then v.call.own :: leaked ⟨process, served⟩ else leaked ⟨process, served⟩ := by
  unfold leaked examined
  by_cases h : v.Examined <;> simp [h]

theorem length_called_handles {p : Process} {call : CreateFileCall} {returned : ℕ}
    (hroom : returned ≠ invalidHandleValue → p.handles.length < limit)
    (hle : p.handles.length ≤ limit) : (p.called call returned).handles.length ≤ limit := by
  unfold Process.called
  split_ifs with h
  · exact hle
  · exact hroom h

theorem handles_subperm_called (p : Process) (call : CreateFileCall) (returned : ℕ) :
    p.handles.Subperm (p.called call returned).handles := by
  unfold Process.called
  split_ifs
  · exact List.Subperm.refl _
  · exact (List.sublist_cons_self _ _).subperm

/-- The handle the hook has got for a call stays open behind it. -/
theorem leaked_subperm_called (settingsPath : WString) {v : Served}
    (h : s.leaked.Subperm s.process.handles) (process : Process) :
    (leaked ⟨process, v :: s.served⟩).Subperm
      (s.process.called (settingsCall settingsPath) v.call.own).handles := by
  rw [leaked_cons]
  split_ifs with hexamined
  · rw [Process.called, if_neg hexamined]
    exact (List.subperm_cons _).mpr h
  · exact h.trans (handles_subperm_called ..)

/-- Without room for the handle of the extensions file there is none for the call's either. -/
theorem examined_of_answered {c : HookedCall} (hok : s.Admitted settingsPath limit (.call c))
    (hv : c.verdict = false) {v : Served}
    (hserved : v = ⟨c, c.result, s.process.handles.length < limit⟩) :
    v.Answered → v.Examined ∨ v.Denied := by
  subst hserved
  intro hanswered
  by_cases hinvalid : c.own = invalidHandleValue
  · have hroom := hok.2 hv hanswered
    rw [Process.called, if_pos hinvalid] at hroom
    exact .inr ⟨not_not.mpr hinvalid, decide_eq_true hroom⟩
  · exact .inl hinvalid

theorem call_accounted {c : HookedCall} (h : s.Accounted limit)
    (hok : s.Admitted settingsPath limit (.call c))
    (hstep : s.step settingsPath limit (.call c) = some s') : s'.Accounted limit := by
  have hopened : (s.process.called (settingsCall settingsPath) c.own).handles.length ≤ limit :=
    length_called_handles hok.1 h.room
  have hfits : c.Fits := by
    by_contra hnot
    rw [step, run_hookCreateFile_of_not_fits settingsPath hnot] at hstep
    cases hstep
  rw [step, run_hookCreateFile_of_fits settingsPath hfits] at hstep
  cases hv : c.verdict with
  | true =>
    rw [hv] at hstep
    obtain rfl := Option.some.inj hstep
    refine ⟨leaked_subperm_called settingsPath h.leaked _, hopened, ?_⟩
    exact List.forall_mem_cons.mpr ⟨fun hanswered => absurd rfl hanswered, h.answered⟩
  | false =>
    rw [hv] at hstep
    obtain rfl := Option.some.inj hstep
    refine ⟨?_, length_called_handles (hok.2 hv) hopened, ?_⟩
    · exact (leaked_subperm_called settingsPath h.leaked _).trans (handles_subperm_called ..)
    · exact List.forall_mem_cons.mpr ⟨examined_of_answered hok hv rfl, h.answered⟩

theorem closeHandle_accounted {hObject : ℕ} (h : s.Accounted limit)
    (hok : s.Admitted settingsPath limit (.closeHandle hObject))
    (hstep : s.step settingsPath limit (.closeHandle hObject) = some s') : s'.Accounted limit := by
  obtain ⟨-, rfl⟩ := Runs.guarded_eq_some.mp hstep
  have herase := h.leaked.erase hObject
  rw [List.erase_of_not_mem hok] at herase
  exact ⟨herase, (List.length_erase_le ..).trans h.room, h.answered⟩

theorem step_accounted {a : Use} (h : s.Accounted limit)
    (hok : s.Admitted settingsPath limit a) (hstep : s.step settingsPath limit a = some s') :
    s'.Accounted limit := by
  cases a with
  | call c => exact call_accounted h hok hstep
  | closeHandle hObject => exact closeHandle_accounted h hok hstep

theorem countP_le_add {α : Type*} {l : List α} {p q r : α → Bool}
    (h : ∀ a ∈ l, p a → q a ∨ r a) : l.countP p ≤ l.countP q + l.countP r := by
  induction l with
  | nil => simp
  | cons a l ih =>
    obtain ⟨ha, hl⟩ := List.forall_mem_cons.mp h
    have := ih hl
    simp only [List.countP_cons]
    by_cases hp : p a
    · rcases ha hp with hq | hr
      · simp only [hp, hq, if_true]
        omega
      · simp only [hp, hr, if_true]
        omega
    · simp only [hp, Bool.false_eq_true, if_false]
      omega

theorem Accounted.answered_le (h : s.Accounted limit) :
    s.answered.length ≤ s.examined.length + s.denied.length := by
  rw [Inspected.answered, examined, denied]
  simp only [← List.countP_eq_length_filter]
  exact countP_le_add fun v hv => by simpa using h.answered v hv

end Steps

/-- In the whole life of a process no more calls read the extensions file than there is room for
handles, whatever the process closes in between, and no more return a handle, but for those that
could not open the extensions file. -/
theorem reaches_exhausted {settingsPath : WString} {limit : ℕ} {handles : List ℕ} {s : Inspected}
    (hroom : handles.length ≤ limit)
    (h : Runs.Reaches (step settingsPath limit) (Admitted settingsPath limit) (start handles) s) :
    s.leaked.Subperm s.process.handles ∧ s.examined.length ≤ limit ∧
      (∀ v ∈ s.served, v.Answered → v.Examined ∨ v.Denied) ∧
      s.answered.length ≤ s.examined.length + s.denied.length := by
  have haccounted : s.Accounted limit := by
    apply h.invariant (fun _ _ _ hs hok hstep => step_accounted hs hok hstep)
    exact ⟨List.nil_subperm, hroom, by simp [start]⟩
  refine ⟨haccounted.leaked, ?_, haccounted.answered, haccounted.answered_le⟩
  calc s.examined.length = s.leaked.length := by rw [leaked, List.length_map]
    _ ≤ s.process.handles.length := haccounted.leaked.length_le
    _ ≤ limit := haccounted.room

/-- With room for two handles one call gets its file; what it has opened is closed again, and the
next call takes up that place without getting a file. -/
theorem reaches_exhausted_two : ∃ s : Inspected,
    s.served.map Served.returned = [invalidHandleValue, 8] ∧ s.process.handles = [12, 4] ∧
    s.leaked.Subperm s.process.handles ∧ s.examined.length ≤ 2 ∧
      (∀ v ∈ s.served, v.Answered → v.Examined ∨ v.Denied) ∧
      s.answered.length ≤ s.examined.length + s.denied.length := by
  let again : HookedCall := { shortCall with own := 12, result := invalidHandleValue }
  have first : Runs.Reaches (step [] 2) (Admitted [] 2) (start []) _ :=
    Runs.Reaches.refl.tail (a := .call shortCall) (by decide) rfl
  have closed := first.tail (a := .closeHandle 8) (by decide) rfl
  have run := closed.tail (a := .call again) (by decide) rfl
  exact ⟨_, rfl, rfl, reaches_exhausted (by decide) run⟩

end Inspected

end ComputerLock.Trampoline
