import Mathlib.Data.List.Perm.Subperm
import ComputerLock.Library.Runs
import ComputerLock.Process.Handler

/-!
# Handle accounting

The debt of the client is what it has not closed, and what it has closed without having it.
No check lowers the debt, so the books are balanced as long as no check raises it.
-/

namespace ComputerLock.Process
open Library Common

namespace Handles

/-- Every handle has been closed as often as it was given, and nothing else has been closed. -/
def Balanced (k : Handles) : Prop :=
  (∀ h, k.obtained.count h = k.closed.count h) ∧ k.strays = []

/-! ## The debt -/

/-- What holds whether something is owed or not. -/
structure Accounted (k : Handles) : Prop where
  count_le : ∀ h, k.closed.count h ≤ k.obtained.count h
  null_free : null ∉ k.obtained

def debt (k : Handles) : ℕ := k.obtained.length - k.closed.length + k.strays.length

theorem Accounted.length_le {k : Handles} (h : k.Accounted) :
    k.closed.length ≤ k.obtained.length :=
  (List.subperm_iff_count.mpr h.count_le).length_le

theorem Accounted.balanced_iff {k : Handles} (h : k.Accounted) : k.Balanced ↔ k.debt = 0 := by
  have hle := h.length_le
  constructor
  · rintro ⟨hcount, hstrays⟩
    have hperm := (List.perm_iff_count.mpr hcount).length_eq
    simp [debt, hstrays, hperm]
  · intro hdebt
    simp only [debt, Nat.add_eq_zero_iff, List.length_eq_zero_iff] at hdebt
    have hsub := List.subperm_iff_count.mpr h.count_le
    have hperm := hsub.perm_of_length_le (by omega)
    exact ⟨fun x => (hperm.count_eq x).symm, hdebt.2⟩

/-- The logs after further entries. -/
def extend (k : Handles) (obtained closed strays : List ℕ) : Handles :=
  ⟨k.obtained ++ obtained, k.closed ++ closed, k.strays ++ strays⟩

section Extend

variable {k : Handles} {o c s : List ℕ}

theorem Accounted.extend (h : k.Accounted) (count_le : ∀ x, c.count x ≤ o.count x)
    (null_free : null ∉ o) : (k.extend o c s).Accounted where
  count_le x := by
    have := h.count_le x
    have := count_le x
    simp only [Handles.extend, List.count_append]
    omega
  null_free hmem := (List.mem_append.mp hmem).elim h.null_free null_free

theorem Accounted.debt_extend (h : k.Accounted) (hlen : c.length ≤ o.length) :
    (k.extend o c s).debt = k.debt + (o.length - c.length) + s.length := by
  have := h.length_le
  simp only [debt, Handles.extend, List.length_append]
  omega

theorem obtain_eq {x : ℕ} (h : x ≠ null) : k.obtain x = k.extend [x] [] [] := by
  simp [obtain, h, Handles.extend]

theorem Accounted.closeHandle_null (h : k.Accounted) :
    k.closeHandle null = k.extend [] [] [null] := by
  have hnot : ¬ k.Open null := by
    rw [Open, List.count_eq_zero_of_not_mem h.null_free]
    exact Nat.not_lt_zero _
  simp [closeHandle, hnot, Handles.extend]

/-- A handle that has just been obtained is open. -/
theorem Accounted.closeHandle_extend (h : k.Accounted) {x : ℕ} (hx : x ∈ o) :
    (k.extend o [] []).closeHandle x = k.extend o [x] [] := by
  have hopen : (k.extend o [] []).Open x := by
    have := h.count_le x
    have := List.count_pos_iff.mpr hx
    simp only [Open, Handles.extend, List.count_append, List.append_nil]
    omega
  rw [closeHandle, if_pos hopen]
  simp [Handles.extend]

theorem extend_extend (k : Handles) (o o' : List ℕ) :
    (k.extend o [] []).extend o' [] [] = k.extend (o ++ o') [] [] := by
  simp [Handles.extend]

end Extend

end Handles

/-! ## One check -/

/-- The handle of the thread, if one is created. -/
def Answers.threads (a : Answers) : List ℕ :=
  if a.virtualAllocEx = true ∧ a.createRemoteThread ≠ null then [a.createRemoteThread] else []

/-- The process is opened, and hooked by no thread. -/
def Answers.CleanOpen (a : Answers) : Prop :=
  a.openProcess ≠ null ∧ (a.Hooked → a.threads = [])

/-- The process is opened, and need not be hooked. -/
def Answers.CleanSingle (a : Answers) : Prop := a.openProcess ≠ null ∧ ¬ a.Hooked

/-- The debt does not fall, and stays the same only if all is clean. -/
structure Spends (k k' : Handles) (clean : Prop) : Prop where
  accounted : k'.Accounted
  le : k.debt ≤ k'.debt
  eq_iff : k'.debt = k.debt ↔ clean

section Checks

variable {a : Answers} {k k' : Handles}

theorem null_not_mem_threads (a : Answers) : null ∉ a.threads := by
  unfold Answers.threads
  split_ifs with h
  · simpa using h.2.symm
  · simp

theorem Answers.inject_eq (a : Answers) (k : Handles) :
    a.inject k = k.extend a.threads [] [] := by
  unfold inject threads Handles.obtain
  split_ifs <;> simp_all [Handles.extend]

theorem spends_extend {o c s : List ℕ} {clean : Prop} (h : k.Accounted)
    (count_le : ∀ x, c.count x ≤ o.count x) (null_free : null ∉ o)
    (hclean : o.length = c.length ∧ s = [] ↔ clean) : Spends k (k.extend o c s) clean := by
  have hlen : c.length ≤ o.length := (List.subperm_iff_count.mpr count_le).length_le
  refine ⟨h.extend count_le null_free, ?_, ?_⟩
  · rw [h.debt_extend hlen]
    omega
  · rw [h.debt_extend hlen, ← hclean, ← List.length_eq_zero_iff]
    omega

/-- `CloseHandle(NULL)` is owed. -/
theorem spends_closeHandle_null {clean : Prop} (h : k.Accounted) (hclean : ¬ clean) :
    Spends k (k.closeHandle null) clean := by
  rw [h.closeHandle_null]
  exact spends_extend h (by simp) (by simp) (by simpa using hclean)

/-- A process that is let off is opened and closed. -/
theorem spends_letOff {clean : Prop} (h : k.Accounted) {x : ℕ} (hx : x ≠ null) (hclean : clean) :
    Spends k ((k.extend [x] [] []).closeHandle x) clean := by
  rw [h.closeHandle_extend (by simp)]
  exact spends_extend h (by simp) (by simpa using hx.symm) (by simpa using hclean)

theorem null_not_mem_cons_threads (h : a.openProcess ≠ null) :
    null ∉ a.openProcess :: a.threads := by
  intro hmem
  rcases List.mem_cons.mp hmem with hnull | hnull
  · exact h hnull.symm
  · exact null_not_mem_threads a hnull

theorem checkOpenProcess_spends (h : k.Accounted) (hrun : (checkOpenProcess a).run k = .ok () k') :
    Spends k k' a.CleanOpen := by
  by_cases hnull : a.openProcess = null
  · rw [run_checkOpenProcess_null hnull] at hrun
    obtain rfl := (EStateM.Result.ok.inj hrun).2
    exact spends_closeHandle_null h fun clean => clean.1 hnull
  · rw [run_checkOpenProcess hnull, Handles.obtain_eq hnull, Answers.inject_eq,
      Handles.extend_extend] at hrun
    match hpotential : a.potential, hrun with
    | .ok true, hrun =>
      have hooked := Answers.potential_eq_true_iff.mp hpotential
      obtain rfl := (EStateM.Result.ok.inj hrun).2
      rw [h.closeHandle_extend (by simp)]
      refine spends_extend h ?_ (null_not_mem_cons_threads hnull) ?_
      · intro x
        exact (List.sublist_append_left _ _).count_le x
      · simp [Answers.CleanOpen, hnull, hooked]
    | .ok false, hrun =>
      obtain rfl := (EStateM.Result.ok.inj hrun).2
      apply spends_letOff h hnull
      exact ⟨hnull, fun hooked => absurd hooked (Answers.not_hooked_of_potential hpotential)⟩

theorem checkSingleProcess_spends (h : k.Accounted)
    (hrun : (checkSingleProcess a).run k = .ok () k') : Spends k k' a.CleanSingle := by
  by_cases hnull : a.openProcess = null
  · rw [run_checkSingleProcess_null hnull] at hrun
    obtain rfl := (EStateM.Result.ok.inj hrun).2
    exact spends_closeHandle_null h fun clean => clean.1 hnull
  · rw [run_checkSingleProcess hnull, Handles.obtain_eq hnull, Answers.inject_eq,
      Handles.extend_extend] at hrun
    match hpotential : a.potential, hrun with
    | .ok true, hrun =>
      have hooked := Answers.potential_eq_true_iff.mp hpotential
      obtain rfl := (EStateM.Result.ok.inj hrun).2
      apply spends_extend h (by simp) (null_not_mem_cons_threads hnull)
      simp [Answers.CleanSingle, hooked]
    | .ok false, hrun =>
      obtain rfl := (EStateM.Result.ok.inj hrun).2
      apply spends_letOff h hnull
      exact ⟨hnull, Answers.not_hooked_of_potential hpotential⟩

end Checks

/-! ## Runs -/

theorem Spends.refl {k : Handles} (h : k.Accounted) : Spends k k True :=
  ⟨h, le_rfl, by simp⟩

theorem Spends.trans {k k' k'' : Handles} {p q : Prop} (h : Spends k k' p)
    (h' : Spends k' k'' q) : Spends k k'' (p ∧ q) := by
  have hle := h.le
  have hle' := h'.le
  refine ⟨h'.accounted, hle.trans hle', ?_⟩
  rw [← h.eq_iff, ← h'.eq_iff]
  omega

theorem checkOpenProcesses_spends {answers : List Answers} {k k' : Handles} (h : k.Accounted)
    (hrun : (checkOpenProcesses answers).run k = .ok () k') :
    Spends k k' (∀ a ∈ answers, a.CleanOpen) := by
  induction answers generalizing k with
  | nil =>
    obtain rfl := (EStateM.Result.ok.inj hrun).2
    simpa using Spends.refl h
  | cons a answers ih =>
    rw [checkOpenProcesses] at hrun
    cases hstep : (checkOpenProcess a).run k with
    | error e t =>
      rw [Stateful.run_forM_cons_error hstep] at hrun
      cases hrun
    | ok u t =>
      rw [Stateful.run_forM_cons_ok hstep] at hrun
      have first := checkOpenProcess_spends h hstep
      simpa using first.trans (ih first.accounted hrun)

/-- A call from outside. -/
inductive Op where
  | checkOpenProcesses (answers : List Answers)
  | checkSingleProcess (a : Answers)

namespace Op

def program : Op → EStateM Fault Handles Unit
  | .checkOpenProcesses answers => Process.checkOpenProcesses answers
  | .checkSingleProcess a => Process.checkSingleProcess a

/-- A call that throws ends the client. -/
def step (k : Handles) (op : Op) : Option Handles :=
  match op.program.run k with
  | .ok _ k' => some k'
  | .error _ _ => none

/-- Every process is opened, a process that is running already is hooked by no thread, and a new
one need not be hooked. -/
def Clean : Op → Prop
  | .checkOpenProcesses answers => ∀ a ∈ answers, a.CleanOpen
  | .checkSingleProcess a => a.CleanSingle

end Op

section Steps

variable {k k' : Handles} {op : Op}

theorem step_spends (h : k.Accounted) (moved : op.step k = some k') : Spends k k' op.Clean := by
  unfold Op.step at moved
  cases hrun : op.program.run k with
  | error e t => simp [hrun] at moved
  | ok u t =>
    obtain rfl : t = k' := by simpa [hrun] using moved
    cases op with
    | checkOpenProcesses answers => exact checkOpenProcesses_spends h hrun
    | checkSingleProcess a => exact checkSingleProcess_spends h hrun

/-- From balanced books a call leads to balanced ones exactly when it is clean. -/
theorem step_balanced_iff (h : k.Accounted) (balanced : k.Balanced)
    (moved : op.step k = some k') : k'.Balanced ↔ op.Clean := by
  have spends := step_spends h moved
  have hzero := h.balanced_iff.mp balanced
  rw [spends.accounted.balanced_iff, ← spends.eq_iff, hzero]

theorem empty_accounted : Handles.empty.Accounted :=
  ⟨by simp [Handles.empty], by simp [Handles.empty]⟩

theorem empty_balanced : Handles.empty.Balanced := ⟨by simp [Handles.empty], rfl⟩

/-- As long as all calls are clean, the books are balanced whenever one has returned. -/
theorem balanced_of_reaches
    (h : Runs.Reaches Op.step (fun _ op => op.Clean) Handles.empty k) : k.Balanced := by
  have keep : ∀ k (op : Op) k', k.Accounted ∧ k.Balanced → op.Clean → op.step k = some k' →
      k'.Accounted ∧ k'.Balanced := fun k op k' hk clean moved =>
    ⟨(step_spends hk.1 moved).accounted, (step_balanced_iff hk.1 hk.2 moved).mpr clean⟩
  exact (h.invariant keep ⟨empty_accounted, empty_balanced⟩).2

end Steps

/-- The process `C:\W\a`, when the system directory is `C:\W`. -/
def system (disk : Disk) : Answers :=
  { named disk with
    openProcess := 8
    getModuleFileNameEx := some [67, 58, 92, 87, 92, 97] }

/-- A process that has to be hooked, and gives no memory for it. -/
def refusing (disk : Disk) : Answers := { named disk with virtualAllocEx := false }

/-- A sweep comes upon `refusing` and `system`, and another process like the latter is created. -/
theorem balanced_swept : Handles.Balanced ⟨[4, 8, 8], [4, 8, 8], []⟩ := by
  have pathed : ¬ (system fun _ => []).Hooked := by
    rintro ⟨n, -, hsystem, -⟩
    exact absurd hsystem (by decide)
  have clean : (system fun _ => []).CleanSingle := ⟨by simp [system, null], pathed⟩
  have swept : ∀ a ∈ [refusing fun _ => [], system fun _ => []], a.CleanOpen := by
    rintro a (_ | ⟨_, _ | ⟨_, ⟨⟩⟩⟩)
    · exact ⟨by simp [refusing, named, null], fun _ => rfl⟩
    · exact ⟨by simp [system, null], fun hooked => absurd hooked pathed⟩
  have first : Runs.Reaches Op.step (fun _ op => op.Clean) Handles.empty ⟨[4, 8], [4, 8], []⟩ :=
    Runs.Reaches.refl.tail (a := .checkOpenProcesses [refusing fun _ => [], system fun _ => []])
      swept rfl
  exact balanced_of_reaches
    (first.tail (a := .checkSingleProcess (system fun _ => [])) clean rfl)

/-- A process is created that has to be hooked: neither its handle nor that of the thread is
closed. -/
theorem not_always_balanced :
    ¬ ∀ k, Runs.Reaches Op.step (fun _ _ => True) Handles.empty k → k.Balanced := by
  intro h
  have balanced := h ⟨[4, 8], [], []⟩
    (Runs.Reaches.refl.tail (a := .checkSingleProcess (named fun _ => [])) trivial rfl)
  exact absurd (balanced.1 4) (by decide)

end ComputerLock.Process
