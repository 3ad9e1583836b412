import ComputerLock.Library.Stateful
import ComputerLock.Process.AllowList

/-!
# The process handler

`CheckProcessPotential` opens a process, asks for its name and its path, and returns the handle
when the process has to be hooked; otherwise it closes it. Both callers inject the hook library,
and only `CheckOpenProcesses` closes the handle afterwards.
-/

namespace ComputerLock.Process
open Library Common

/-! ## Handles -/

/-- The value of `HANDLE` that is no handle. -/
def null : ℕ := 0

/-- The handles of the client, as the system has given and taken them. -/
structure Handles where
  /-- every handle a call returned -/
  obtained : List ℕ
  /-- every open handle `CloseHandle` was called on -/
  closed : List ℕ
  /-- every other value it was called on -/
  strays : List ℕ

namespace Handles

def empty : Handles := ⟨[], [], []⟩

/-- A value may be given again once it has been closed. -/
def Open (k : Handles) (h : ℕ) : Prop := k.closed.count h < k.obtained.count h

instance (k : Handles) (h : ℕ) : Decidable (k.Open h) := inferInstanceAs (Decidable (_ < _))

def obtain (h : ℕ) (k : Handles) : Handles :=
  if h = null then k else { k with obtained := k.obtained ++ [h] }

def closeHandle (h : ℕ) (k : Handles) : Handles :=
  if k.Open h then { k with closed := k.closed ++ [h] }
  else { k with strays := k.strays ++ [h] }

end Handles

/-! ## One check -/

/-- `TEXT("<unknown>")` -/
def unknown : WString := [60, 117, 110, 107, 110, 111, 119, 110, 62]

/-- What the system answers while a process is checked. A string is what a buffer holds up to its
terminator, and `none` that the call fails. -/
structure Answers where
  openProcess : ℕ
  enumProcessModules : Bool
  getModuleBaseName : Option WString
  getModuleFileNameEx : Option WString
  /-- what `filename` holds when nothing has been written to it -/
  leftover : WString
  getWindowsDirectory : WString
  /-- the settings files as they are during the check -/
  disk : Disk
  virtualAllocEx : Bool
  createRemoteThread : ℕ

namespace Answers

/-- What `szProcessName` holds; `none` when the name cannot be retrieved. -/
def processName (a : Answers) : Option WString :=
  if a.enumProcessModules then a.getModuleBaseName else some unknown

/-- `filename` in `IsSystemProcess` -/
def filename (a : Answers) : WString := a.getModuleFileNameEx.getD a.leftover

end Answers

/-- `wstring(filename).find(wstring(windir)) != npos` -/
def isSystemProcess (a : Answers) : Bool := a.getWindowsDirectory <:+: a.filename

/-- The end of a check that does not hand the process out. -/
def release (processHandle : ℕ) : EStateM Fault Handles (Bool × ℕ) := do
  modify (·.closeHandle processHandle)
  return (false, null)

/-- The verdict, and the value of `hProcess`. -/
def checkProcessPotential (a : Answers) : EStateM Fault Handles (Bool × ℕ) := do
  modify (·.obtain a.openProcess)
  if a.openProcess ≠ null then
    match a.processName with
    | none => release a.openProcess
    | some szProcessName =>
      let isSystem := isSystemProcess a
      let isSafe ← Stateful.ofExcept (isProcessSafe szProcessName a.disk)
      if isSystem || isSafe then
        release a.openProcess
      else
        return (true, a.openProcess)
  else
    -- the handle that could not be opened is closed all the same
    release a.openProcess

/-- The handle of the remote thread is not kept. -/
def injectHookDLL (a : Answers) : EStateM Fault Handles Unit := do
  if a.virtualAllocEx then
    modify (·.obtain a.createRemoteThread)

/-- The body of the loop of `CheckOpenProcesses`. -/
def checkOpenProcess (a : Answers) : EStateM Fault Handles Unit := do
  let (potential, currentProcess) ← checkProcessPotential a
  if potential then
    injectHookDLL a
    modify (·.closeHandle currentProcess)

def checkOpenProcesses (answers : List Answers) : EStateM Fault Handles Unit :=
  answers.forM checkOpenProcess

def checkSingleProcess (a : Answers) : EStateM Fault Handles Unit := do
  let (potential, _) ← checkProcessPotential a
  if potential then
    injectHookDLL a

/-! ## What a check decides -/

/-- Whether an opened process is handed out. -/
def Answers.potential (a : Answers) : Except Fault Bool :=
  match a.processName with
  | none => .ok false
  | some szProcessName => match isProcessSafe szProcessName a.disk with
    | .error e => .error e
    | .ok isSafe => .ok !(isSystemProcess a || isSafe)

/-- The name can be retrieved, and neither path nor name makes the process a safe one. -/
def Answers.Hooked (a : Answers) : Prop :=
  ∃ n, a.processName = some n ∧ isSystemProcess a = false ∧ isProcessSafe n a.disk = .ok false

theorem Answers.potential_eq_true_iff {a : Answers} : a.potential = .ok true ↔ a.Hooked := by
  unfold potential Hooked
  cases a.processName with
  | none => simp
  | some n => cases hsafe : isProcessSafe n a.disk <;> simp [hsafe]

theorem Answers.not_hooked_of_potential {a : Answers} (h : a.potential = .ok false) :
    ¬ a.Hooked := by
  rw [← potential_eq_true_iff, h]
  simp

section Runs

variable {a : Answers} {k : Handles}

theorem run_release (h : ℕ) : (release h).run k = .ok (false, null) (k.closeHandle h) := rfl

theorem run_checkProcessPotential_null (h : a.openProcess = null) :
    (checkProcessPotential a).run k = .ok (false, null) (k.closeHandle null) := by
  have hobtain : k.obtain a.openProcess = k := if_pos h
  rw [checkProcessPotential, EStateM.run_bind, if_neg (not_not.mpr h), h]
  rw [h] at hobtain
  simp only [EStateM.run_modify, hobtain, run_release]

theorem run_checkProcessPotential (h : a.openProcess ≠ null) :
    (checkProcessPotential a).run k =
      match a.potential with
      | .error e => .error e (k.obtain a.openProcess)
      | .ok true => .ok (true, a.openProcess) (k.obtain a.openProcess)
      | .ok false => .ok (false, null) ((k.obtain a.openProcess).closeHandle a.openProcess) := by
  rw [checkProcessPotential, EStateM.run_bind, if_pos h]
  simp only [EStateM.run_modify, Answers.potential]
  cases a.processName with
  | none => rfl
  | some n =>
    dsimp only
    cases isProcessSafe n a.disk with
    | error e => rfl
    | ok isSafe => cases isSystemProcess a <;> cases isSafe <;> rfl

/-- What `InjectHookDLL` does to the handles. -/
def Answers.inject (a : Answers) (k : Handles) : Handles :=
  if a.virtualAllocEx then k.obtain a.createRemoteThread else k

theorem run_injectHookDLL : (injectHookDLL a).run k = .ok () (a.inject k) := by
  unfold injectHookDLL Answers.inject
  split_ifs <;> rfl

theorem run_checkOpenProcess_null (h : a.openProcess = null) :
    (checkOpenProcess a).run k = .ok () (k.closeHandle null) := by
  rw [checkOpenProcess, EStateM.run_bind, run_checkProcessPotential_null h]
  rfl

theorem run_checkSingleProcess_null (h : a.openProcess = null) :
    (checkSingleProcess a).run k = .ok () (k.closeHandle null) := by
  rw [checkSingleProcess, EStateM.run_bind, run_checkProcessPotential_null h]
  rfl

theorem run_checkOpenProcess (h : a.openProcess ≠ null) :
    (checkOpenProcess a).run k =
      match a.potential with
      | .error e => .error e (k.obtain a.openProcess)
      | .ok true => .ok () ((a.inject (k.obtain a.openProcess)).closeHandle a.openProcess)
      | .ok false => .ok () ((k.obtain a.openProcess).closeHandle a.openProcess) := by
  rw [checkOpenProcess, EStateM.run_bind, run_checkProcessPotential h]
  rcases a.potential with e | _ | _
  · rfl
  · rfl
  · simp [run_injectHookDLL]

theorem run_checkSingleProcess (h : a.openProcess ≠ null) :
    (checkSingleProcess a).run k =
      match a.potential with
      | .error e => .error e (k.obtain a.openProcess)
      | .ok true => .ok () (a.inject (k.obtain a.openProcess))
      | .ok false => .ok () ((k.obtain a.openProcess).closeHandle a.openProcess) := by
  rw [checkSingleProcess, EStateM.run_bind, run_checkProcessPotential h]
  rcases a.potential with e | _ | _
  · rfl
  · rfl
  · simp [run_injectHookDLL]

/-! ## When a check returns -/

/-- The process is opened and its name known, but the list it is compared with cannot be
converted. -/
def Answers.Throws (a : Answers) : Prop :=
  a.openProcess ≠ null ∧ a.processName.isSome ∧ ¬ WellFormed (readWord (a.disk .processes))

instance (a : Answers) : Decidable a.Throws := inferInstanceAs (Decidable (_ ∧ _ ∧ _))

theorem Answers.exists_potential_iff :
    (∃ b, a.potential = .ok b) ↔
      (a.processName.isSome → WellFormed (readWord (a.disk .processes))) := by
  unfold potential
  cases a.processName with
  | none => simp
  | some n =>
    rw [← isProcessSafe_eq_ok_iff n]
    cases hsafe : isProcessSafe n a.disk <;> simp [hsafe]

theorem Answers.not_throws_iff (h : a.openProcess ≠ null) :
    ¬ a.Throws ↔ ∃ b, a.potential = .ok b := by
  rw [exists_potential_iff, Throws]
  simp [h]

theorem checkSingleProcess_returns_iff :
    (∃ k', (checkSingleProcess a).run k = .ok () k') ↔ ¬ a.Throws := by
  by_cases hnull : a.openProcess = null
  · exact iff_of_true ⟨_, run_checkSingleProcess_null hnull⟩ fun h => h.1 hnull
  · rw [Answers.not_throws_iff hnull, run_checkSingleProcess hnull]
    rcases a.potential with e | _ | _ <;> simp

theorem checkOpenProcess_returns_iff :
    (∃ k', (checkOpenProcess a).run k = .ok () k') ↔ ¬ a.Throws := by
  by_cases hnull : a.openProcess = null
  · exact iff_of_true ⟨_, run_checkOpenProcess_null hnull⟩ fun h => h.1 hnull
  · rw [Answers.not_throws_iff hnull, run_checkOpenProcess hnull]
    rcases a.potential with e | _ | _ <;> simp

theorem checkOpenProcess_failed_iff :
    Stateful.failed (checkOpenProcess a) k = true ↔ a.Throws := by
  rw [← not_iff_not, ← checkOpenProcess_returns_iff (k := k), Stateful.failed]
  cases (checkOpenProcess a).run k <;> simp

theorem Answers.potential_eq_error {e : Fault} (h : a.potential = .error e) :
    e = .rangeError := by
  unfold potential at h
  split at h
  · cases h
  · split at h
    · rename_i hsafe
      exact Except.error.inj h ▸ isProcessSafe_eq_error hsafe
    · cases h

theorem checkOpenProcess_error {e : Fault} {k' : Handles}
    (h : (checkOpenProcess a).run k = .error e k') : e = .rangeError := by
  by_cases hnull : a.openProcess = null
  · rw [run_checkOpenProcess_null hnull] at h
    cases h
  · rw [run_checkOpenProcess hnull] at h
    split at h
    · rename_i hpotential
      obtain ⟨rfl, -⟩ := EStateM.Result.error.inj h
      exact Answers.potential_eq_error hpotential
    · cases h
    · cases h

end Runs

/-- The process `C:\a`, when the system directory is `C:\W`. -/
def named (disk : Disk) : Answers where
  openProcess := 4
  enumProcessModules := true
  getModuleBaseName := some [97]
  getModuleFileNameEx := some [67, 58, 92, 97]
  leftover := []
  getWindowsDirectory := [67, 58, 92, 87]
  disk := disk
  virtualAllocEx := true
  createRemoteThread := 8

end ComputerLock.Process
