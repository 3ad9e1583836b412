import ComputerLock.Library.Runs
import ComputerLock.Trampoline.Policy

/-!
# Updating the extensions while hooks decide

The updater rewrites the extensions file by truncating it, writing it piece by piece and
closing it. Hooks in other processes open the file with full sharing and read it once,
between any two of these steps.
-/

namespace ComputerLock.Trampoline
open Library Common

/-- An update in progress. -/
structure Update where
  newText : Bytes
  /-- how many bytes of its form on disk have been written -/
  written : ℕ

/-- A hook's verdict, with what was in force and what was being written at that moment. -/
structure Decision where
  filePath : Bytes
  verdict : Bool
  inForce : Bytes
  updating : Option Update

structure Shared where
  /-- the bytes of the extensions file -/
  file : Bytes
  /-- the text of the last update that was completed -/
  inForce : Bytes
  update : Option Update
  decisions : List Decision

inductive Action where
  /-- `outfile.open(path)` -/
  | openFile (newText : Bytes)
  /-- the next bytes reach the file -/
  | write (n : ℕ)
  /-- the destructor of `outfile` -/
  | close
  /-- `IsImportant` in some process -/
  | decide (filePath : Bytes)

namespace Shared

def step (s : Shared) : Action → Option Shared
  | .openFile newText =>
    match s.update with
    | none => some { s with file := [], update := some ⟨newText, 0⟩ }
    | some _ => none
  | .write n =>
    match s.update with
    | none => none
    | some u =>
      if 0 < n ∧ u.written + n ≤ (CText.writeText u.newText).length then
        some { s with
          file := s.file ++ ((CText.writeText u.newText).drop u.written).take n
          update := some { u with written := u.written + n } }
      else none
  | .close =>
    match s.update with
    | none => none
    | some u =>
      if u.written = (CText.writeText u.newText).length then
        some { s with inForce := u.newText, update := none }
      else none
  | .decide filePath =>
    some { s with decisions :=
      ⟨filePath, isImportant filePath s.file, s.inForce, s.update⟩ :: s.decisions }

/-- No update is in progress, and no hook has decided. -/
def start (text : Bytes) : Shared where
  file := CText.writeText text
  inForce := text
  update := none
  decisions := []

end Shared

/-- The verdict is that of a complete text, the one in force or the new one. -/
def Decision.Complete (d : Decision) : Prop :=
  d.verdict = isImportant d.filePath (CText.writeText d.inForce) ∨
  ∃ u ∈ d.updating, d.verdict = isImportant d.filePath (CText.writeText u.newText)

/-- Between updates the verdict is that of the text in force; during an update it is that of
as much of the new text as has been written. -/
def Decision.Justified (d : Decision) : Prop :=
  match d.updating with
  | none => d.verdict = isImportant d.filePath (CText.writeText d.inForce)
  | some u => d.verdict = isImportant d.filePath ((CText.writeText u.newText).take u.written)

namespace Shared

/-- What the file holds, and what has been decided. -/
structure Consistent (s : Shared) : Prop where
  idle : s.update = none → s.file = CText.writeText s.inForce
  updating : ∀ u ∈ s.update, s.file = (CText.writeText u.newText).take u.written
  justified : ∀ d ∈ s.decisions, d.Justified

section Steps

variable {s s' : Shared}

theorem openFile_consistent {newText : Bytes} (h : s.Consistent)
    (hstep : s.step (.openFile newText) = some s') : s'.Consistent := by
  cases hu : s.update with
  | some u => simp [step, hu] at hstep
  | none =>
    obtain rfl : _ = s' := by simpa [step, hu] using hstep
    exact ⟨by simp, by simp, h.justified⟩

theorem write_consistent {n : ℕ} (h : s.Consistent) (hstep : s.step (.write n) = some s') :
    s'.Consistent := by
  cases hu : s.update with
  | none => simp [step, hu] at hstep
  | some u =>
    simp only [step, hu] at hstep
    obtain ⟨-, rfl⟩ := Runs.guarded_eq_some.mp hstep
    refine ⟨by simp, fun u' hu' => ?_, h.justified⟩
    obtain rfl : _ = u' := by simpa using hu'
    rw [h.updating u hu, List.take_add]

theorem close_consistent (h : s.Consistent) (hstep : s.step .close = some s') :
    s'.Consistent := by
  cases hu : s.update with
  | none => simp [step, hu] at hstep
  | some u =>
    simp only [step, hu] at hstep
    obtain ⟨hall, rfl⟩ := Runs.guarded_eq_some.mp hstep
    refine ⟨fun _ => ?_, by simp, h.justified⟩
    rw [h.updating u hu, hall, List.take_length]

theorem decide_consistent (h : s.Consistent) (filePath : Bytes)
    (hstep : s.step (.decide filePath) = some s') : s'.Consistent := by
  obtain rfl := Option.some.inj hstep
  refine ⟨h.idle, h.updating, List.forall_mem_cons.mpr ⟨?_, h.justified⟩⟩
  cases hu : s.update with
  | none => simp [Decision.Justified, h.idle hu]
  | some u => simp [Decision.Justified, h.updating u hu]

theorem step_consistent {a : Action} (h : s.Consistent) (hstep : s.step a = some s') :
    s'.Consistent := by
  cases a with
  | openFile newText => exact openFile_consistent h hstep
  | write n => exact write_consistent h hstep
  | close => exact close_consistent h hstep
  | decide filePath => exact decide_consistent h filePath hstep

end Steps

/-- Every verdict in every interleaving is justified. -/
theorem reaches_justified {text : Bytes} {s : Shared}
    (h : Runs.Reaches step (fun _ _ => True) (start text) s) : ∀ d ∈ s.decisions, d.Justified :=
  (h.invariant (P := Consistent) (fun _ _ _ hs _ hstep => step_consistent hs hstep)
    ⟨fun _ => rfl, by simp [start], by simp [start]⟩).justified

/-- `.a` -/
def extension : Bytes := [46, 97]

/-- The extensions are replaced by themselves; a hook decides before and in between. -/
theorem reaches_justified_twice :
    ∃ s, Runs.Reaches step (fun _ _ => True) (start extension) s ∧
      s.decisions.map Decision.verdict = [false, true] ∧ ∀ d ∈ s.decisions, d.Justified := by
  have moved : Runs.run step (start extension)
    [.decide extension, .openFile extension, .decide extension] = some _ := rfl
  have run := Runs.reaches_of_run moved fun _ _ _ => trivial
  exact ⟨_, run, by decide, reaches_justified run⟩

/-- Just after the truncation nothing is blocked. -/
theorem not_always_complete :
    ¬ ∀ text s, Runs.Reaches step (fun _ _ => True) (start text) s →
      ∀ d ∈ s.decisions, d.Complete := by
  intro h
  have moved : Runs.run step (start extension) [.openFile extension, .decide extension] =
    some _ := rfl
  have complete := h extension _ (Runs.reaches_of_run moved fun _ _ _ => trivial) _
    (List.mem_singleton_self _)
  rcases complete with hold | ⟨u, hmem, hnew⟩
  · exact absurd hold (by decide)
  · obtain rfl := Option.some.inj hmem
    exact absurd hnew (by decide)

end Shared

end ComputerLock.Trampoline
