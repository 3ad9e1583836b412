import Mathlib.Data.List.Nodup
import Mathlib.Data.List.Perm.Subperm
import ComputerLock.Process.Handler
import ComputerLock.Process.Startup

/-!
# The sweep at the start

`RetrieveOpenProcessesIDs` has the identifiers of the running processes written to an array on
the stack and copies them to one it allocates; `CheckOpenProcesses` checks them one after
another. Both arrays have the same fixed length.
-/

namespace ComputerLock.Process
open Library Common

/-! ## Retrieval -/

/-- The length of both arrays. -/
def identifiersLength : ℕ := 1024

/-- `sizeof(DWORD)` -/
def dwordSize : ℕ := 4

/-- What the arrays hold as long as nothing has been written to them. -/
structure Leftover where
  allProcessIdentifiers : List UInt32
  allocated : List UInt32
  length_allProcessIdentifiers : allProcessIdentifiers.length = identifiersLength
  length_allocated : allocated.length = identifiersLength

def Leftover.zeros : Leftover where
  allProcessIdentifiers := List.replicate identifiersLength 0
  allocated := List.replicate identifiersLength 0
  length_allProcessIdentifiers := List.length_replicate
  length_allocated := List.length_replicate

/-- A call of `EnumProcesses` that succeeds: it stores as many of the running processes as the
array can hold. -/
structure Enumeration where
  running : List UInt32
  nodup : running.Nodup
  stored : List UInt32
  subperm : stored.Subperm running
  filled : stored.length = min running.length identifiersLength

namespace Enumeration

/-- The first processes are stored. -/
def first (running : List UInt32) (nodup : running.Nodup) : Enumeration where
  running := running
  nodup := nodup
  stored := running.take identifiersLength
  subperm := (running.take_sublist identifiersLength).subperm
  filled := by rw [List.length_take, Nat.min_comm]

def bytesReturned (e : Enumeration) : ℕ := dwordSize * e.stored.length

def write (e : Enumeration) (array : List UInt32) : List UInt32 :=
  e.stored ++ array.drop e.stored.length

end Enumeration

/-- The body of the loop of `RetrieveOpenProcessesIDs`. -/
def copyIdentifier (allProcessIdentifiers target : List UInt32) (i : ℕ) :
    Except Fault (List UInt32) :=
  match allProcessIdentifiers[i]? with
  | none => .error (.badIndex i allProcessIdentifiers.length)
  | some processID =>
    if i < target.length then .ok (target.set i processID)
    else .error (.badIndex i target.length)

/-- The number of identifiers and the array that is returned; `none` when `EnumProcesses`
fails, and then the number stays what the caller had put there. -/
def retrieveOpenProcessesIDs (m : Leftover) (enumProcesses : Option Enumeration)
    (numberOfProcessIdentifiers : ℕ) : Except Fault (ℕ × List UInt32) := do
  let number := enumProcesses.elim numberOfProcessIdentifiers (·.bytesReturned / dwordSize)
  let identifiers := enumProcesses.elim m.allProcessIdentifiers (·.write m.allProcessIdentifiers)
  let pointer ← (List.range number).foldlM (copyIdentifier identifiers) m.allocated
  return (number, pointer)

/-! ## The checks -/

/-- What the sweep changes. -/
structure Sweep where
  /-- the arguments of `CheckProcessPotential` -/
  checked : List UInt32
  handles : Handles

namespace Sweep

def start (k : Handles) : Sweep := ⟨[], k⟩

/-- The argument of `CheckProcessPotential`, and the turn itself. -/
def checkLogged (processID : UInt32) (a : Answers) : EStateM Fault Sweep Unit := do
  modify fun s => { s with checked := s.checked ++ [processID] }
  Stateful.zoom Sweep.handles (fun k s => { s with handles := k }) (checkOpenProcess a)

/-- The turn with index `i`; the answers are those of the check made in it. -/
def checkIdentifier (allProcessIdentifiers : List UInt32) (answers : ℕ → Answers) (i : ℕ) :
    EStateM Fault Sweep Unit :=
  match allProcessIdentifiers[i]? with
  | none => throw (.badIndex i allProcessIdentifiers.length)
  | some processID => checkLogged processID (answers i)

def checkOpenProcesses (m : Leftover) (enumProcesses : Option Enumeration)
    (answers : ℕ → Answers) : EStateM Fault Sweep Unit := do
  let (number, identifiers) ← Stateful.ofExcept (retrieveOpenProcessesIDs m enumProcesses 0)
  (List.range number).forM (checkIdentifier identifiers answers)

/-- Every running process is returned once and checked once, and no index is out of bounds. -/
structure Exhaustive (e : Enumeration) (answers : ℕ → Answers) : Prop where
  retrieved : ∀ m number, ∃ n ids, retrieveOpenProcessesIDs m (some e) number = .ok (n, ids) ∧
    ∀ p ∈ e.running, (ids.take n).count p = 1
  checked : ∀ m k, ∀ p ∈ e.running,
    (Stateful.final (checkOpenProcesses m (some e) answers) (start k)).checked.count p = 1
  inside : ∀ m k i n s,
    (checkOpenProcesses m (some e) answers).run (start k) ≠ .error (.badIndex i n) s

/-! ## What is retrieved -/

section Retrieval

variable {source target : List UInt32} {n : ℕ}

theorem copyIdentifier_eq (hsource : n < source.length) (htarget : n < target.length) :
    copyIdentifier source (source.take n ++ target.drop n) n =
      .ok (source.take (n + 1) ++ target.drop (n + 1)) := by
  have htake : (source.take n).length = n := by simp [hsource.le]
  have hlen : n < (source.take n ++ target.drop n).length := by simp; omega
  rw [copyIdentifier, List.getElem?_eq_getElem hsource]
  simp only [hlen, if_true]
  rw [List.set_append_right _ _ htake.le, htake, Nat.sub_self, List.drop_eq_getElem_cons htarget,
    List.set_cons_zero, List.take_succ_eq_append_getElem hsource, List.append_assoc]
  rfl

/-- After `n` turns the first `n` entries have been copied. -/
theorem copy_eq (hsource : n ≤ source.length) (htarget : n ≤ target.length) :
    (List.range n).foldlM (copyIdentifier source) target =
      .ok (source.take n ++ target.drop n) := by
  induction n with
  | zero => rfl
  | succ n ih =>
    have hcopied := ih (Nat.le_of_succ_le hsource) (Nat.le_of_succ_le htarget)
    rw [List.range_succ, List.foldlM_append, hcopied]
    simp only [List.foldlM_cons, List.foldlM_nil, bind, Except.bind,
      copyIdentifier_eq hsource htarget]
    rfl

end Retrieval

section Enumerations

variable {e : Enumeration}

theorem stored_nodup (e : Enumeration) : e.stored.Nodup := by
  obtain ⟨l, hperm, hsub⟩ := e.subperm
  exact hperm.nodup_iff.mp (hsub.nodup e.nodup)

theorem retrieveOpenProcessesIDs_eq (m : Leftover) (e : Enumeration) (number : ℕ) :
    retrieveOpenProcessesIDs m (some e) number =
      .ok (e.stored.length, e.stored ++ m.allocated.drop e.stored.length) := by
  have hnumber : e.bytesReturned / dwordSize = e.stored.length :=
    Nat.mul_div_cancel_left _ (by decide)
  have hlen : e.stored.length ≤ identifiersLength := e.filled ▸ Nat.min_le_right _ _
  have hsource : e.stored.length ≤ (e.write m.allProcessIdentifiers).length := by
    simp [Enumeration.write]
  have htarget : e.stored.length ≤ m.allocated.length := by rwa [m.length_allocated]
  have hcopy := copy_eq hsource htarget
  simp only [retrieveOpenProcessesIDs, Option.elim, hnumber, hcopy]
  simp [Enumeration.write, bind, Except.bind, pure, Except.pure]

theorem length_stored (hfits : e.running.length ≤ identifiersLength) :
    e.stored.length = e.running.length := by
  rw [e.filled, Nat.min_eq_left hfits]

/-- Every running process is stored exactly when they all fit the array. -/
theorem running_subset_iff :
    e.running ⊆ e.stored ↔ e.running.length ≤ identifiersLength := by
  constructor
  · intro hall
    have hlen := (List.subperm_of_subset e.nodup hall).length_le
    rw [e.filled] at hlen
    omega
  · intro hfits
    have hperm := e.subperm.perm_of_length_le (length_stored hfits).ge
    exact hperm.symm.subset

end Enumerations

/-! ## What is checked -/

section Turns

variable {a : Answers} {s : Sweep}

theorem final_checkLogged (processID : UInt32) :
    Stateful.final (checkLogged processID a) s =
      ⟨s.checked ++ [processID], Stateful.final (checkOpenProcess a) s.handles⟩ := by
  rw [checkLogged, Stateful.final_bind_ok (EStateM.run_modify ..), Stateful.final_zoom]

theorem failed_checkLogged (processID : UInt32) :
    Stateful.failed (checkLogged processID a) s =
      Stateful.failed (checkOpenProcess a) s.handles :=
  Stateful.failed_zoom ..

theorem checkLogged_error {processID : UInt32} {err : Fault} {t : Sweep}
    (h : (checkLogged processID a).run s = .error err t) : err = .rangeError := by
  rw [checkLogged, EStateM.run_bind, EStateM.run_modify] at h
  dsimp only at h
  rw [Stateful.run_zoom] at h
  split at h
  · cases h
  · rename_i hcheck
    obtain ⟨rfl, -⟩ := EStateM.Result.error.inj h
    exact checkOpenProcess_error hcheck

end Turns

section Loop

variable {e : Enumeration} {m : Leftover} {answers : ℕ → Answers} {k : Handles} {i : ℕ}

/-- A turn reads an entry that has been copied. -/
theorem checkIdentifier_eq (hi : i < e.stored.length) (rest : List UInt32) :
    checkIdentifier (e.stored ++ rest) answers i =
      checkLogged (e.stored.getD i 0) (answers i) := by
  rw [checkIdentifier, List.getElem?_append_left hi, List.getElem?_eq_getElem hi]
  simp [hi]

theorem logs_checkIdentifier (hi : i < e.stored.length) (rest : List UInt32) :
    Stateful.Logs (checkIdentifier (e.stored ++ rest) answers) checked
      (fun i => (answers i).Throws) (e.stored.getD · 0) i := by
  constructor
  · intro s
    rw [checkIdentifier_eq hi, final_checkLogged]
  · intro s
    rw [checkIdentifier_eq hi, failed_checkLogged, checkOpenProcess_failed_iff]

theorem run_checkOpenProcesses (s : Sweep) :
    (checkOpenProcesses m (some e) answers).run s =
      ((List.range e.stored.length).forM
        (checkIdentifier (e.stored ++ m.allocated.drop e.stored.length) answers)).run s := by
  rw [checkOpenProcesses, retrieveOpenProcessesIDs_eq, EStateM.run_bind,
    Stateful.run_ofExcept_ok]

/-- Nothing is checked when `EnumProcesses` fails, and no entry is read. -/
theorem run_checkOpenProcesses_none (s : Sweep) :
    (checkOpenProcesses m none answers).run s = .ok () s := rfl

theorem map_getD_range (e : Enumeration) :
    (List.range e.stored.length).map (e.stored.getD · 0) = e.stored := by
  apply List.ext_getElem
  · simp
  · intro i hi hi'
    simp [hi']

/-- The sweep checks what is stored in order, up to the first check that throws. -/
theorem final_checkOpenProcesses_checked :
    (Stateful.final (checkOpenProcesses m (some e) answers) (start k)).checked =
      (Stateful.upTo (fun i => (answers i).Throws) (List.range e.stored.length)).map
        (e.stored.getD · 0) := by
  have turns : ∀ i ∈ List.range e.stored.length, Stateful.Logs
      (checkIdentifier (e.stored ++ m.allocated.drop e.stored.length) answers) checked
      (fun i => (answers i).Throws) (e.stored.getD · 0) i := by
    intro i hi
    exact logs_checkIdentifier (List.mem_range.mp hi) _
  rw [Stateful.final, run_checkOpenProcesses, ← Stateful.final,
    Stateful.final_forM_log turns]
  rfl

theorem inside_bounds (i n : ℕ) (s : Sweep) :
    (checkOpenProcesses m (some e) answers).run (start k) ≠ .error (.badIndex i n) s := by
  intro h
  rw [run_checkOpenProcesses] at h
  obtain ⟨j, hj, t, hturn⟩ := Stateful.exists_of_run_forM_error h
  rw [checkIdentifier_eq (List.mem_range.mp hj)] at hturn
  cases checkLogged_error hturn

/-- Every process stored is checked when no check but the last throws. -/
theorem upTo_range_eq_iff {n : ℕ} :
    Stateful.upTo (fun i => (answers i).Throws) (List.range n) = List.range n ↔
      ∀ i, i + 1 < n → ¬ (answers i).Throws := by
  cases n with
  | zero => simp [Stateful.upTo]
  | succ n =>
    rw [List.range_succ, Stateful.upTo_concat_eq_self_iff]
    simp

end Loop

/-! ## When every process is covered -/

section Cover

variable {e : Enumeration} {answers : ℕ → Answers}

theorem running_subset_of_count {l : List UInt32} (h : ∀ p ∈ e.running, l.count p = 1) :
    e.running ⊆ l := by
  intro p hp
  apply List.count_pos_iff.mp
  rw [h p hp]
  exact Nat.one_pos

theorem count_stored (h : e.running.length ≤ identifiersLength) {p : UInt32}
    (hp : p ∈ e.running) : e.stored.count p = 1 :=
  List.count_eq_one_of_mem (stored_nodup e) (running_subset_iff.mpr h hp)

theorem Exhaustive.length_le (h : Exhaustive e answers) :
    e.running.length ≤ identifiersLength := by
  obtain ⟨n, ids, hids, hcount⟩ := h.retrieved .zeros 0
  rw [retrieveOpenProcessesIDs_eq] at hids
  obtain ⟨rfl, rfl⟩ := Prod.mk.inj (Except.ok.inj hids)
  rw [List.take_left] at hcount
  exact running_subset_iff.mp (running_subset_of_count hcount)

theorem Exhaustive.not_throws (h : Exhaustive e answers) :
    ∀ i, i + 1 < e.running.length → ¬ (answers i).Throws := by
  have hall := running_subset_of_count (h.checked .zeros Handles.empty)
  have hlen := (List.subperm_of_subset e.nodup hall).length_le
  rw [final_checkOpenProcesses_checked, List.length_map] at hlen
  rw [← length_stored h.length_le] at hlen ⊢
  apply upTo_range_eq_iff.mp
  apply (Stateful.upTo_isPrefix _).eq_of_length_le
  rwa [List.length_range]

theorem exhaustive_of (hfits : e.running.length ≤ identifiersLength)
    (hreturns : ∀ i, i + 1 < e.running.length → ¬ (answers i).Throws) :
    Exhaustive e answers := by
  rw [← length_stored hfits] at hreturns
  refine ⟨?_, ?_, ?_⟩
  · intro m number
    refine ⟨_, _, retrieveOpenProcessesIDs_eq m e number, ?_⟩
    intro p hp
    rw [List.take_left]
    exact count_stored hfits hp
  · intro m k p hp
    rw [final_checkOpenProcesses_checked, upTo_range_eq_iff.mpr hreturns, map_getD_range]
    exact count_stored hfits hp
  · intro m k
    exact inside_bounds

/-- The sweep covers every process exactly when the processes fit the arrays and no check but
the last throws. -/
theorem exhaustive_iff (e : Enumeration) (answers : ℕ → Answers) :
    Exhaustive e answers ↔ e.running.length ≤ identifiersLength ∧
      ∀ i, i + 1 < e.running.length → ¬ (answers i).Throws := by
  constructor
  · intro h
    exact ⟨h.length_le, h.not_throws⟩
  · intro ⟨hfits, hreturns⟩
    exact exhaustive_of hfits hreturns

/-- The processes with the identifiers `0`, `4` and so on. -/
def multiples (n : ℕ) : List UInt32 := (List.range n).map fun i => UInt32.ofNat (4 * i)

theorem multiples_nodup {n : ℕ} (h : 4 * n ≤ UInt32.size) : (multiples n).Nodup := by
  have hnumber : ∀ i ∈ List.range n, (UInt32.ofNat (4 * i)).toNat = 4 * i := by
    intro i hi
    have hin := List.mem_range.mp hi
    have hlt : 4 * i < UInt32.size := by omega
    exact UInt32.toNat_ofNat_of_lt' hlt
  apply List.Nodup.map_on
  · intro i hi j hj hij
    have hnumbers := congrArg UInt32.toNat hij
    rw [hnumber i hi, hnumber j hj] at hnumbers
    omega
  · exact List.nodup_range

/-- One process more than the arrays can hold. -/
theorem not_always_exhaustive : ¬ ∀ e answers, Exhaustive e answers := by
  intro h
  have hnodup : (multiples 1025).Nodup := multiples_nodup (by decide)
  have hfits := (h (.first (multiples 1025) hnodup) fun _ => named fun _ => []).length_le
  simp [Enumeration.first, multiples, identifiersLength] at hfits

/-! ## The handles, and the system -/

/-- The sweep leaves the handles as the checks of the processes stored do. -/
theorem final_checkOpenProcesses_handles (m : Leftover) (k : Handles) :
    (Stateful.final (checkOpenProcesses m (some e) answers) (start k)).handles =
      Stateful.final
        (Process.checkOpenProcesses ((List.range e.stored.length).map answers)) k := by
  rw [Stateful.final, run_checkOpenProcesses, ← Stateful.final, Process.checkOpenProcesses]
  have turns : ∀ i ∈ List.range e.stored.length, Stateful.Simulates handles
      (checkIdentifier (e.stored ++ m.allocated.drop e.stored.length) answers i)
      (checkOpenProcess (answers i)) := by
    intro i hi
    rw [checkIdentifier_eq (List.mem_range.mp hi)]
    constructor
    · intro s
      rw [final_checkLogged]
    · intro s
      exact failed_checkLogged _
  exact Stateful.final_forM_simulates turns (start k)

/-- The stored processes are a complete snapshot of the system when the list is not cut off. -/
theorem complete_iff (e : Enumeration) :
    (State.start (e.running.map UInt32.toNat)).Complete (.snapshot (e.stored.map UInt32.toNat)) ↔
      e.running.length ≤ identifiersLength := by
  rw [← running_subset_iff]
  simp [State.Complete, State.start, List.subset_def, UInt32.toNat_inj]

end Cover
end Sweep
end ComputerLock.Process
