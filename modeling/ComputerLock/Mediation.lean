import ComputerLock.Process.Accounting
import ComputerLock.Process.Startup
import ComputerLock.Rewriting
import ComputerLock.Trampoline.Hook

/-!
# Which files are opened

The client starts up and checks processes, a thread it creates in an inspected process loads the
hook library there, the update loop rewrites the settings files, and every process calls
`CreateFileW`, all at the same time. A call that goes through in spite of the settings has one of
few reasons.
-/

namespace ComputerLock
open Library Common Client

/-- An entry that the hook does not see ends in one that it sees. -/
def Trampoline.Complete (t : List Char) : Prop :=
  ∀ e ∈ entries t, nul ∉ e → ∃ v ∈ seen (stored t), v <:+ Utf8.encode e

/-- What becomes of `LoadLibraryW` in an inspected process. -/
inductive Loading where
  | notFound
  /-- `Mhook_SetHook` has returned FALSE -/
  | unhooked
  | hooked
  deriving DecidableEq

structure Machine where
  main : Process.State
  live : Live
  handles : Process.Handles
  /-- the client's process is gone, and `main` with it -/
  ended : Bool
  /-- the checks of each process since it was created -/
  checks : List (ℕ × Process.Answers)
  /-- the processes with a thread that has still to load the library -/
  injected : List ℕ
  /-- what has become of the library in each process since it was created -/
  loads : List (ℕ × Loading)
  /-- the calls that reached the real `CreateFileW`, the last one first -/
  calls : List (ℕ × WString)

inductive Occurrence where
  | create (processID : ℕ)
  | exit (processID : ℕ)
  | snapshot (processIDs : List ℕ)
  | check (answers : Process.Answers)
  | swept
  | setUp (succeeds : Bool)
  | indicate (processID : ℕ) (answers : Process.Answers)
  /-- `main` returns, or the client is ended from outside -/
  | terminate
  | load (processID : ℕ) (result : Loading)
  /-- the update loop goes on -/
  | loop (m : Moment)
  /-- a call of `CreateFileW`; `own` says whether the hook can open the extensions file -/
  | createFile (processID : ℕ) (lpFileName : WString) (own : Bool)

/-- What the update loop does. -/
def Moment.Writes : Moment → Bool
  | .hook _ => false
  | .check _ => false
  | _ => true

namespace Process.Answers

/-- A thread is created to load the library. -/
def injects (a : Answers) : Bool :=
  a.openProcess ≠ null && (match a.potential with
    | .ok potential => potential
    | .error _ => false) && a.threads ≠ []

section Injects

variable {a : Answers} {k : Handles}

theorem obtained_closeHandle (h : ℕ) : (k.closeHandle h).obtained = k.obtained := by
  unfold Handles.closeHandle
  split_ifs <;> rfl

/-- The process is opened, and the thread is the only other thing a check gets hold of. -/
theorem obtained_checkSingleProcess (h : a.openProcess ≠ null) :
    (Stateful.final (checkSingleProcess a) k).obtained =
      k.obtained ++ a.openProcess :: if a.injects then a.threads else [] := by
  rw [Stateful.final, run_checkSingleProcess h, Handles.obtain_eq h, inject_eq]
  rcases hpotential : a.potential with e | _ | _ <;>
    by_cases hthread : a.threads = [] <;>
    simp [injects, h, hpotential, hthread, obtained_closeHandle, Handles.extend]

theorem obtained_checkOpenProcess (h : a.openProcess ≠ null) :
    (Stateful.final (checkOpenProcess a) k).obtained =
      k.obtained ++ a.openProcess :: if a.injects then a.threads else [] := by
  rw [Stateful.final, run_checkOpenProcess h, Handles.obtain_eq h, inject_eq]
  rcases hpotential : a.potential with e | _ | _ <;>
    by_cases hthread : a.threads = [] <;>
    simp [injects, h, hpotential, hthread, obtained_closeHandle, Handles.extend]

end Injects

/-- `IsProcessSafe` reads the settings, whether the process is a system process or not. -/
def readIn (a : Answers) (live : Live) : Live :=
  if a.openProcess = null then live
  else match a.processName with
    | none => live
    | some szProcessName =>
      live.read (.check szProcessName (isProcessSafe szProcessName live.files))

/-- Why no thread is created after a check; `onList` says which names are those of safe
processes. -/
inductive Spared (a : Answers) (onList : WString → Prop) : Prop
  | unopened (null : a.openProcess = null)
  | unnamed (none : a.processName = none)
  | system (system : isSystemProcess a = true)
  | thrown (throws : a.Throws)
  | listed {n : WString} (name : a.processName = some n) (listed : onList n)
  | noThread (none : a.threads = [])

theorem Spared.imp {a : Answers} {onList onList' : WString → Prop} (h : a.Spared onList)
    (himp : ∀ n, onList n → onList' n) : a.Spared onList' := by
  cases h with
  | unopened null => exact .unopened null
  | unnamed none => exact .unnamed none
  | system system => exact .system system
  | thrown throws => exact .thrown throws
  | listed name listed => exact .listed name (himp _ listed)
  | noThread none => exact .noThread none

/-- A process is either spared by its check or given a thread. -/
theorem spared_or_injects (a : Answers) :
    a.Spared (fun n => a.openProcess ≠ null ∧ a.processName = some n ∧
      isProcessSafe n a.disk = .ok true) ∨ a.injects = true := by
  by_cases hopen : a.openProcess = null
  · exact .inl (.unopened hopen)
  cases hname : a.processName with
  | none => exact .inl (.unnamed hname)
  | some n =>
    by_cases hsystem : isSystemProcess a = true
    · exact .inl (.system hsystem)
    rcases hsafe : isProcessSafe n a.disk with e | _ | _
    · refine .inl (.thrown ?_)
      by_contra hnot
      obtain ⟨potential, hpotential⟩ := (not_throws_iff hopen).mp hnot
      simp [Answers.potential, hname, hsafe] at hpotential
    · by_cases hthread : a.threads = []
      · exact .inl (.noThread hthread)
      · right
        simp [injects, Answers.potential, hopen, hname, hsafe, hsystem, hthread]
    · exact .inl (.listed hname ⟨hopen, rfl, hsafe⟩)

end Process.Answers

namespace Machine

def start (alive : List ℕ) (l : Loop) : Machine where
  main := Process.State.start alive
  live := Live.start l
  handles := Process.Handles.empty
  ended := false
  checks := []
  injected := []
  loads := []
  calls := []

/-- `CreateFileW` is hooked in the process. -/
def Hooked (s : Machine) (p : ℕ) : Prop := (p, .hooked) ∈ s.loads

instance (s : Machine) (p : ℕ) : Decidable (s.Hooked p) := inferInstanceAs (Decidable (_ ∈ _))

def create (s : Machine) (p : ℕ) (main : Process.State) : Machine :=
  { s with
    main
    checks := s.checks.filter (·.1 ≠ p)
    injected := s.injected.filter (· ≠ p)
    loads := s.loads.filter (·.1 ≠ p) }

/-- The settings files are what they are at the moment of the check. -/
def answers (s : Machine) (a : Process.Answers) : Process.Answers :=
  { a with disk := s.live.files }

/-- A check of a process, as the given function makes it. An exception that leaves it ends the
client. -/
def check (s : Machine) (f : Process.Answers → EStateM Fault Process.Handles Unit) (p : ℕ)
    (a : Process.Answers) : Machine :=
  { s with
    live := a.readIn s.live
    handles := Stateful.final (f a) s.handles
    ended := s.ended || Stateful.failed (f a) s.handles
    checks := (p, a) :: s.checks
    injected := if a.injects then p :: s.injected else s.injected }

/-- What the update loop has done; an exception that leaves it ends the client. -/
def loop (s : Machine) (live : Live) : Machine :=
  { s with
    live
    main := if live.session.ended then s.main.terminate else s.main
    ended := s.ended || live.session.ended }

/-- A library that is in the process already is only counted once more. -/
def load (s : Machine) (p : ℕ) (result : Loading) : Machine :=
  { s with
    injected := s.injected.erase p
    loads := if s.Hooked p ∨ (p, .unhooked) ∈ s.loads then s.loads
      else (p, result) :: s.loads }

/-- `ActualCreateFile` -/
def call (s : Machine) (p : ℕ) (lpFileName : WString) : Machine :=
  { s with calls := (p, lpFileName) :: s.calls }

/-- `IsImportantFile`, which reads nothing when it cannot open the file. -/
def isImportantFile (s : Machine) (filePath : Bytes) (own : Bool) : Bool :=
  Trampoline.isImportant filePath (if own then s.live.files .fileExtensions else [])

/-- `HookCreateFile` once the name has been copied. -/
def hookCreateFile (s : Machine) (p : ℕ) (lpFileName : WString) (filePath : Bytes) (own : Bool) :
    Machine :=
  { s with
    live := if own then s.live.read (.hook filePath (s.isImportantFile filePath true)) else s.live
    calls := if s.isImportantFile filePath own then s.calls else (p, lpFileName) :: s.calls }

def step (s : Machine) : Occurrence → Option Machine
  | .create p => (s.main.create p).map (s.create p)
  | .exit p => some { s with main := s.main.exit p }
  | .snapshot ps => (s.main.snapshot ps).map fun main => { s with main }
  | .check a =>
    match s.main.phase with
    | .checkOpenProcesses (p :: _) => (s.main.check (s.answers a)).map fun main =>
      { s with main }.check Process.checkOpenProcess p (s.answers a)
    | _ => none
  | .swept => s.main.swept.map fun main => { s with main }
  | .setUp succeeds => (s.main.setUp succeeds).map fun main => { s with main }
  | .indicate p a => (s.main.indicate p (s.answers a)).map fun main =>
    if p = 0 then { s with main }
    else { s with main }.check Process.checkSingleProcess p (s.answers a)
  | .terminate => some { s with main := s.main.terminate, ended := true }
  | .load p result =>
    if p ∈ s.main.alive ∧ p ∈ s.injected then some (s.load p result) else none
  | .loop m => if ¬ s.ended ∧ m.Writes then (s.live.step m).map s.loop else none
  | .createFile p lpFileName own =>
    if p ∈ s.main.alive then
      if s.Hooked p then
        match Trampoline.strcpyS Trampoline.filePathLength (Trampoline.encode lpFileName) with
        | .error _ => some { s with main := s.main.exit p }
        | .ok filePath => some (s.hookCreateFile p lpFileName (CText.cStr filePath) own)
      else some (s.call p lpFileName)
    else none

/-- The list of running processes is complete, no process is created in the gap of the start-up,
and the polls end at the boundaries of frames. -/
def Proper (s : Machine) : Occurrence → Prop
  | .create p => s.main.NoGap (.create p)
  | .snapshot ps => s.main.Complete (.snapshot ps)
  | .loop m => s.live.AtBoundary m
  | _ => True

/-! ## Why a process is not hooked -/

/-- What keeps the hook out of a process that has been checked. -/
inductive Excused (s : Machine) (onList : WString → Prop) (p : ℕ) : Prop
  | spared {a : Process.Answers} (checked : (p, a) ∈ s.checks) (spared : a.Spared onList)
  | loading (injected : p ∈ s.injected)
  | failed {r : Loading} (loaded : (p, r) ∈ s.loads) (failed : r ≠ .hooked)

/-- The name has been found on the list. -/
def Found (s : Machine) (n : WString) : Prop :=
  ∃ r ∈ s.live.readings, r.ruling = .check n (.ok true)

def Handled (s : Machine) (p : ℕ) : Prop := s.Hooked p ∨ s.Excused s.Found p

/-- What has happened to the process stays. -/
structure Grows (p : ℕ) (s s' : Machine) : Prop where
  checks : ∀ a, (p, a) ∈ s.checks → (p, a) ∈ s'.checks
  injected : p ∈ s.injected → p ∈ s'.injected ∨ ∃ r, (p, r) ∈ s'.loads
  loads : ∀ r, (p, r) ∈ s.loads → (p, r) ∈ s'.loads
  readings : s.live.readings ⊆ s'.live.readings

section Steps

variable {s s' : Machine} {p q : ℕ} {a : Process.Answers}

theorem Excused.imp {onList onList' : WString → Prop} (h : s.Excused onList p)
    (himp : ∀ n, onList n → onList' n) : s.Excused onList' p := by
  cases h with
  | spared checked spared => exact .spared checked (spared.imp himp)
  | loading injected => exact .loading injected
  | failed loaded failed => exact .failed loaded failed

theorem Handled.grows (h : s.Handled p) (hgrows : Grows p s s') : s'.Handled p := by
  rcases h with hooked | excused
  · exact .inl (hgrows.loads _ hooked)
  · cases excused with
    | spared checked spared =>
      have hfound : ∀ n, s.Found n → s'.Found n := fun n ⟨r, hr, hruling⟩ =>
        ⟨r, hgrows.readings hr, hruling⟩
      exact .inr (.spared (hgrows.checks _ checked) (spared.imp hfound))
    | loading injected =>
      rcases hgrows.injected injected with hinjected | ⟨r, hloaded⟩
      · exact .inr (.loading hinjected)
      · by_cases hooked : r = .hooked
        · subst hooked
          exact .inl hloaded
        · exact .inr (.failed hloaded hooked)
    | failed loaded failed => exact .inr (.failed (hgrows.loads _ loaded) failed)

/-- A process that has been checked is going to load the library, or has been spared. -/
theorem check_handled (f : Process.Answers → EStateM Fault Process.Handles Unit)
    (hdisk : a.disk = s.live.files) : (s.check f p a).Handled p := by
  rcases a.spared_or_injects with spared | injects
  · refine .inr (.spared List.mem_cons_self (spared.imp ?_))
    rintro n ⟨hopen, hname, hsafe⟩
    have hlive : (s.check f p a).live = s.live.read (.check n (.ok true)) := by
      rw [← hsafe, hdisk]
      exact (if_neg hopen).trans (by rw [hname])
    refine ⟨⟨.check n (.ok true), s.live.storing .processes⟩, ?_, rfl⟩
    rw [hlive]
    exact List.mem_cons_self
  · have hinjected : (s.check f p a).injected = p :: s.injected := if_pos injects
    refine .inr (.loading ?_)
    rw [hinjected]
    exact List.mem_cons_self

/-! ### What a step does to the processes that have been checked -/

/-- Nothing has happened to any process. -/
theorem Grows.of_same (hchecks : s'.checks = s.checks) (hinjected : s'.injected = s.injected)
    (hloads : s'.loads = s.loads) (readings : s.live.readings ⊆ s'.live.readings) :
    Grows q s s' where
  checks _ h := hchecks ▸ h
  injected h := .inl (hinjected ▸ h)
  loads _ h := hloads ▸ h
  readings := readings

theorem main_grows (main : Process.State) : Grows q s { s with main } :=
  .of_same rfl rfl rfl (List.Subset.refl _)

theorem readings_subset {live live' : Live} {m : Moment} (h : live.step m = some live') :
    live.readings ⊆ live'.readings := by
  cases m with
  | turn x =>
    obtain ⟨-, hmap⟩ := Option.ite_none_right_eq_some.mp h
    obtain ⟨session, -, rfl⟩ := Option.map_eq_some_iff.mp hmap
    exact List.Subset.refl _
  | openFile =>
    simp only [Live.step] at h
    split at h
    next => exact Option.some.inj h ▸ List.Subset.refl _
    next => cases h
  | write n =>
    simp only [Live.step] at h
    split at h
    next =>
      obtain ⟨-, rfl⟩ := Runs.guarded_eq_some.mp h
      exact List.Subset.refl _
    next => cases h
  | close =>
    simp only [Live.step] at h
    split at h
    next =>
      obtain ⟨-, rfl⟩ := Runs.guarded_eq_some.mp h
      exact List.Subset.refl _
    next => cases h
  | hook filePath => exact Option.some.inj h ▸ List.subset_cons_self _ _
  | check szProcessName => exact Option.some.inj h ▸ List.subset_cons_self _ _

theorem readings_subset_readIn (live : Live) : live.readings ⊆ (a.readIn live).readings := by
  unfold Process.Answers.readIn
  split_ifs
  · exact List.Subset.refl _
  · cases a.processName with
    | none => exact List.Subset.refl _
    | some n => exact List.subset_cons_self _ _

theorem create_grows (hne : q ≠ p) (main : Process.State) : Grows q s (s.create p main) where
  checks _ h := List.mem_filter.mpr ⟨h, by simpa using hne⟩
  injected h := .inl (List.mem_filter.mpr ⟨h, by simpa using hne⟩)
  loads _ h := List.mem_filter.mpr ⟨h, by simpa using hne⟩
  readings := List.Subset.refl _

theorem check_grows (f : Process.Answers → EStateM Fault Process.Handles Unit) :
    Grows q s (s.check f p a) where
  checks _ h := List.mem_cons_of_mem _ h
  injected h := by
    left
    simp only [check]
    split_ifs
    · exact List.mem_cons_of_mem _ h
    · exact h
  loads _ h := h
  readings := readings_subset_readIn s.live

/-- Whoever leaves the waiting processes has a library, or has been refused one. -/
theorem load_grows (result : Loading) : Grows q s (s.load p result) where
  checks _ h := h
  injected h := by
    by_cases heq : q = p
    · subst heq
      right
      by_cases hloaded : s.Hooked q ∨ (q, .unhooked) ∈ s.loads
      · simp only [load, if_pos hloaded]
        exact hloaded.elim (fun h => ⟨_, h⟩) fun h => ⟨_, h⟩
      · simp only [load, if_neg hloaded]
        exact ⟨result, List.mem_cons_self⟩
    · exact .inl ((List.mem_erase_of_ne heq).mpr h)
  loads _ h := by
    simp only [load]
    split_ifs
    · exact h
    · exact List.mem_cons_of_mem _ h
  readings := List.Subset.refl _

theorem hookCreateFile_grows (lpFileName : WString) (filePath : Bytes) (own : Bool) :
    Grows q s (s.hookCreateFile p lpFileName filePath own) := by
  refine .of_same rfl rfl rfl ?_
  simp only [hookCreateFile]
  split_ifs
  · exact List.subset_cons_self _ _
  · exact List.Subset.refl _

/-- The parts of the machine run as they do alone, and every process that has been checked is
hooked or has an excuse. -/
structure Sound (alive : List ℕ) (l : Loop) (s : Machine) : Prop where
  main : Runs.Reaches Process.State.step (fun s m => s.Complete m ∧ s.NoGap m)
    (Process.State.start alive) s.main
  live : Runs.Reaches Live.step Live.AtBoundary (Live.start l) s.live
  handled : ∀ p ∈ s.main.checked, s.Handled p

section Sound

variable {alive : List ℕ} {l : Loop} {main : Process.State}

theorem Sound.create (h : s.Sound alive l) (noGap : s.main.NoGap (.create p))
    (hmain : s.main.create p = some main) : (s.create p main).Sound alive l where
  main := h.main.tail (a := .create p) ⟨trivial, noGap⟩ hmain
  live := h.live
  handled := by
    intro q hq
    have hchecked : main.checked = s.main.checked.filter (· ≠ p) := by
      unfold Process.State.create at hmain
      split_ifs at hmain
      all_goals rw [← Option.some.inj hmain]
    have hmem := List.mem_filter.mp (hchecked ▸ hq)
    exact (h.handled q hmem.1).grows (create_grows (by simpa using hmem.2) main)

/-- A step of `main` that checks nothing. -/
theorem Sound.advance {m : Process.Move} (h : s.Sound alive l) (complete : s.main.Complete m)
    (noGap : s.main.NoGap m) (hmain : s.main.step m = some main)
    (hchecked : main.checked ⊆ s.main.checked) : Sound alive l { s with main } where
  main := h.main.tail ⟨complete, noGap⟩ hmain
  live := h.live
  handled q hq := (h.handled q (hchecked hq)).grows (main_grows main)

theorem readIn_reaches (live : Live) :
    Runs.Reaches Live.step Live.AtBoundary live (a.readIn live) := by
  unfold Process.Answers.readIn
  split_ifs
  · exact .refl
  · cases a.processName with
    | none => exact .refl
    | some n => exact Runs.Reaches.refl.tail (a := Moment.check n) trivial rfl

/-- A step of `main` that checks a process. -/
theorem Sound.check {m : Process.Move} (h : s.Sound alive l) (complete : s.main.Complete m)
    (noGap : s.main.NoGap m) (hmain : s.main.step m = some main)
    (hchecked : main.checked = p :: s.main.checked) (hdisk : a.disk = s.live.files)
    (f : Process.Answers → EStateM Fault Process.Handles Unit) :
    (Machine.check { s with main } f p a).Sound alive l where
  main := h.main.tail ⟨complete, noGap⟩ hmain
  live := h.live.trans (readIn_reaches s.live)
  handled := by
    intro q hq
    rcases List.mem_cons.mp (hchecked ▸ hq) with rfl | hq
    · exact check_handled f hdisk
    · exact ((h.handled q hq).grows (main_grows main)).grows (check_grows f)

theorem Sound.load (h : s.Sound alive l) (result : Loading) :
    (s.load p result).Sound alive l where
  main := h.main
  live := h.live
  handled q hq := (h.handled q hq).grows (load_grows result)

theorem Sound.loop {live : Live} {m : Moment} (h : s.Sound alive l)
    (boundary : s.live.AtBoundary m) (hlive : s.live.step m = some live) :
    (s.loop live).Sound alive l where
  main := by
    unfold Machine.loop
    split
    · exact h.main.tail (a := .terminate) ⟨trivial, trivial⟩ rfl
    · exact h.main
  live := h.live.tail boundary hlive
  handled q hq := by
    have hchecked : (s.loop live).main.checked = s.main.checked := by
      unfold Machine.loop
      split <;> rfl
    exact (h.handled q (hchecked ▸ hq)).grows (.of_same rfl rfl rfl (readings_subset hlive))

theorem Sound.terminate (h : s.Sound alive l) :
    Sound alive l { s with main := s.main.terminate, ended := true } where
  main := h.main.tail (a := .terminate) ⟨trivial, trivial⟩ rfl
  live := h.live
  handled q hq := (h.handled q hq).grows (.of_same rfl rfl rfl (List.Subset.refl _))

theorem Sound.call (h : s.Sound alive l) (lpFileName : WString) :
    (s.call p lpFileName).Sound alive l where
  main := h.main
  live := h.live
  handled q hq := (h.handled q hq).grows (.of_same rfl rfl rfl (List.Subset.refl _))

theorem Sound.hookCreateFile (h : s.Sound alive l) (lpFileName : WString) (filePath : Bytes)
    (own : Bool) : (s.hookCreateFile p lpFileName filePath own).Sound alive l where
  main := h.main
  live := by
    cases own with
    | true => exact h.live.tail (a := Moment.hook filePath) trivial rfl
    | false => exact h.live
  handled q hq := (h.handled q hq).grows (hookCreateFile_grows lpFileName filePath own)

theorem step_sound {e : Occurrence} (h : s.Sound alive l) (proper : s.Proper e)
    (hstep : s.step e = some s') : s'.Sound alive l := by
  cases e with
  | create p =>
    obtain ⟨main, hmain, rfl⟩ := Option.map_eq_some_iff.mp hstep
    exact h.create proper hmain
  | exit p =>
    obtain rfl := Option.some.inj hstep
    exact h.advance (m := .exit p) trivial trivial rfl (List.Subset.refl _)
  | snapshot ps =>
    obtain ⟨main, hmain, rfl⟩ := Option.map_eq_some_iff.mp hstep
    refine h.advance (m := .snapshot ps) proper trivial hmain ?_
    obtain ⟨-, rfl⟩ := Runs.guarded_eq_some.mp hmain
    exact List.Subset.refl _
  | check a =>
    simp only [step] at hstep
    split at hstep
    next p rest hphase =>
      obtain ⟨main, hmain, rfl⟩ := Option.map_eq_some_iff.mp hstep
      refine h.check (m := .check (s.answers a)) trivial trivial hmain ?_ rfl
        Process.checkOpenProcess
      obtain ⟨q, rest', hphase', rfl⟩ := Process.State.check_cases hmain
      cases hphase.symm.trans hphase'
      rfl
    next => cases hstep
  | swept =>
    obtain ⟨main, hmain, rfl⟩ := Option.map_eq_some_iff.mp hstep
    refine h.advance (m := .swept) trivial trivial hmain ?_
    obtain ⟨-, rfl⟩ := Runs.guarded_eq_some.mp hmain
    exact List.Subset.refl _
  | setUp succeeds =>
    obtain ⟨main, hmain, rfl⟩ := Option.map_eq_some_iff.mp hstep
    refine h.advance (m := .setUp succeeds) trivial trivial hmain ?_
    obtain ⟨call, -, rfl⟩ := Process.State.setUp_cases hmain
    exact List.Subset.refl _
  | indicate p a =>
    obtain ⟨main, hmain, rfl⟩ := Option.map_eq_some_iff.mp hstep
    have hchecked : main.checked = if p ≠ 0 then p :: s.main.checked else s.main.checked := by
      obtain ⟨-, rfl⟩ := Runs.guarded_eq_some.mp hmain
      rfl
    by_cases hp : p = 0
    · rw [if_neg (not_not.mpr hp)] at hchecked
      rw [if_pos hp]
      exact h.advance (m := .indicate p (s.answers a)) trivial trivial hmain fun _ h => hchecked ▸ h
    · rw [if_pos hp] at hchecked
      rw [if_neg hp]
      exact h.check (m := .indicate p (s.answers a)) trivial trivial hmain hchecked rfl
        Process.checkSingleProcess
  | terminate =>
    obtain rfl := Option.some.inj hstep
    exact h.terminate
  | load p result =>
    obtain ⟨-, rfl⟩ := Runs.guarded_eq_some.mp hstep
    exact h.load result
  | loop m =>
    obtain ⟨-, hmap⟩ := Option.ite_none_right_eq_some.mp hstep
    obtain ⟨live, hlive, rfl⟩ := Option.map_eq_some_iff.mp hmap
    exact h.loop proper hlive
  | createFile p lpFileName own =>
    obtain ⟨-, hcall⟩ := Option.ite_none_right_eq_some.mp hstep
    split_ifs at hcall
    · split at hcall
      · obtain rfl := Option.some.inj hcall
        exact h.advance (m := .exit p) trivial trivial rfl (List.Subset.refl _)
      · obtain rfl := Option.some.inj hcall
        exact h.hookCreateFile ..
    · obtain rfl := Option.some.inj hcall
      exact h.call lpFileName

end Sound

end Steps

theorem sound_of_reaches {alive : List ℕ} {l : Loop} {s : Machine}
    (h : Runs.Reaches step Proper (start alive l) s) : s.Sound alive l :=
  h.invariant (fun _ _ _ hs proper hstep => step_sound hs proper hstep)
    ⟨.refl, .refl, fun _ hp => absurd hp List.not_mem_nil⟩

/-! ## Complete mediation -/

/-- A frame, or its beginning while it is being stored, has the name on its list. -/
def OnList (disk : Disk) (s : Machine) (n : WString) : Prop :=
  ∃ r ∈ s.live.readings, r.ruling = .check n (.ok true) ∧
    ∃ u, Live.Explains disk s.live.session.sent .processes u r

/-- The administrator has not asked for the name to be blocked in some frame, or it was not
blocked before the first one. -/
def Permits (disk : Disk) (s : Machine) (lpFileName : WString) : Prop :=
  Trampoline.isImportant (Trampoline.encode lpFileName) (disk .fileExtensions) = false ∨
  ∃ f ∈ s.live.session.sent, ∃ t, f.fileExtensions = Utf8.encode t ∧
    ∀ e ∈ Trampoline.entries t, ¬ e <:+ Utf16.decode lpFileName

section Mediation

variable {alive : List ℕ} {l : Loop} {s s' : Machine} {p : ℕ} {lpFileName : WString} {own : Bool}

theorem Sound.due_or_handled (h : s.Sound alive l) (hp : p ∈ s.main.alive)
    (hrunning : s.main.phase ≠ .ended) : s.main.Due p ∨ s.Handled p :=
  have hcovered := (Process.State.consistent_of_reaches h.main).covered hrunning
  (hcovered p hp).symm.imp_right (h.handled p)

theorem Sound.onList (h : s.Sound alive l) {n : WString} (hfound : s.Found n) :
    s.OnList l.disk n := by
  obtain ⟨r, hr, hruling⟩ := hfound
  obtain ⟨_, _, hupto⟩ := Live.exists_upto (g := .processes) (by decide) h.live
  exact ⟨r, hr, hruling, hupto.exists_version hr (by rw [hruling]; rfl)⟩

/-- What the hook lets through while the file is closed has been permitted. -/
theorem Sound.permits (h : s.Sound alive l)
    (hcomplete : ∀ f ∈ s.live.session.sent, ∃ t, f.fileExtensions = Utf8.encode t ∧
      Trampoline.Complete t) (hnul : 0 ∉ lpFileName)
    (hclosed : s.live.storing .fileExtensions = none)
    (hverdict : s.isImportantFile (Trampoline.encode lpFileName) true = false) :
    s.Permits l.disk lpFileName := by
  obtain ⟨_, v, hupto⟩ := Live.exists_upto (g := .fileExtensions) (by decide) h.live
  have hruling : (Ruling.hook (Trampoline.encode lpFileName) false).By
      (s.live.files .fileExtensions) := hverdict.symm
  have hexplains := hupto.explains (by decide) hruling
  rw [hclosed] at hexplains
  obtain ⟨d, bytes, hversion, hby, hwhole⟩ := hexplains
  have hfalse : Trampoline.isImportant (Trampoline.encode lpFileName) (d .fileExtensions) =
      false := by
    rw [← hwhole]
    exact hby.symm
  cases v with
  | zero =>
    obtain rfl := Option.some.inj hversion
    exact .inl hfalse
  | succ k =>
    obtain ⟨f, hf, rfl⟩ := Option.map_eq_some_iff.mp hversion
    have hsent := List.mem_of_getElem? hf
    obtain ⟨t, htext, complete⟩ := hcomplete f hsent
    refine .inr ⟨f, hsent, t, htext, fun e he hsuffix => ?_⟩
    have hplain : Trampoline.nul ∉ e := fun hmem =>
      Utf16.nul_not_mem_decode hnul (hsuffix.subset hmem)
    obtain ⟨v, hv, hve⟩ := complete e he hplain
    have htrue := (Trampoline.isImportant_iff (Trampoline.encode lpFileName) _).mpr
      ⟨v, hv, hve.trans (Utf8.encode_suffix_iff.mpr hsuffix)⟩
    rw [storeSettings_fileExtensions, htext] at hfalse
    exact absurd (htrue.symm.trans hfalse) Bool.noConfusion

end Mediation

end Machine

end ComputerLock
