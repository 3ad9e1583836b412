import Mathlib.Logic.Function.Basic
import ComputerLock.Library.Runs
import ComputerLock.Mhook.Jump

/-!
# The critical section

`EnterCritSec` creates the critical section and empties the table of hooks when it is called for
the first time, which it tells by a flag that nothing protects. The steps of all threads are
interleaved.
-/

namespace ComputerLock.Mhook
open Library

/-- Where a thread is. -/
inductive Place where
  | outside
  /-- the flag was not set -/
  | first
  /-- behind `InitializeCriticalSection` -/
  | created
  /-- behind `ZeroMemory` -/
  | emptied
  /-- before `EnterCriticalSection` -/
  | waiting
  | inside
  deriving DecidableEq

/-- The thread is about to initialise what all threads share, or doing so. -/
def Place.initialising : Place → Bool
  | .first | .created | .emptied => true
  | _ => false

structure Shared where
  /-- `g_bVarsInitialized` -/
  bVarsInitialized : Bool
  /-- the owner of `g_cs` -/
  owner : Option ℕ
  /-- `g_pHooks` -/
  pHooks : List (Option Address)
  /-- what the threads inside the section have made of the table -/
  written : List (Option Address)
  place : ℕ → Place

inductive Move where
  | check (t : ℕ)
  | create (t : ℕ)
  | empty (t : ℕ)
  | announce (t : ℕ)
  | enter (t : ℕ)
  | work (t : ℕ) (pHooks : List (Option Address))
  | leave (t : ℕ)

namespace Shared

def move (s : Shared) (t : ℕ) (p : Place) : Shared :=
  { s with place := Function.update s.place t p }

def emptyTable : List (Option Address) := List.replicate 64 none

def start : Shared := ⟨false, none, emptyTable, emptyTable, fun _ => .outside⟩

def step (s : Shared) : Move → Option Shared
  | .check t => if s.place t = .outside then
      some (s.move t (if s.bVarsInitialized then .waiting else .first)) else none
  | .create t => if s.place t = .first then
      some ({ s with owner := none }.move t .created) else none
  | .empty t => if s.place t = .created then
      some ({ s with pHooks := emptyTable }.move t .emptied) else none
  | .announce t => if s.place t = .emptied then
      some ({ s with bVarsInitialized := true }.move t .waiting) else none
  | .enter t => if s.place t = .waiting ∧ s.owner = none then
      some ({ s with owner := some t }.move t .inside) else none
  | .work t pHooks => if s.place t = .inside then
      some { s with pHooks := pHooks, written := pHooks } else none
  | .leave t => if s.place t = .inside then
      some ({ s with owner := none }.move t .outside) else none

/-- No thread comes in while another one is initialising. -/
def Unraced (s : Shared) : Move → Prop
  | .check _ => ∀ u, (s.place u).initialising = false
  | _ => True

/-- The threads keep each other out, and the table is what the last one inside has left. -/
structure Guarded (s : Shared) : Prop where
  owned : ∀ t, s.place t = .inside → s.owner = some t
  unset : ∀ t, (s.place t).initialising = true → s.bVarsInitialized = false
  single : ∀ t u, (s.place t).initialising = true → (s.place u).initialising = true → t = u
  untouched : s.bVarsInitialized = false → s.owner = none ∧ s.written = emptyTable ∧
    ∀ t, s.place t ≠ .waiting ∧ s.place t ≠ .inside
  table : s.pHooks = s.written

section Guarded

variable {s s' : Shared} {t u : ℕ} {a : Move}

@[grind =] theorem move_place (s : Shared) (t : ℕ) (p : Place) (u : ℕ) :
    (s.move t p).place u = if u = t then p else s.place u := by
  simp [move, Function.update_apply]

@[grind =] theorem move_bVarsInitialized (s : Shared) (t : ℕ) (p : Place) :
    (s.move t p).bVarsInitialized = s.bVarsInitialized := rfl

@[grind =] theorem move_owner (s : Shared) (t : ℕ) (p : Place) :
    (s.move t p).owner = s.owner := rfl

@[grind =] theorem move_pHooks (s : Shared) (t : ℕ) (p : Place) :
    (s.move t p).pHooks = s.pHooks := rfl

@[grind =] theorem move_written (s : Shared) (t : ℕ) (p : Place) :
    (s.move t p).written = s.written := rfl

theorem guarded_start : start.Guarded := by
  refine ⟨?_, ?_, ?_, ?_, rfl⟩
  · intro t ht
    cases ht
  · intro t ht
    cases ht
  · intro t u ht
    cases ht
  · exact fun _ => ⟨rfl, rfl, fun t => ⟨Place.noConfusion, Place.noConfusion⟩⟩

/-- Once the flag is set, nobody initialises any more. -/
theorem Guarded.nobody_initialises (h : s.Guarded) (hset : s.bVarsInitialized = true) :
    ∀ u, (s.place u).initialising = false := by
  intro u
  by_contra hu
  have hunset := h.unset u (Bool.of_not_eq_false hu)
  rw [hset] at hunset
  cases hunset

/-- Once a thread waits or is inside, the flag is set and nobody initialises any more. -/
theorem Guarded.initialised (h : s.Guarded) (ht : s.place t = .waiting ∨ s.place t = .inside) :
    s.bVarsInitialized = true ∧ ∀ u, (s.place u).initialising = false := by
  have hset : s.bVarsInitialized = true := by
    by_contra hflag
    obtain ⟨-, -, hnobody⟩ := h.untouched (Bool.eq_false_iff.mpr hflag)
    exact ht.elim (hnobody t).1 (hnobody t).2
  exact ⟨hset, h.nobody_initialises hset⟩

/-- With the flag set and nobody initialising, the owner and the table are all there is to say. -/
theorem Guarded.of_initialised (hset : s.bVarsInitialized = true)
    (hnone : ∀ u, (s.place u).initialising = false)
    (howned : ∀ u, s.place u = .inside → s.owner = some u) (htable : s.pHooks = s.written) :
    s.Guarded := by
  refine ⟨howned, ?_, ?_, ?_, htable⟩
  · intro u hu
    rw [hnone u] at hu
    cases hu
  · intro u v hu
    rw [hnone u] at hu
    cases hu
  · intro hunset
    rw [hset] at hunset
    cases hunset

/-- What each step keeps; only the first of a thread needs the others to stay out. -/
theorem Guarded.step (h : s.Guarded) (hok : s.Unraced a) (hstep : s.step a = some s') :
    s'.Guarded := by
  cases a with
  | check t =>
    obtain ⟨howned, hunset, hsingle, huntouched, htable⟩ := h
    obtain ⟨hplace, rfl⟩ := Runs.guarded_eq_some.mp hstep
    have hrest : ∀ u, (s.place u).initialising = false := hok
    -- a thread that finds the flag set waits, the others have nobody before them
    cases hflag : s.bVarsInitialized <;> constructor <;> grind [Place.initialising]
  | create t =>
    obtain ⟨howned, hunset, hsingle, huntouched, htable⟩ := h
    obtain ⟨hplace, rfl⟩ := Runs.guarded_eq_some.mp hstep
    have hfirst : (s.place t).initialising = true := by rw [hplace]; rfl
    have hflag := hunset t hfirst
    constructor <;> grind [Place.initialising]
  | empty t =>
    obtain ⟨howned, hunset, hsingle, huntouched, htable⟩ := h
    obtain ⟨hplace, rfl⟩ := Runs.guarded_eq_some.mp hstep
    have hfirst : (s.place t).initialising = true := by rw [hplace]; rfl
    have hflag := hunset t hfirst
    constructor <;> grind [Place.initialising]
  | announce t =>
    obtain ⟨howned, hunset, hsingle, huntouched, htable⟩ := h
    obtain ⟨hplace, rfl⟩ := Runs.guarded_eq_some.mp hstep
    have hfirst : (s.place t).initialising = true := by rw [hplace]; rfl
    have hflag := hunset t hfirst
    constructor <;> grind [Place.initialising]
  | enter t =>
    obtain ⟨⟨hplace, hfree⟩, rfl⟩ := Runs.guarded_eq_some.mp hstep
    obtain ⟨hset, hnone⟩ := h.initialised (.inl hplace)
    have howned := h.owned
    refine Guarded.of_initialised hset ?_ ?_ h.table
    · grind [Place.initialising]
    · grind
  | work t pHooks =>
    obtain ⟨hplace, rfl⟩ := Runs.guarded_eq_some.mp hstep
    obtain ⟨hset, hnone⟩ := h.initialised (.inr hplace)
    exact Guarded.of_initialised hset hnone h.owned rfl
  | leave t =>
    obtain ⟨hplace, rfl⟩ := Runs.guarded_eq_some.mp hstep
    obtain ⟨hset, hnone⟩ := h.initialised (.inr hplace)
    have howner := h.owned t hplace
    have howned := h.owned
    refine Guarded.of_initialised hset ?_ ?_ h.table
    · grind [Place.initialising]
    · grind

theorem guarded_of_reaches (h : Runs.Reaches step Unraced start s) : s.Guarded :=
  h.invariant (fun _ _ _ hguarded hok hstep => hguarded.step hok hstep) guarded_start

/-- Once the flag is set, a thread may come in at any time. -/
theorem Guarded.unraced (h : s.Guarded) (hset : s.bVarsInitialized = true) (a : Move) :
    s.Unraced a := by
  cases a with
  | check t => exact h.nobody_initialises hset
  | _ => trivial

/-- As long as nobody comes in while the section is being created, two threads are never inside
at once, and no hook is lost. -/
theorem reaches_exclusive (h : Runs.Reaches step Unraced start s) :
    (∀ t u, s.place t = .inside → s.place u = .inside → t = u) ∧ s.pHooks = s.written := by
  have hguarded := guarded_of_reaches h
  refine ⟨?_, hguarded.table⟩
  intro t u ht hu
  have howner := hguarded.owned t ht
  rw [hguarded.owned u hu] at howner
  exact (Option.some.inj howner).symm

/-- Thread 0 comes first and puts a hook into the table; thread 1 arrives meanwhile, waits until
thread 0 has left, and finds the hook. -/
theorem reaches_exclusive_two : ∃ s : Shared, s.place 0 = .outside ∧ s.place 1 = .inside ∧
    s.pHooks = [some 0x10000] ∧
    (∀ t u, s.place t = .inside → s.place u = .inside → t = u) ∧ s.pHooks = s.written := by
  have entered : Runs.Reaches step Unraced start _ :=
    Runs.Reaches.refl.tail (a := .check 0) (fun _ => rfl) rfl
      |>.tail (a := .create 0) trivial rfl |>.tail (a := .empty 0) trivial rfl
      |>.tail (a := .announce 0) trivial rfl |>.tail (a := .enter 0) trivial rfl
      |>.tail (a := .work 0 [some 0x10000]) trivial rfl
  have arrived : Runs.Reaches step Unraced start _ :=
    entered.tail (a := .check 1) ((guarded_of_reaches entered).unraced rfl (.check 1)) rfl
  have left : Runs.Reaches step Unraced start _ :=
    arrived.tail (a := .leave 0) (by trivial) rfl |>.tail (a := .enter 1) (by trivial) rfl
  exact ⟨_, rfl, rfl, rfl, reaches_exclusive left⟩

/-- Two threads that both find the flag unset end up inside together, and what one of them has
written to the table is gone. -/
theorem first_calls_collide : ∃ s, Runs.Reaches step (fun _ _ => True) start s ∧
    s.place 0 = .inside ∧ s.place 1 = .inside ∧ s.pHooks ≠ s.written := by
  have hrun : Runs.run step start [.check 0, .check 1, .create 0, .empty 0, .announce 0, .enter 0,
      .work 0 [some 0x10000], .create 1, .empty 1, .announce 1, .enter 1] = some _ := rfl
  refine ⟨_, Runs.reaches_of_run hrun (fun _ _ _ => trivial), rfl, rfl, ?_⟩
  decide

end Guarded

end Shared

end ComputerLock.Mhook
