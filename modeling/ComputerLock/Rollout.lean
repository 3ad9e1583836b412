import Mathlib.Data.List.Pairwise
import ComputerLock.Library.Runs
import ComputerLock.Client.Ordering
import ComputerLock.Process.AllowList
import ComputerLock.Trampoline.Policy

/-!
# From the server to the decisions

The update loop, the checks of processes and the hooks in all inspected processes share nothing but
the settings files. Here the loop runs its turns, and between them any process is checked and any
hook decides.
-/

namespace ComputerLock
open Library Common Client

/-- What a reader of the settings files has decided. -/
inductive Ruling where
  /-- `IsImportant`, in some hook -/
  | hook (filePath : Bytes) (important : Bool)
  /-- `IsProcessSafe` -/
  | check (szProcessName : WString) (safe : Except Fault Bool)

/-- The ruling is the one these files ask for. -/
def Ruling.Follows (disk : Disk) : Ruling → Prop
  | .hook filePath important =>
    important = Trampoline.isImportant filePath (disk .fileExtensions)
  | .check szProcessName safe => safe = Process.isProcessSafe szProcessName disk

structure Rollout where
  session : Session
  /-- the last one first -/
  rulings : List Ruling

/-- A hook or a check is made where the settings files can be opened. -/
inductive Happening where
  | turn (x : Exchange)
  | hook (filePath : Bytes)
  | check (szProcessName : WString)

namespace Rollout

def start (l : Loop) : Rollout := ⟨Session.start l, []⟩

def step (r : Rollout) : Happening → Option Rollout
  | .turn x => (r.session.step x).map fun session => { r with session }
  | .hook filePath =>
    let file := r.session.loop.disk .fileExtensions
    some { r with rulings := .hook filePath (Trampoline.isImportant filePath file) :: r.rulings }
  | .check szProcessName =>
    let safe := Process.isProcessSafe szProcessName r.session.loop.disk
    some { r with rulings := .check szProcessName safe :: r.rulings }

/-- The polls end at the boundaries of frames. -/
def AtBoundary (r : Rollout) : Happening → Prop
  | .turn x => r.session.AtBoundary x
  | _ => True

/-- The ruling follows this version of the settings. -/
def Explains (disk : Disk) (sent : List Frame) (n : ℕ) (ruling : Ruling) : Prop :=
  ∃ d, version disk sent n = some d ∧ ruling.Follows d

/-- Each ruling has a version that explains it, and later rulings have no earlier versions. -/
def Ordered (disk : Disk) (r : Rollout) (versions : List ℕ) : Prop :=
  versions.Pairwise (· ≥ ·) ∧ List.Forall₂ (Explains disk r.session.sent) versions r.rulings

/-- The version on disk is not earlier than those decided by. -/
structure Upto (disk : Disk) (n : ℕ) (r : Rollout) : Prop where
  current : r.session.Current disk n
  ordered : ∃ versions, (∀ v ∈ versions, v ≤ n) ∧ r.Ordered disk versions

section Steps

variable {disk : Disk} {n : ℕ} {r r' : Rollout}

theorem follows_of_sameSettings {d d' : Disk} {ruling : Ruling} (h : SameSettings d d')
    (hruling : ruling.Follows d) : ruling.Follows d' := by
  obtain ⟨hprocesses, -, hextensions⟩ := h
  cases ruling with
  | hook filePath important => exact hruling.trans (by rw [hextensions])
  | check szProcessName safe =>
    have hparams : getParamsFromFile .processes d = getParamsFromFile .processes d' := by
      rw [getParamsFromFile, getParamsFromFile, hprocesses]
    exact hruling.trans (by rw [Process.isProcessSafe, Process.isProcessSafe, hparams])

theorem Explains.append {sent : List Frame} {ruling : Ruling}
    (h : Explains disk sent n ruling) (more : List Frame) :
    Explains disk (sent ++ more) n ruling := by
  obtain ⟨d, hversion, hfollows⟩ := h
  exact ⟨d, version_append hversion more, hfollows⟩

theorem turn_upto {x : Exchange} (h : r.Upto disk n) (boundary : r.AtBoundary (.turn x))
    (hstep : r.step (.turn x) = some r') : ∃ n', r'.Upto disk n' := by
  obtain ⟨session, hsession, rfl⟩ := Option.map_eq_some_iff.mp hstep
  obtain ⟨n', hle, hcurrent⟩ := h.current.step boundary hsession
  obtain ⟨-, hsent, -, -⟩ := Session.step_cases hsession
  obtain ⟨versions, hbound, hpairwise, hexplained⟩ := h.ordered
  refine ⟨n', hcurrent, versions, fun v hv => (hbound v hv).trans hle, hpairwise, ?_⟩
  rw [hsent]
  exact hexplained.imp fun _ _ hexplains => hexplains.append _

/-- A ruling by the files on disk is explained by their version, the latest one. -/
theorem ruling_upto {ruling : Ruling} (h : r.Upto disk n)
    (hruling : ruling.Follows r.session.loop.disk) :
    Upto disk n { r with rulings := ruling :: r.rulings } := by
  obtain ⟨d, hversion, hsame⟩ := h.current.holds
  obtain ⟨versions, hbound, hpairwise, hexplained⟩ := h.ordered
  refine ⟨h.current, n :: versions, ?_, List.pairwise_cons.mpr ⟨hbound, hpairwise⟩, ?_⟩
  · exact List.forall_mem_cons.mpr ⟨le_rfl, hbound⟩
  · exact .cons ⟨d, hversion, follows_of_sameSettings hsame hruling⟩ hexplained

theorem step_upto {a : Happening} (h : r.Upto disk n) (boundary : r.AtBoundary a)
    (hstep : r.step a = some r') : ∃ n', r'.Upto disk n' := by
  cases a with
  | turn x => exact turn_upto h boundary hstep
  | hook filePath =>
    obtain rfl := Option.some.inj hstep
    exact ⟨n, ruling_upto h rfl⟩
  | check szProcessName =>
    obtain rfl := Option.some.inj hstep
    exact ⟨n, ruling_upto h rfl⟩

end Steps

/-- In every run whose polls end at frame boundaries, each hook and each check decides by one
frame of the server, or by the files as they were, and no decision goes back to an earlier
frame than one before it, in whichever process it is made. -/
theorem reaches_ordered {l : Loop} {r : Rollout}
    (h : Runs.Reaches step AtBoundary (start l) r) : ∃ versions, r.Ordered l.disk versions := by
  obtain ⟨n, hupto⟩ : ∃ n, r.Upto l.disk n := by
    apply h.invariant (P := fun r => ∃ n, r.Upto l.disk n)
    · intro _ _ _ ⟨n, hupto⟩ boundary hstep
      exact step_upto hupto boundary hstep
    · exact ⟨0, Session.current_start l, [], by simp, List.Pairwise.nil, .nil⟩
  obtain ⟨versions, -, hordered⟩ := hupto.ordered
  exact ⟨versions, hordered⟩

/-- The frame `1:a:b:cd` comes between two calls for the file `cd`. -/
theorem reaches_ordered_frame : ∃ r : Rollout,
    r.rulings = [.hook [99, 100] true, .hook [99, 100] false] ∧
    ∃ versions, r.Ordered Loop.opened.disk versions := by
  have hne : Session.frame.bytes ≠ [] := by decide
  have hle : Session.frame.bytes.length ≤ bufLength := by decide
  obtain ⟨s, hstep, -, hdisk⟩ := Session.step_firstExchange hne hle List.prefix_rfl
  have before : Runs.Reaches step AtBoundary (start Loop.opened) _ :=
    Runs.Reaches.refl.tail (a := Happening.hook [99, 100]) trivial rfl
  have boundary : ∀ rulings, AtBoundary ⟨Session.start Loop.opened, rulings⟩
      (.turn (Session.firstExchange Session.frame.bytes hne hle)) :=
    fun _ _ => .inr ⟨[], Session.frame, [], rfl, rfl, congrArg _ (took_once _ hne hle)⟩
  have stored := before.tail (boundary _)
    (congrArg (Option.map fun session => Rollout.mk session _) hstep)
  have run := stored.tail (a := Happening.hook [99, 100]) trivial rfl
  refine ⟨_, ?_, reaches_ordered run⟩
  rw [hdisk]
  rfl

end Rollout

end ComputerLock
