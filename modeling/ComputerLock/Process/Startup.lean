import ComputerLock.Library.Runs
import ComputerLock.Process.Handler

/-!
# Starting up

`main` lists the running processes, checks each of them, sets up COM and WMI, and from then
on checks every process whose creation is reported. Processes come and go all the while.
A process is known by its identifier, which may be given again once the process has ended.
-/

namespace ComputerLock.Process
open Library

/-- The calls in the constructor of `MonitorProcessCreation`; the last one subscribes. -/
inductive SetUp where
  | initializeCOMLibrary
  | obtainWMILocator
  | connectWMINamespace
  | setWMIConnectionSecurity
  | receiveEventNotifications
  deriving DecidableEq

def SetUp.next : SetUp → Option SetUp
  | .initializeCOMLibrary => some .obtainWMILocator
  | .obtainWMILocator => some .connectWMINamespace
  | .connectWMINamespace => some .setWMIConnectionSecurity
  | .setWMIConnectionSecurity => some .receiveEventNotifications
  | .receiveEventNotifications => none

/-- Where `main` is. -/
inductive Phase where
  | retrieveOpenProcesses
  /-- the loop of `CheckOpenProcesses`, with the identifiers it has still to check -/
  | checkOpenProcesses (rest : List ℕ)
  | setUp (call : SetUp)
  /-- subscribed, and asleep -/
  | waiting
  /-- nothing is checked any more -/
  | ended
  deriving DecidableEq

structure State where
  phase : Phase
  alive : List ℕ
  /-- the identifiers given to `CheckProcessPotential` since their process was created -/
  checked : List ℕ
  /-- the creations reported and not yet indicated -/
  events : List ℕ

inductive Move where
  | create (processID : ℕ)
  | exit (processID : ℕ)
  /-- `EnumProcesses` -/
  | snapshot (processIDs : List ℕ)
  /-- the next turn of the loop of `CheckOpenProcesses` -/
  | check (answers : Answers)
  /-- the end of that loop -/
  | swept
  /-- the next call of the set-up -/
  | setUp (succeeds : Bool)
  /-- `EventSink::Indicate` of one object -/
  | indicate (processID : ℕ) (answers : Answers)
  /-- the client is ended by something else, such as an exception in the update loop -/
  | terminate

namespace State

/-- Identifier 0 belongs to the idle process. WMI reports a creation once it is subscribed. -/
def create (s : State) (p : ℕ) : Option State :=
  if p = 0 ∨ p ∈ s.alive then none
  else some { s with
    alive := p :: s.alive
    checked := s.checked.filter (· ≠ p)
    events := if s.phase = .waiting then p :: s.events else s.events }

def exit (s : State) (p : ℕ) : State := { s with alive := s.alive.filter (· ≠ p) }

/-- The list need not be complete; it is empty when the call fails. -/
def snapshot (s : State) (ps : List ℕ) : Option State :=
  if s.phase = .retrieveOpenProcesses then some { s with phase := .checkOpenProcesses ps }
  else none

/-- An exception that leaves the check leaves the loop and `main`. -/
def check (s : State) (a : Answers) : Option State :=
  match s.phase with
  | .checkOpenProcesses (p :: rest) => some { s with
      phase := if a.Throws then .ended else .checkOpenProcesses rest
      checked := p :: s.checked }
  | _ => none

def swept (s : State) : Option State :=
  if s.phase = .checkOpenProcesses [] then some { s with phase := .setUp .initializeCOMLibrary }
  else none

/-- When a call fails, the constructor and then `main` return. -/
def setUp (s : State) (succeeds : Bool) : Option State :=
  match s.phase with
  | .setUp call => some { s with
      phase := if succeeds then call.next.elim .waiting .setUp else .ended }
  | _ => none

/-- Reported creations are indicated in any order. An exception that leaves the check is taken to
end the client. -/
def indicate (s : State) (p : ℕ) (a : Answers) : Option State :=
  if s.phase = .waiting ∧ p ∈ s.events then
    some { s with
      phase := if p ≠ 0 ∧ a.Throws then .ended else .waiting
      events := s.events.erase p
      checked := if p ≠ 0 then p :: s.checked else s.checked }
  else none

def terminate (s : State) : State := { s with phase := .ended }

def step (s : State) : Move → Option State
  | .create p => s.create p
  | .exit p => some (s.exit p)
  | .snapshot ps => s.snapshot ps
  | .check a => s.check a
  | .swept => s.swept
  | .setUp succeeds => s.setUp succeeds
  | .indicate p a => s.indicate p a
  | .terminate => some s.terminate

def start (alive : List ℕ) : State where
  phase := .retrieveOpenProcesses
  alive := alive
  checked := []
  events := []

/-- The identifier is going to be checked. -/
def Due (s : State) (p : ℕ) : Prop :=
  match s.phase with
  | .retrieveOpenProcesses => True
  | .checkOpenProcesses rest => p ∈ rest
  | .setUp _ => False
  | .waiting => p ∈ s.events
  | .ended => False

/-- Every process alive has been checked or is going to be. -/
def Covered (s : State) : Prop := ∀ p ∈ s.alive, p ∈ s.checked ∨ s.Due p

/-- `main` is asleep, and every reported creation has been indicated. -/
def Drained (s : State) : Prop := s.phase = .waiting ∧ s.events = []

/-- The snapshot lists every process alive. -/
def Complete (s : State) : Move → Prop
  | .snapshot ps => ∀ p ∈ s.alive, p ∈ ps
  | _ => True

/-- No process is created between the snapshot and the subscription, unless its identifier
is among those still to be checked. -/
def NoGap (s : State) : Move → Prop
  | .create p =>
    match s.phase with
    | .checkOpenProcesses rest => p ∈ rest
    | .setUp _ => False
    | _ => True
  | _ => True

end State

/-- The calls of the set-up succeed. -/
def Move.SetsUp : Move → Prop
  | .setUp succeeds => succeeds = true
  | _ => True

/-- No check throws, and nothing else ends the client. -/
def Move.Returns : Move → Prop
  | .check a => ¬ a.Throws
  | .indicate _ a => ¬ a.Throws
  | .terminate => False
  | _ => True

namespace State

/-- What is taken for granted: the snapshot lists every process alive, and the calls of the set-up
succeed. -/
def Granted (s : State) (m : Move) : Prop := s.Complete m ∧ m.SetsUp

/-- Besides, nothing is created in the gap, and every check returns. -/
def Smooth (s : State) (m : Move) : Prop := s.Granted m ∧ s.NoGap m ∧ m.Returns

/-! ## Each move keeps the processes covered -/

/-- As long as the client runs, the processes are covered; no creation of process 0 is reported. -/
structure Consistent (s : State) : Prop where
  covered : s.phase ≠ .ended → s.Covered
  events : 0 ∉ s.events

section Moves

variable {s s' : State} {p : ℕ} {a : Answers}

theorem create_consistent (h : s.Consistent) (noGap : s.NoGap (.create p))
    (hstep : s.create p = some s') : s'.Consistent := by
  unfold create at hstep
  split_ifs at hstep with hbad hwaiting
  all_goals
    obtain rfl := Option.some.inj hstep
    have hp : p ≠ 0 := fun h0 => hbad (.inl h0)
    refine ⟨fun hrunning q hq => ?_, ?_⟩
  · rcases List.mem_cons.mp hq with rfl | hq
    · exact .inr (by simp [Due, hwaiting])
    · have hne : q ≠ p := fun heq => hbad (.inr (heq ▸ hq))
      have := h.covered hrunning q hq
      grind [Due]
  · simp [h.events, Ne.symm hp]
  · rcases List.mem_cons.mp hq with rfl | hq
    · right
      cases hphase : s.phase <;> grind [NoGap, Due]
    · have hne : q ≠ p := fun heq => hbad (.inr (heq ▸ hq))
      exact (h.covered hrunning q hq).imp_left fun hc => by simpa [hne] using hc
  · exact h.events

theorem exit_consistent (h : s.Consistent) (p : ℕ) : (s.exit p).Consistent :=
  ⟨fun hrunning q hq => h.covered hrunning q (List.mem_of_mem_filter hq), h.events⟩

theorem snapshot_consistent {ps : List ℕ} (h : s.Consistent) (complete : s.Complete (.snapshot ps))
    (hstep : s.snapshot ps = some s') : s'.Consistent := by
  obtain ⟨-, rfl⟩ := Runs.guarded_eq_some.mp hstep
  exact ⟨fun _ q hq => .inr (complete q hq), h.events⟩

/-- What a turn of the sweep does. -/
theorem check_cases (hstep : s.check a = some s') : ∃ p rest,
    s.phase = .checkOpenProcesses (p :: rest) ∧ s' = { s with
      phase := if a.Throws then .ended else .checkOpenProcesses rest
      checked := p :: s.checked } := by
  unfold check at hstep
  split at hstep
  next p rest hphase => exact ⟨p, rest, hphase, (Option.some.inj hstep).symm⟩
  next => cases hstep

theorem check_consistent (h : s.Consistent) (hstep : s.check a = some s') : s'.Consistent := by
  obtain ⟨p, rest, hphase, rfl⟩ := check_cases hstep
  refine ⟨fun hrunning q hq => ?_, h.events⟩
  have hcovered := h.covered (by simp [hphase]) q hq
  rw [Due, hphase] at hcovered
  by_cases hthrows : a.Throws
  · exact absurd (if_pos hthrows) hrunning
  · simp only [Due, if_neg hthrows]
    rcases hcovered with hc | hdue
    · exact .inl (List.mem_cons_of_mem _ hc)
    · exact (List.mem_cons.mp hdue).imp_left fun heq => List.mem_cons.mpr (.inl heq)

theorem swept_consistent (h : s.Consistent) (hstep : s.swept = some s') : s'.Consistent := by
  obtain ⟨hphase, rfl⟩ := Runs.guarded_eq_some.mp hstep
  refine ⟨fun _ q hq => .inl ?_, h.events⟩
  have hcovered := h.covered (by simp [hphase]) q hq
  rw [Due, hphase] at hcovered
  exact hcovered.resolve_right List.not_mem_nil

theorem setUp_cases {succeeds : Bool} (hstep : s.setUp succeeds = some s') : ∃ call,
    s.phase = .setUp call ∧ s' = { s with
      phase := if succeeds then call.next.elim .waiting .setUp else .ended } := by
  unfold setUp at hstep
  split at hstep
  next call hphase => exact ⟨call, hphase, (Option.some.inj hstep).symm⟩
  next => cases hstep

/-- Nothing is due during the set-up. -/
theorem setUp_consistent {succeeds : Bool} (h : s.Consistent)
    (hstep : s.setUp succeeds = some s') : s'.Consistent := by
  obtain ⟨call, hphase, rfl⟩ := setUp_cases hstep
  refine ⟨fun _ q hq => .inl ?_, h.events⟩
  have hcovered := h.covered (by simp [hphase]) q hq
  rw [Due, hphase] at hcovered
  exact hcovered.resolve_right not_false

theorem indicate_consistent (h : s.Consistent) (hstep : s.indicate p a = some s') :
    s'.Consistent := by
  obtain ⟨⟨hphase, hp⟩, rfl⟩ := Runs.guarded_eq_some.mp hstep
  have hne : p ≠ 0 := fun h0 => h.events (h0 ▸ hp)
  refine ⟨fun hrunning q hq => ?_, fun h0 => h.events (List.mem_of_mem_erase h0)⟩
  by_cases heq : q = p
  · exact .inl (by simp [hne, heq])
  · have := h.covered (by simp [hphase]) q hq
    grind [Due]

theorem step_consistent {m : Move} (h : s.Consistent) (complete : s.Complete m)
    (noGap : s.NoGap m) (hstep : s.step m = some s') : s'.Consistent := by
  cases m with
  | create p => exact create_consistent h noGap hstep
  | exit p => exact Option.some.inj hstep ▸ exit_consistent h p
  | snapshot ps => exact snapshot_consistent h complete hstep
  | check a => exact check_consistent h hstep
  | swept => exact swept_consistent h hstep
  | setUp succeeds => exact setUp_consistent h hstep
  | indicate p a => exact indicate_consistent h hstep
  | terminate => exact Option.some.inj hstep ▸ ⟨fun hrunning => absurd rfl hrunning, h.events⟩

/-- The client does not end by itself. -/
theorem step_running {m : Move} (h : s.phase ≠ .ended) (hsetsUp : m.SetsUp)
    (hreturns : m.Returns) (hstep : s.step m = some s') : s'.phase ≠ .ended := by
  cases m with
  | create p =>
    simp only [step, create] at hstep
    split_ifs at hstep
    all_goals exact Option.some.inj hstep ▸ h
  | exit p => exact Option.some.inj hstep ▸ h
  | snapshot ps =>
    obtain ⟨-, rfl⟩ := Runs.guarded_eq_some.mp hstep
    exact Phase.noConfusion
  | check a =>
    obtain ⟨p, rest, -, rfl⟩ := check_cases hstep
    simp [if_neg (show ¬ a.Throws from hreturns)]
  | swept =>
    obtain ⟨-, rfl⟩ := Runs.guarded_eq_some.mp hstep
    exact Phase.noConfusion
  | setUp succeeds =>
    obtain ⟨call, -, rfl⟩ := setUp_cases hstep
    obtain rfl : succeeds = true := hsetsUp
    cases call <;> exact Phase.noConfusion
  | indicate p a =>
    obtain ⟨-, rfl⟩ := Runs.guarded_eq_some.mp hstep
    have hnot : ¬ (p ≠ 0 ∧ a.Throws) := fun hthrows => hreturns hthrows.2
    simp [if_neg hnot]
  | terminate => exact hreturns.elim

end Moves

/-! ## Runs -/

theorem Covered.checked {s : State} (h : s.Covered) (drained : s.Drained) :
    ∀ p ∈ s.alive, p ∈ s.checked := by
  intro p hp
  have := h p hp
  grind [Due, Drained]

theorem consistent_of_reaches {alive : List ℕ} {s : State}
    (h : Runs.Reaches step (fun s m => s.Complete m ∧ s.NoGap m) (start alive) s) :
    s.Consistent :=
  h.invariant (P := Consistent)
    (fun _ _ _ hs ok hstep => step_consistent hs ok.1 ok.2 hstep)
    ⟨fun _ _ _ => .inr trivial, List.not_mem_nil⟩

theorem running_of_reaches {alive : List ℕ} {s : State}
    (h : Runs.Reaches step Smooth (start alive) s) : s.phase ≠ .ended :=
  h.invariant (P := fun s => s.phase ≠ .ended)
    (fun _ _ _ hs ok hstep => step_running hs ok.1.2 ok.2.2 hstep) Phase.noConfusion

theorem covered_of_reaches {alive : List ℕ} {s : State}
    (h : Runs.Reaches step Smooth (start alive) s) : s.Covered :=
  (consistent_of_reaches (h.mono fun _ _ ok => ⟨ok.1.1, ok.2.1⟩)).covered (running_of_reaches h)

/-- The process cannot be opened. -/
def unopened : Answers := { named fun _ => [] with openProcess := null }

theorem not_throws_unopened : ¬ unopened.Throws := fun h => h.1 rfl

/-- A move that neither creates nor ends a process. -/
def Quiet (s : State) (m : Move) : Prop :=
  s.Smooth m ∧ match m with
    | .create _ => False
    | .exit _ => False
    | _ => True

/-- How many moves are left until every reported creation has been indicated. -/
def remaining (s : State) : ℕ :=
  s.events.length + match s.phase with
    | .retrieveOpenProcesses => s.alive.length + 7
    | .checkOpenProcesses rest => rest.length + 6
    | .setUp .initializeCOMLibrary => 5
    | .setUp .obtainWMILocator => 4
    | .setUp .connectWMINamespace => 3
    | .setUp .setWMIConnectionSecurity => 2
    | .setUp .receiveEventNotifications => 1
    | .waiting => 0
    | .ended => 0

theorem exists_quiet_step {s : State} (h : ¬ (s.Drained ∨ s.phase = .ended)) :
    ∃ m s', s.Quiet m ∧ s.step m = some s' ∧ s'.remaining < s.remaining := by
  obtain ⟨phase, alive, checked, events⟩ := s
  match phase with
  | .retrieveOpenProcesses =>
    refine ⟨.snapshot alive, _, ⟨⟨⟨fun _ hp => hp, trivial⟩, trivial, trivial⟩, trivial⟩, rfl, ?_⟩
    simp [remaining]
  | .checkOpenProcesses [] =>
    exact ⟨.swept, _, ⟨⟨⟨trivial, trivial⟩, trivial, trivial⟩, trivial⟩, rfl, by simp [remaining]⟩
  | .checkOpenProcesses (p :: rest) =>
    refine ⟨.check unopened, _,
      ⟨⟨⟨trivial, trivial⟩, trivial, not_throws_unopened⟩, trivial⟩, rfl, ?_⟩
    simp [remaining, not_throws_unopened]
  | .setUp call =>
    refine ⟨.setUp true, _, ⟨⟨⟨trivial, rfl⟩, trivial, trivial⟩, trivial⟩, rfl, ?_⟩
    cases call <;> simp [remaining, SetUp.next]
  | .waiting =>
    match events, h with
    | [], h => exact absurd (.inl ⟨rfl, rfl⟩) h
    | p :: events, _ =>
      refine ⟨.indicate p unopened, _,
        ⟨⟨⟨trivial, trivial⟩, trivial, not_throws_unopened⟩, trivial⟩, if_pos ⟨rfl, by simp⟩, ?_⟩
      simp [remaining, not_throws_unopened]
  | .ended => exact absurd (.inr rfl) h

theorem alive_of_quiet {s t : State} (h : Runs.Reaches step Quiet s t) : t.alive = s.alive := by
  refine h.invariant (P := fun t => t.alive = s.alive) (fun t m u ht quiet hstep => ?_) rfl
  rw [← ht]
  cases m with
  | create p => exact quiet.2.elim
  | exit p => exact quiet.2.elim
  | snapshot ps =>
    obtain ⟨-, rfl⟩ := Runs.guarded_eq_some.mp hstep
    exact rfl
  | check a =>
    obtain ⟨p, rest, -, rfl⟩ := check_cases hstep
    exact rfl
  | swept =>
    obtain ⟨-, rfl⟩ := Runs.guarded_eq_some.mp hstep
    exact rfl
  | setUp succeeds =>
    obtain ⟨call, -, rfl⟩ := setUp_cases hstep
    exact rfl
  | indicate p a =>
    obtain ⟨-, rfl⟩ := Runs.guarded_eq_some.mp hstep
    exact rfl
  | terminate => exact quiet.1.2.2.elim

/-- Left alone, `main` comes to a state in which every process now alive has been checked. -/
theorem exists_checked {alive : List ℕ} {s : State}
    (h : Runs.Reaches step Smooth (start alive) s) :
    ∃ t, Runs.Reaches step Quiet s t ∧ t.Drained ∧ ∀ p ∈ s.alive, p ∈ t.checked := by
  obtain ⟨t, hquiet, hdone⟩ :=
    Runs.exists_reaches_of_decreasing remaining (fun _ => exists_quiet_step) s
  have hreach := h.trans (hquiet.mono fun _ _ quiet => quiet.1)
  have drained := hdone.resolve_right (running_of_reaches hreach)
  refine ⟨t, hquiet, drained, fun p hp => ?_⟩
  exact (covered_of_reaches hreach).checked drained p (alive_of_quiet hquiet ▸ hp)

/-- After an exception has left a check, whoever has not been checked never is. -/
theorem checked_of_ended {s t : State} (hended : s.phase = .ended)
    (h : Runs.Reaches step (fun _ _ => True) s t) : t.phase = .ended ∧ t.checked ⊆ s.checked := by
  refine h.invariant (P := fun t => t.phase = .ended ∧ t.checked ⊆ s.checked)
    (fun t m u ⟨ht, hsub⟩ _ hstep => ?_) ⟨hended, List.Subset.refl _⟩
  cases m with
  | create p =>
    simp only [step, create] at hstep
    split_ifs at hstep
    all_goals
      obtain rfl := Option.some.inj hstep
      exact ⟨ht, fun q hq => hsub (List.mem_of_mem_filter hq)⟩
  | exit p => exact Option.some.inj hstep ▸ ⟨ht, hsub⟩
  | terminate => exact Option.some.inj hstep ▸ ⟨rfl, hsub⟩
  | _ => simp [step, snapshot, check, swept, setUp, indicate, ht] at hstep

/-- The list of safe processes is the byte 255: the check of process 4 ends `main` before it comes
to process 8. -/
example : (State.check ⟨.checkOpenProcesses [4, 8], [4, 8], [], []⟩ (named fun _ => [255])).map
    (fun s => (s.phase, s.checked)) = some (.ended, [4]) := by decide

end State
end ComputerLock.Process
