import ComputerLock.Library.Runs
import ComputerLock.CommonTools

/-!
# Subscribing to process creations

The constructor of `MonitorProcessCreation` obtains one interface after the other, and cleans up
when a call fails. COM holds references to the event sink, and takes and gives them back from
threads of its own, between any two calls of the constructor.
-/

namespace ComputerLock.Process
open Library

/-! ## The event sink -/

/-- An `EventSink`: its counter, and how often it has been deleted. -/
structure EventSink where
  m_lRef : ℤ
  deleted : ℕ

namespace EventSink

def new : EventSink := ⟨0, 0⟩

def addRef (o : EventSink) : EventSink := { o with m_lRef := o.m_lRef + 1 }

def release (o : EventSink) : EventSink :=
  let lRef := o.m_lRef - 1
  { m_lRef := lRef
    deleted := if lRef = 0 then o.deleted + 1 else o.deleted }

/-- Asked for an interface that it has, or for another one. -/
def queryInterface (o : EventSink) (known : Bool) : EventSink := if known then o.addRef else o

/-- The counter counts the references that are held, and the sink is there as long as any is. -/
def Counts (o : EventSink) (refs : ℕ) : Prop :=
  o.m_lRef = refs ∧ o.deleted = if refs = 0 then 1 else 0

variable {o : EventSink} {refs : ℕ}

theorem counts_new : new.addRef.Counts 1 := ⟨rfl, rfl⟩

theorem Counts.addRef (h : o.Counts refs) (hpos : 0 < refs) : o.addRef.Counts (refs + 1) := by
  obtain ⟨hcount, hdeleted⟩ := h
  rw [if_neg (by omega)] at hdeleted
  refine ⟨?_, ?_⟩
  · simp [EventSink.addRef, hcount]
  · simp [EventSink.addRef, hdeleted]

theorem Counts.release (h : o.Counts (refs + 1)) : o.release.Counts refs := by
  obtain ⟨hcount, hdeleted⟩ := h
  rw [if_neg (by omega)] at hdeleted
  have hcount' : o.m_lRef - 1 = refs := by omega
  refine ⟨hcount', ?_⟩
  simp only [EventSink.release, hcount', hdeleted, Int.natCast_eq_zero]

theorem Counts.deleted_le (h : o.Counts refs) : o.deleted ≤ 1 := by
  rw [h.2]
  split_ifs <;> omega

end EventSink

/-! ## The constructor -/

/-- The call the constructor makes next. -/
inductive Stage where
  | coInitializeEx
  | coCreateLocator
  | connectServer
  | coSetProxyBlanket
  | coCreateApartment
  | addRef
  | createObjectStub
  | queryInterface
  | execNotificationQueryAsync
  /-- the loop that does not end -/
  | sleeping
  | returned
  /-- a call through a null pointer -/
  | crashed
  deriving DecidableEq

inductive SinkPhase where
  /-- the sink has not been used -/
  | unused
  /-- the constructor has a reference of its own -/
  | holding
  | finished

def Stage.phase : Stage → SinkPhase
  | .coInitializeEx | .coCreateLocator | .connectServer | .coSetProxyBlanket
  | .coCreateApartment | .addRef => .unused
  | .createObjectStub | .queryInterface | .execNotificationQueryAsync | .sleeping
  | .crashed => .holding
  | .returned => .finished

structure Subscription where
  pLoc : Option ℕ
  pSvc : Option ℕ
  pUnsecApp : Option ℕ
  pStubUnk : Option ℕ
  pStubSink : Option ℕ
  pSink : EventSink
  /-- how many references to the sink COM holds -/
  held : ℕ
  /-- the interfaces of which a reference has been given back -/
  released : List ℕ
  /-- the calls of `CoInitializeEx` that succeeded -/
  initialized : ℕ
  /-- the calls of `CoUninitialize` -/
  uninitialized : ℕ
  stage : Stage

inductive ComCall where
  | coInitializeEx (succeeds : Bool)
  | coCreateLocator (pLoc : Option ℕ)
  | connectServer (pSvc : Option ℕ)
  | coSetProxyBlanket (succeeds : Bool)
  | coCreateApartment (pUnsecApp : Option ℕ)
  | addRef
  /-- the stub, and how many references to the sink it takes -/
  | createObjectStub (pStubUnk : Option (ℕ × ℕ))
  | queryInterface (pStubSink : Option ℕ)
  | execNotificationQueryAsync (succeeds : Bool)
  /-- COM uses a reference it has -/
  | sinkAddRef
  | sinkQueryInterface (known : Bool)
  | sinkRelease

namespace Subscription

def start : Subscription :=
  ⟨none, none, none, none, none, EventSink.new, 0, [], 0, 0, .coInitializeEx⟩

/-- The interfaces obtained. -/
def obtained (s : Subscription) : List ℕ :=
  s.pLoc.toList ++ (s.pSvc.toList ++ (s.pUnsecApp.toList ++ (s.pStubUnk.toList ++
    s.pStubSink.toList)))

/-- `CleanUp(FALSE)`: wherever it is called, `cancelAsyncQuery` has not been set. -/
def cleanUp (s : Subscription) : Subscription :=
  { s with
    pSink := s.pSink.release
    released := s.released ++ (s.pSvc.toList ++ (s.pLoc.toList ++ (s.pUnsecApp.toList ++
      (s.pStubUnk.toList ++ s.pStubSink.toList))))
    uninitialized := s.uninitialized + 1
    stage := .returned }

def addRefs : ℕ → EventSink → EventSink
  | 0, o => o
  | n + 1, o => addRefs n o.addRef

def step (s : Subscription) : ComCall → Option Subscription
  | .coInitializeEx succeeds => if s.stage = .coInitializeEx then
      some (if succeeds then { s with initialized := s.initialized + 1, stage := .coCreateLocator }
        else s.cleanUp) else none
  | .coCreateLocator pLoc => if s.stage = .coCreateLocator then
      some (if pLoc.isSome then { s with pLoc := pLoc, stage := .connectServer }
        else s.cleanUp) else none
  | .connectServer pSvc => if s.stage = .connectServer then
      some (if pSvc.isSome then { s with pSvc := pSvc, stage := .coSetProxyBlanket }
        else s.cleanUp) else none
  | .coSetProxyBlanket succeeds => if s.stage = .coSetProxyBlanket then
      some (if succeeds then { s with stage := .coCreateApartment } else s.cleanUp) else none
  | .coCreateApartment pUnsecApp => if s.stage = .coCreateApartment then
      some { s with pUnsecApp := pUnsecApp, stage := .addRef } else none
  | .addRef => if s.stage = .addRef then
      some { s with pSink := s.pSink.addRef, stage := .createObjectStub } else none
  | .createObjectStub pStubUnk => if s.stage = .createObjectStub then
      some (if s.pUnsecApp.isSome then
        match pStubUnk with
        | some (pStubUnk, refs) => { s with
            pStubUnk := some pStubUnk
            pSink := addRefs refs s.pSink
            held := s.held + refs
            stage := .queryInterface }
        | none => { s with stage := .queryInterface }
      else { s with stage := .crashed }) else none
  | .queryInterface pStubSink => if s.stage = .queryInterface then
      some (if s.pStubUnk.isSome then
        { s with pStubSink := pStubSink, stage := .execNotificationQueryAsync }
      else { s with stage := .crashed }) else none
  | .execNotificationQueryAsync succeeds => if s.stage = .execNotificationQueryAsync then
      some (if succeeds then { s with stage := .sleeping } else s.cleanUp) else none
  | .sinkAddRef => if 0 < s.held then
      some { s with pSink := s.pSink.addRef, held := s.held + 1 } else none
  | .sinkQueryInterface known => if 0 < s.held then
      some { s with
        pSink := s.pSink.queryInterface known
        held := if known then s.held + 1 else s.held } else none
  | .sinkRelease => if 0 < s.held then
      some { s with pSink := s.pSink.release, held := s.held - 1 } else none

/-! ## The references to the sink -/

/-- Who holds the references that the counter of the sink counts. -/
inductive Kept (s : Subscription) : Prop
  | unused (hphase : s.stage.phase = .unused) (hsink : s.pSink = EventSink.new)
      (hheld : s.held = 0) (hstub : s.pStubUnk = none)
  | holding (hphase : s.stage.phase = .holding) (hcounts : s.pSink.Counts (s.held + 1))
      (hready : s.stage = .execNotificationQueryAsync → s.pStubUnk.isSome)
  | remaining (hphase : s.stage.phase = .finished) (hcounts : s.pSink.Counts s.held)
      (hstub : s.pStubUnk.isSome)
  /-- the reference given back had never been taken -/
  | lost (hphase : s.stage.phase = .finished) (hsink : s.pSink = ⟨-1, 0⟩) (hheld : s.held = 0)
      (hstub : s.pStubUnk = none)

section Sink

variable {s s' : Subscription} {o : EventSink} {refs : ℕ} {a : ComCall}

theorem kept_start : start.Kept := .unused rfl rfl rfl rfl

theorem counts_addRefs (h : o.Counts refs) (hpos : 0 < refs) (n : ℕ) :
    (addRefs n o).Counts (refs + n) := by
  induction n generalizing o refs with
  | zero => exact h
  | succ n ih =>
    have hnext := ih (h.addRef hpos) (Nat.succ_pos refs)
    rwa [Nat.add_right_comm] at hnext

theorem Kept.of_unused (h : s.Kept) (hphase : s.stage.phase = .unused) :
    s.pSink = EventSink.new ∧ s.held = 0 ∧ s.pStubUnk = none := by
  cases h with
  | unused _ hsink hheld hstub => exact ⟨hsink, hheld, hstub⟩
  | holding hother | remaining hother | lost hother =>
    rw [hphase] at hother
    cases hother

theorem Kept.of_holding (h : s.Kept) (hphase : s.stage.phase = .holding) :
    s.pSink.Counts (s.held + 1) := by
  cases h with
  | holding _ hcounts => exact hcounts
  | unused hother | remaining hother | lost hother =>
    rw [hphase] at hother
    cases hother

/-- The constructor goes on without using the sink. -/
theorem Kept.stay_unused (h : s.Kept) (hphase : s.stage.phase = .unused)
    (hphase' : s'.stage.phase = .unused) (hsink : s'.pSink = s.pSink) (hheld : s'.held = s.held)
    (hstub : s'.pStubUnk = s.pStubUnk) : s'.Kept := by
  obtain ⟨hnew, hnone, hnull⟩ := h.of_unused hphase
  exact .unused hphase' (hsink.trans hnew) (hheld.trans hnone) (hstub.trans hnull)

/-- Cleaning up before the sink has been used loses it. -/
theorem Kept.cleanUp_of_unused (h : s.Kept) (hphase : s.stage.phase = .unused) :
    s.cleanUp.Kept := by
  obtain ⟨hsink, hheld, hstub⟩ := h.of_unused hphase
  exact .lost rfl (by rw [cleanUp, hsink]; rfl) hheld hstub

/-- A call made before the sink has been used succeeds, or is cleaned up after. -/
theorem Kept.attempt (h : s.Kept) {p : Prop} [Decidable p] (hphase : s.stage.phase = .unused)
    (hphase' : s'.stage.phase = .unused) (hsink : s'.pSink = s.pSink) (hheld : s'.held = s.held)
    (hstub : s'.pStubUnk = s.pStubUnk) : (if p then s' else s.cleanUp).Kept := by
  split_ifs
  · exact h.stay_unused hphase hphase' hsink hheld hstub
  · exact h.cleanUp_of_unused hphase

/-- Cleaning up behind the subscription leaves the sink to COM. -/
theorem Kept.cleanUp_of_ready (h : s.Kept) (hstage : s.stage = .execNotificationQueryAsync) :
    s.cleanUp.Kept := by
  have hcounts := h.of_holding (by rw [hstage]; rfl)
  cases h with
  | holding _ _ hready => exact .remaining rfl hcounts.release (hready hstage)
  | unused hother | remaining hother | lost hother =>
    rw [hstage] at hother
    cases hother

/-- COM uses one of its references, in whichever phase that is possible. -/
theorem Kept.com (h : s.Kept) (hheld : 0 < s.held) (hstage : s'.stage = s.stage)
    (hstub : s'.pStubUnk = s.pStubUnk)
    (hmove : ∀ own, s.pSink.Counts (s.held + own) → s'.pSink.Counts (s'.held + own)) :
    s'.Kept := by
  cases h with
  | unused _ _ hnone | lost _ _ hnone => omega
  | holding hphase hcounts hready =>
    exact .holding (hstage ▸ hphase) (hmove 1 hcounts) (by rwa [hstage, hstub])
  | remaining hphase hcounts hsome =>
    exact .remaining (hstage ▸ hphase) (hmove 0 hcounts) (by rwa [hstub])

theorem Kept.sinkAddRef (h : s.Kept) (hheld : 0 < s.held) :
    Kept { s with pSink := s.pSink.addRef, held := s.held + 1 } := by
  refine h.com hheld rfl rfl ?_
  intro own hcounts
  have hmore := hcounts.addRef (by omega)
  rwa [Nat.add_right_comm] at hmore

theorem Kept.sinkRelease (h : s.Kept) (hheld : 0 < s.held) :
    Kept { s with pSink := s.pSink.release, held := s.held - 1 } := by
  refine h.com hheld rfl rfl ?_
  intro own hcounts
  obtain ⟨held, hsucc⟩ := Nat.exists_eq_succ_of_ne_zero hheld.ne'
  rw [hsucc, Nat.succ_add] at hcounts
  simpa [hsucc] using hcounts.release

theorem step_kept (h : s.Kept) (hstep : s.step a = some s') : s'.Kept := by
  cases a with
  | coInitializeEx succeeds | coCreateLocator pLoc | connectServer pSvc
  | coSetProxyBlanket succeeds =>
    obtain ⟨hstage, rfl⟩ := Runs.guarded_eq_some.mp hstep
    exact h.attempt (hstage ▸ rfl) rfl rfl rfl rfl
  | coCreateApartment pUnsecApp =>
    obtain ⟨hstage, rfl⟩ := Runs.guarded_eq_some.mp hstep
    exact h.stay_unused (hstage ▸ rfl) rfl rfl rfl rfl
  | addRef =>
    obtain ⟨hstage, rfl⟩ := Runs.guarded_eq_some.mp hstep
    obtain ⟨hsink, hheld, -⟩ := h.of_unused (by rw [hstage]; rfl)
    refine .holding rfl ?_ Stage.noConfusion
    simpa [hsink, hheld] using EventSink.counts_new
  | createObjectStub pStubUnk =>
    obtain ⟨hstage, rfl⟩ := Runs.guarded_eq_some.mp hstep
    have hcounts := h.of_holding (by rw [hstage]; rfl)
    split_ifs
    · cases pStubUnk with
      | some stub =>
        refine .holding rfl ?_ Stage.noConfusion
        have hmore := counts_addRefs hcounts (Nat.succ_pos _) stub.2
        rwa [Nat.add_right_comm] at hmore
      | none => exact .holding rfl hcounts Stage.noConfusion
    · exact .holding rfl hcounts Stage.noConfusion
  | queryInterface pStubSink =>
    obtain ⟨hstage, rfl⟩ := Runs.guarded_eq_some.mp hstep
    have hcounts := h.of_holding (by rw [hstage]; rfl)
    split_ifs with hstub
    · exact .holding rfl hcounts fun _ => hstub
    · exact .holding rfl hcounts Stage.noConfusion
  | execNotificationQueryAsync succeeds =>
    obtain ⟨hstage, rfl⟩ := Runs.guarded_eq_some.mp hstep
    split_ifs
    · exact .holding rfl (h.of_holding (by rw [hstage]; rfl)) Stage.noConfusion
    · exact h.cleanUp_of_ready hstage
  | sinkAddRef =>
    obtain ⟨hheld, rfl⟩ := Runs.guarded_eq_some.mp hstep
    exact h.sinkAddRef hheld
  | sinkQueryInterface known =>
    obtain ⟨hheld, rfl⟩ := Runs.guarded_eq_some.mp hstep
    cases known with
    | true => exact h.sinkAddRef hheld
    | false => exact h
  | sinkRelease =>
    obtain ⟨hheld, rfl⟩ := Runs.guarded_eq_some.mp hstep
    exact h.sinkRelease hheld

end Sink

/-! ## The interfaces, and COM itself -/

/-- Whether COM has been initialised, and what has been given back. -/
structure Settled (s : Subscription) : Prop where
  going : s.stage ≠ .returned → s.released = [] ∧ s.uninitialized = 0
  released : s.stage = .returned → s.released.Perm s.obtained ∧ s.uninitialized = 1
  first : s.stage = .coInitializeEx → s.initialized = 0 ∧ s.obtained = []
  initialized : s.stage ≠ .coInitializeEx →
    s.initialized = 1 ∨ s.stage = .returned ∧ s.initialized = 0 ∧ s.obtained = []

section Settled

variable {s s' : Subscription} {a : ComCall}

theorem settled_start : start.Settled := by
  refine ⟨fun _ => ⟨rfl, rfl⟩, Stage.noConfusion, fun _ => ⟨rfl, rfl⟩, ?_⟩
  exact fun hstage => absurd rfl hstage

theorem Settled.cleanUp (h : s.Settled) (hstage : s.stage ≠ .returned) : s.cleanUp.Settled := by
  obtain ⟨hnone, hzero⟩ := h.going hstage
  refine ⟨fun hgoing => absurd rfl hgoing, ?_, Stage.noConfusion, ?_⟩
  · intro _
    refine ⟨?_, by simp [Subscription.cleanUp, hzero]⟩
    simp only [Subscription.cleanUp, hnone, List.nil_append, obtained]
    rw [← List.append_assoc, ← List.append_assoc s.pLoc.toList]
    exact List.perm_append_comm.append_right _
  · intro _
    by_cases hfirst : s.stage = .coInitializeEx
    · exact .inr ⟨rfl, h.first hfirst⟩
    · exact .inl ((h.initialized hfirst).resolve_right fun hother => hstage hother.1)

/-- The constructor goes on with its next call. -/
theorem Settled.next (h : s.Settled) (hfirst : s.stage ≠ .coInitializeEx)
    (hstage : s.stage ≠ .returned) (hfirst' : s'.stage ≠ .coInitializeEx)
    (hstage' : s'.stage ≠ .returned) (hreleased : s'.released = s.released)
    (hinitialized : s'.initialized = s.initialized)
    (huninitialized : s'.uninitialized = s.uninitialized) : s'.Settled where
  going _ := by
    rw [hreleased, huninitialized]
    exact h.going hstage
  released hreturned := absurd hreturned hstage'
  first hstart := absurd hstart hfirst'
  initialized _ := by
    rw [hinitialized]
    exact .inl ((h.initialized hfirst).resolve_right fun hother => hstage hother.1)

/-- A call of the constructor succeeds, or is cleaned up after. -/
theorem Settled.attempt (h : s.Settled) {p : Prop} [Decidable p]
    (hfirst : s.stage ≠ .coInitializeEx) (hstage : s.stage ≠ .returned)
    (hfirst' : s'.stage ≠ .coInitializeEx) (hstage' : s'.stage ≠ .returned)
    (hreleased : s'.released = s.released) (hinitialized : s'.initialized = s.initialized)
    (huninitialized : s'.uninitialized = s.uninitialized) :
    (if p then s' else s.cleanUp).Settled := by
  split_ifs
  · exact h.next hfirst hstage hfirst' hstage' hreleased hinitialized huninitialized
  · exact h.cleanUp hstage

theorem step_settled (h : s.Settled) (hstep : s.step a = some s') : s'.Settled := by
  cases a with
  | coInitializeEx succeeds =>
    obtain ⟨hstage, rfl⟩ := Runs.guarded_eq_some.mp hstep
    have hgoing : s.stage ≠ .returned := by rw [hstage]; exact Stage.noConfusion
    split_ifs
    · refine ⟨fun _ => h.going hgoing, Stage.noConfusion, Stage.noConfusion, fun _ => .inl ?_⟩
      simp [(h.first hstage).1]
    · exact h.cleanUp hgoing
  | coCreateLocator pLoc | connectServer pSvc | coSetProxyBlanket succeeds
  | execNotificationQueryAsync succeeds =>
    obtain ⟨hstage, rfl⟩ := Runs.guarded_eq_some.mp hstep
    apply h.attempt <;> simp [hstage]
  | coCreateApartment pUnsecApp | addRef =>
    obtain ⟨hstage, rfl⟩ := Runs.guarded_eq_some.mp hstep
    apply h.next <;> simp [hstage]
  | createObjectStub pStubUnk =>
    obtain ⟨hstage, rfl⟩ := Runs.guarded_eq_some.mp hstep
    cases pStubUnk <;> split_ifs <;> apply h.next <;> simp [hstage]
  | queryInterface pStubSink =>
    obtain ⟨hstage, rfl⟩ := Runs.guarded_eq_some.mp hstep
    split_ifs <;> apply h.next <;> simp [hstage]
  | sinkAddRef | sinkQueryInterface known | sinkRelease =>
    obtain ⟨-, rfl⟩ := Runs.guarded_eq_some.mp hstep
    exact ⟨h.going, h.released, h.first, h.initialized⟩

end Settled

/-- Whatever the calls answer and whatever COM does in between: nobody who has a reference finds
the sink deleted, and it is deleted at most once. The constructor cleans up only when it returns;
then every interface it has obtained has been given back once, and COM has been uninitialised once,
which is once too often only if it could not be initialised. If the constructor had no stub by then,
it has given back a reference to the sink that it never took, and the sink stays for good. -/
theorem reaches_released {s : Subscription}
    (h : Runs.Reaches step (fun _ _ => True) start s) :
    (0 < s.held → s.pSink.deleted = 0) ∧ s.pSink.deleted ≤ 1 ∧
    (s.stage ≠ .returned → s.released = [] ∧ s.uninitialized = 0) ∧
    (s.stage = .returned → s.released.Perm s.obtained ∧ s.uninitialized = 1 ∧
      (s.initialized = 1 ∨ s.initialized = 0 ∧ s.obtained = []) ∧
      if s.pStubUnk.isSome then s.pSink.m_lRef = s.held ∧ (s.pSink.deleted = 1 ↔ s.held = 0)
      else s.pSink.m_lRef = -1 ∧ s.pSink.deleted = 0) := by
  have hkept : s.Kept := h.invariant (fun _ _ _ hs _ hstep => step_kept hs hstep) kept_start
  have hsettled : s.Settled :=
    h.invariant (fun _ _ _ hs _ hstep => step_settled hs hstep) settled_start
  refine ⟨?_, ?_, hsettled.going, ?_⟩
  · intro hheld
    cases hkept with
    | unused _ _ hnone | lost _ _ hnone => omega
    | holding _ hcounts => simpa using hcounts.2
    | remaining _ hcounts => simpa [hheld.ne'] using hcounts.2
  · cases hkept with
    | unused _ hsink => simp [hsink, EventSink.new]
    | lost _ hsink => simp [hsink]
    | holding _ hcounts | remaining _ hcounts => exact hcounts.deleted_le
  · intro hstage
    obtain ⟨hreleased, hone⟩ := hsettled.released hstage
    have hfirst : s.stage ≠ .coInitializeEx := by
      rw [hstage]
      exact Stage.noConfusion
    refine ⟨hreleased, hone, (hsettled.initialized hfirst).imp_right And.right, ?_⟩
    cases hkept with
    | unused hphase | holding hphase =>
      rw [hstage] at hphase
      cases hphase
    | remaining _ hcounts hstub =>
      rw [if_pos hstub]
      refine ⟨hcounts.1, ?_⟩
      rw [hcounts.2]
      split_ifs with hheld <;> simp [hheld]
    | lost _ hsink _ hstub => simp [hstub, hsink]

/-- The query is refused. The stub has taken a reference to the sink, takes another one while the
constructor still has its own, and gives both back after the constructor has cleaned up. -/
theorem reaches_released_unsubscribed : ∃ s : Subscription,
    s.stage = .returned ∧ s.pSink = ⟨0, 1⟩ ∧ s.obtained = [7, 8, 9, 10, 11] ∧
    s.released.Perm s.obtained ∧ s.uninitialized = 1 := by
  have moved : Runs.run step start
    [.coInitializeEx true, .coCreateLocator (some 7), .connectServer (some 8),
      .coSetProxyBlanket true, .coCreateApartment (some 9), .addRef,
      .createObjectStub (some (10, 1)), .queryInterface (some 11), .sinkQueryInterface true,
      .execNotificationQueryAsync false, .sinkRelease, .sinkRelease] = some _ := rfl
  have run := Runs.reaches_of_run moved fun _ _ _ => trivial
  have hreturned := (reaches_released run).2.2.2 rfl
  exact ⟨_, rfl, rfl, rfl, hreturned.1, hreturned.2.1⟩

end Subscription

end ComputerLock.Process
