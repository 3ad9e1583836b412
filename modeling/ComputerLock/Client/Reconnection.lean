import ComputerLock.Library.Runs
import ComputerLock.Client.UpdateLoop

/-!
# Reconnecting beside other threads

The turns of the update loop in single steps, between which other threads open and close sockets
of their own. `LoopForever` closes the socket when sending fails, and `RecreateSocket` closes it
again: by then the handle may be another thread's.
-/

namespace ComputerLock.Client
open Library Common

/-- Where the loop is. -/
inductive Place where
  | send
  /-- `Close` in `LoopForever` -/
  | close
  /-- `Close` in `RecreateSocket` -/
  | closeAgain
  | socket
  | reconnect
  | receive
  /-- an exception has left the loop -/
  | ended
  deriving DecidableEq

/-- A call of `closesocket` by the loop, with who had opened the handle if it was open. -/
structure Closing where
  sock : ℕ
  owner : Option Thread

/-- The next step of the loop, with what the system answers, or a step of another thread. -/
inductive Move where
  | send (failed : Bool)
  | close
  | closeAgain
  | socket (created : ℕ)
  | reconnect (found connected : Bool)
  | receive
  /-- the token cannot be read, or the response cannot be decoded -/
  | throw
  | openOther (created : ℕ)
  | closeOther (sock : ℕ)

structure Reconnection where
  endpoint : Endpoint Thread
  place : Place
  closings : List Closing

namespace Reconnection

/-- Who opened a handle, while it is open. -/
def owner (s : Reconnection) (h : ℕ) : Option Thread := s.endpoint.winsock.handles h

def closed (s : Reconnection) (next : Place) : Reconnection where
  endpoint := Stateful.final Endpoint.close s.endpoint
  place := next
  closings := s.closings ++ [⟨s.endpoint.sock, s.owner s.endpoint.sock⟩]

/-- The rest of `RecreateSocket`. -/
def recreated (s : Reconnection) (created : ℕ) : Reconnection where
  endpoint := ⟨s.endpoint.winsock.socket .updateLoop created, created⟩
  place := if created = invalidSocket then .ended else .reconnect
  closings := s.closings

def reconnected (s : Reconnection) (found connected : Bool) : Reconnection where
  endpoint := Stateful.final (Endpoint.reConnectSocket found connected) s.endpoint
  place := if found then .send else .ended
  closings := s.closings

/-- What another thread does to the library. -/
def beside (s : Reconnection) (f : Winsock Thread → Winsock Thread) : Reconnection :=
  { s with endpoint := { s.endpoint with winsock := f s.endpoint.winsock } }

/-- The loop's own steps. -/
def own (s : Reconnection) : Move → Option Reconnection
  | .send failed =>
    if s.place = .send then some { s with place := if failed then .close else .receive } else none
  | .close => if s.place = .close then some (s.closed .closeAgain) else none
  | .closeAgain => if s.place = .closeAgain then some (s.closed .socket) else none
  | .socket created =>
    if s.place = .socket ∧ s.endpoint.winsock.Fresh created then some (s.recreated created)
    else none
  | .reconnect found connected =>
    if s.place = .reconnect then some (s.reconnected found connected) else none
  | .receive => if s.place = .receive then some { s with place := .send } else none
  | .throw =>
    if s.place = .send ∨ s.place = .receive then some { s with place := .ended } else none
  | _ => none

/-- An exception that leaves the loop ends the process. Other threads close what they have
opened. -/
def step (s : Reconnection) : Move → Option Reconnection
  | .openOther created =>
    if s.place ≠ .ended ∧ s.endpoint.winsock.Fresh created then
      some (s.beside (·.socket .other created))
    else none
  | .closeOther sock =>
    if s.place ≠ .ended ∧ s.owner sock = some .other then some (s.beside (·.closesocket sock))
    else none
  | m => s.own m

def start (e : Endpoint Thread) : Reconnection := ⟨e, .send, []⟩

/-- Every handle the loop has closed was open, and opened by the loop. -/
def ClosesOwn (s : Reconnection) : Prop := ∀ c ∈ s.closings, c.owner = some .updateLoop

/-- The loop does not get to the `Close` in `RecreateSocket`. -/
def ClosesOnce (_ : Reconnection) (m : Move) : Prop := m ≠ .closeAgain

/-! ## Whose handle it is -/

/-- The socket is the loop's own, except between closing it and creating a new one. -/
def Holds (s : Reconnection) : Prop :=
  match s.place with
  | .closeAgain | .socket => s.owner s.endpoint.sock ≠ some .updateLoop
  | .ended => True
  | _ => s.owner s.endpoint.sock = some .updateLoop

section Steps

variable {s t : Reconnection} {m : Move}

theorem owner_closed (next : Place) :
    (s.closed next).owner (s.closed next).endpoint.sock = none := by
  simp [owner, closed, Stateful.final, Endpoint.close, Winsock.closesocket]

/-- Only the loop's own handle matters. -/
theorem Holds.congr (h : s.Holds) (hplace : t.place = s.place)
    (howner : t.owner t.endpoint.sock = some .updateLoop ↔
      s.owner s.endpoint.sock = some .updateLoop) : t.Holds := by
  simpa only [Holds, hplace, ne_eq, howner] using h

theorem own_holds (h : s.Holds) (moved : s.own m = some t) : t.Holds := by
  cases m with
  | send failed =>
    obtain ⟨hplace, rfl⟩ := Runs.guarded_eq_some.mp moved
    have howner : s.owner s.endpoint.sock = some .updateLoop := by simpa [Holds, hplace] using h
    cases failed <;> exact howner
  | close | closeAgain =>
    obtain ⟨-, rfl⟩ := Runs.guarded_eq_some.mp moved
    exact ne_of_eq_of_ne (owner_closed _) (by simp)
  | socket created =>
    obtain ⟨-, rfl⟩ := Runs.guarded_eq_some.mp moved
    by_cases hvalid : created = invalidSocket
    · simp [Holds, recreated, hvalid]
    · simp [Holds, recreated, hvalid, owner, Winsock.socket]
  | reconnect found connected =>
    obtain ⟨hplace, rfl⟩ := Runs.guarded_eq_some.mp moved
    have howner : s.owner s.endpoint.sock = some .updateLoop := by simpa [Holds, hplace] using h
    cases found <;> cases connected
    · trivial
    · trivial
    · exact howner
    · exact howner
  | receive =>
    obtain ⟨hplace, rfl⟩ := Runs.guarded_eq_some.mp moved
    have howner : s.owner s.endpoint.sock = some .updateLoop := by simpa [Holds, hplace] using h
    exact howner
  | throw =>
    obtain ⟨-, rfl⟩ := Runs.guarded_eq_some.mp moved
    trivial
  | openOther created => cases moved
  | closeOther sock => cases moved

/-- A new handle of another thread is not one the loop has open. -/
theorem openOther_holds {created : ℕ} (h : s.Holds) (fresh : s.endpoint.winsock.Fresh created) :
    (s.beside (·.socket .other created)).Holds := by
  refine h.congr rfl ?_
  by_cases hvalid : created = invalidSocket
  · simp [owner, beside, Winsock.socket, hvalid]
  · have hnone : s.endpoint.winsock.handles created = none := fresh.resolve_left hvalid
    by_cases hsock : s.endpoint.sock = created
    · simp [owner, beside, Winsock.socket, hvalid, hsock, hnone]
    · simp [owner, beside, Winsock.socket, hvalid, hsock]

theorem closeOther_holds {sock : ℕ} (h : s.Holds) (hother : s.owner sock = some .other) :
    (s.beside (·.closesocket sock)).Holds := by
  refine h.congr rfl ?_
  by_cases hsock : s.endpoint.sock = sock
  · have hhandle : s.endpoint.winsock.handles sock = some .other := hother
    simp [owner, beside, Winsock.closesocket, hsock, hhandle]
  · simp [owner, beside, Winsock.closesocket, hsock]

theorem step_holds (h : s.Holds) (moved : s.step m = some t) : t.Holds := by
  cases m with
  | openOther created =>
    obtain ⟨⟨-, fresh⟩, rfl⟩ := Runs.guarded_eq_some.mp moved
    exact openOther_holds h fresh
  | closeOther sock =>
    obtain ⟨⟨-, hother⟩, rfl⟩ := Runs.guarded_eq_some.mp moved
    exact closeOther_holds h hother
  | _ =>
    simp only [step] at moved
    exact own_holds h moved

/-! ## What the loop closes -/

theorem step_closesOwn (holds : s.Holds) (own : s.ClosesOwn) (once : s.ClosesOnce m)
    (moved : s.step m = some t) : t.ClosesOwn := by
  cases m with
  | closeAgain => exact absurd rfl once
  | close =>
    obtain ⟨hplace, rfl⟩ := Runs.guarded_eq_some.mp moved
    have howner : s.owner s.endpoint.sock = some .updateLoop := by
      simpa [Holds, hplace] using holds
    intro c hc
    rcases List.mem_append.mp hc with hc | hc
    · exact own c hc
    · obtain rfl := List.mem_singleton.mp hc
      exact howner
  | _ =>
    -- no other step closes anything for the loop
    obtain ⟨-, rfl⟩ := Runs.guarded_eq_some.mp moved
    exact own

/-- The `Close` in `RecreateSocket` never closes a handle of the loop. -/
theorem not_closesOwn_closeAgain (holds : s.Holds) (moved : s.step .closeAgain = some t) :
    ¬ t.ClosesOwn := by
  obtain ⟨hplace, rfl⟩ := Runs.guarded_eq_some.mp moved
  have hlost : s.owner s.endpoint.sock ≠ some .updateLoop := by simpa [Holds, hplace] using holds
  exact fun own => hlost (own _ (List.mem_append_right _ (List.mem_singleton_self _)))

/-- As long as the loop does not close its socket again before it creates a new one, it closes
only handles of its own. -/
theorem closesOwn_of_reaches {e : Endpoint Thread}
    (ready : e.winsock.handles e.sock = some .updateLoop)
    (h : Runs.Reaches step ClosesOnce (start e) s) : s.ClosesOwn := by
  have keep : ∀ s m t, s.Holds ∧ s.ClosesOwn → ClosesOnce s m → s.step m = some t →
      t.Holds ∧ t.ClosesOwn := fun s m t hs once moved =>
    ⟨step_holds hs.1 moved, step_closesOwn hs.1 hs.2 once moved⟩
  exact (h.invariant keep ⟨ready, by simp [ClosesOwn, start]⟩).2

end Steps

/-- Without other threads, the steps make up the turn of the loop after a failed `send`. -/
theorem run_turn {l : Loop} {created : ℕ} (valid : created ≠ invalidSocket)
    (fresh : (l.endpoint.winsock.closesocket l.endpoint.sock).Fresh created) (connected : Bool) :
    Runs.run step (start l.endpoint)
        [.send true, .close, .closeAgain, .socket created, .reconnect true connected] =
      some ⟨(l.reconnected created).endpoint, .send,
        [⟨l.endpoint.sock, l.endpoint.winsock.handles l.endpoint.sock⟩,
          ⟨l.endpoint.sock, none⟩]⟩ := by
  have hfresh : ((l.endpoint.winsock.closesocket l.endpoint.sock).closesocket
      l.endpoint.sock).Fresh created := by
    simpa [Winsock.Fresh, Winsock.closesocket] using fresh
  have hclosed : (l.endpoint.winsock.closesocket l.endpoint.sock).handles l.endpoint.sock =
      none := Function.update_self ..
  cases connected <;>
    simp [Runs.run, step, own, start, closed, recreated, reconnected, Loop.reconnected,
      Stateful.final, Endpoint.close, Endpoint.reConnectSocket, valid, hfresh, hclosed, owner]

end Reconnection

/-- The loop of `Loop.opened` when sending fails and its socket is closed. -/
theorem closesOwn_opened :
    (Reconnection.closed ⟨Loop.opened.endpoint, .close, []⟩ .closeAgain).ClosesOwn :=
  Reconnection.closesOwn_of_reaches (e := Loop.opened.endpoint) rfl
    ((Runs.Reaches.refl.tail (a := .send true) (by simp [Reconnection.ClosesOnce]) rfl).tail
      (a := .close) (by simp [Reconnection.ClosesOnce]) rfl)

/-- Another thread opens the handle between the two calls of `Close`, and the loop closes it. -/
theorem not_always_closesOwn :
    ¬ ∀ (e : Endpoint Thread) s, e.winsock.handles e.sock = some .updateLoop →
      Runs.Reaches Reconnection.step (fun _ _ => True) (Reconnection.start e) s →
        s.ClosesOwn := by
  intro h
  have ready : Loop.opened.endpoint.winsock.handles Loop.opened.endpoint.sock =
      some .updateLoop := rfl
  have moved : Runs.run Reconnection.step (Reconnection.start Loop.opened.endpoint)
      [.send true, .close, .openOther 8, .closeAgain] = some _ := rfl
  have own := h Loop.opened.endpoint _ ready (Runs.reaches_of_run moved fun _ _ _ => trivial)
    ⟨8, some .other⟩
    (List.mem_append_right _ (List.mem_singleton_self _))
  cases own

end ComputerLock.Client
