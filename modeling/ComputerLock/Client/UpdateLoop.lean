import ComputerLock.Client.Receive
import ComputerLock.Client.Settings
import ComputerLock.Client.Socket

/-!
# The update loop

`LoopForever` runs on a thread of its own. Each turn sends a request and stores the
response, or, when sending fails, replaces the socket and connects again. Whatever the
system answers in one turn is given by a `Cycle`.
-/

namespace ComputerLock.Client
open Library Common

/-- Who opened a handle. -/
inductive Thread where
  | updateLoop | other
  deriving DecidableEq

/-- What the loop works on. -/
structure Loop where
  endpoint : Endpoint Thread
  disk : Disk

/-- The value of `send` that reports a failure. -/
def socketError : ℤ := -1

/-- What the system answers in one turn of the loop. -/
structure Cycle where
  /-- the admin file at the two reads of the token -/
  admin : Bytes
  admin' : Bytes
  /-- what `send` returns -/
  result : ℤ
  /-- what `socket` returns -/
  created : ℕ
  /-- whether `getaddrinfo` succeeds -/
  found : Bool
  /-- whether `connect` succeeds -/
  connected : Bool
  poll : Poll

namespace Loop

def onEndpoint : EStateM Fault (Endpoint Thread) Unit → EStateM Fault Loop Unit :=
  Stateful.zoom endpoint fun e l => { l with endpoint := e }

def onDisk : EStateM Fault Disk Unit → EStateM Fault Loop Unit :=
  Stateful.zoom disk fun d l => { l with disk := d }

/-- One turn of `while (true)`. -/
def cycle (c : Cycle) : EStateM Fault Loop Unit := do
  let _message ← Stateful.ofExcept (Request.settings c.admin c.admin').message
  if c.result = socketError then
    onEndpoint Endpoint.close
    onEndpoint (Endpoint.recreateSocket .updateLoop c.created)
    onEndpoint (Endpoint.reConnectSocket c.found c.connected)
  else
    onDisk (parseSettingsResponse (receiveBytes c.poll))

/-- `LoopForever` up to the end of the given turns; the token is printed first. -/
def loopForever (admin : Bytes) (cycles : List Cycle) : EStateM Fault Loop Unit := do
  let _token ← Stateful.ofExcept (retrieveToken admin)
  cycles.forM cycle

/-- Winsock is initialised, and the loop's socket is open and was opened by it. -/
def Ready (l : Loop) : Prop :=
  0 < l.endpoint.winsock.references ∧
  l.endpoint.winsock.handles l.endpoint.sock = some .updateLoop

end Loop

/-- The word in the admin file gives a token. -/
def TokenReads (admin : Bytes) : Prop := ∃ token, retrieveToken admin = .ok token

/-- Both reads of the token succeed; when sending fails, a new socket is created and the address
is found, and otherwise what `recv` hands over is nothing or makes four elements. -/
def Cycle.Recovers (c : Cycle) : Prop :=
  TokenReads c.admin ∧ TokenReads c.admin' ∧
  (c.result = socketError → c.created ≠ invalidSocket ∧ c.found = true) ∧
  (c.result ≠ socketError → HasElements (took c.poll.turns))

/-- The server sends complete responses that can be decoded, and each turn takes some of the bytes
that are pending or arrive, in their order. A new connection has nothing pending. -/
def Delivered (pending : Bytes) : List Cycle → Prop
  | [] => True
  | c :: cycles =>
    if c.result = socketError then Delivered [] cycles
    else ∃ (responses : List Response) (rest : Bytes), (∀ r ∈ responses, r.Decodable) ∧
      pending ++ responses.flatMap Response.bytes = took c.poll.turns ++ rest ∧
      Delivered rest cycles

namespace Loop

/-! ## One turn -/

/-- The loop after a reconnection; the old socket is closed twice. -/
def reconnected (l : Loop) (created : ℕ) : Loop :=
  { l with endpoint :=
    ⟨((l.endpoint.winsock.closesocket l.endpoint.sock).closesocket l.endpoint.sock).socket
      .updateLoop created, created⟩ }

theorem run_cycle {c : Cycle} (h : TokenReads c.admin) (h' : TokenReads c.admin') (l : Loop) :
    (cycle c).run l =
      if c.result = socketError then
        if c.created = invalidSocket then
          .error (.thrown "INVALID_SOCKET") (l.reconnected c.created)
        else if c.found then .ok () (l.reconnected c.created)
        else .error (.thrown "getaddrinfo failed")
          { l.reconnected c.created with endpoint :=
            { (l.reconnected c.created).endpoint with
              winsock := (l.reconnected c.created).endpoint.winsock.wsaCleanup } }
      else (onDisk (parseSettingsResponse (receiveBytes c.poll))).run l := by
  obtain ⟨token, ht⟩ := h
  obtain ⟨token', ht'⟩ := h'
  rw [cycle, Request.message_settings ht ht']
  by_cases hsend : c.result = socketError
  · by_cases hsock : c.created = invalidSocket <;> cases c.found <;> cases c.connected <;>
      simp [hsend, hsock, onEndpoint, Endpoint.close, Endpoint.recreateSocket,
        Endpoint.reConnectSocket, reconnected]
  · simp [hsend, onDisk]

theorem run_cycle_of_not_tokenReads {c : Cycle}
    (h : ¬ (TokenReads c.admin ∧ TokenReads c.admin')) (l : Loop) :
    ∃ e, (cycle c).run l = .error e l := by
  cases hm : (Request.settings c.admin c.admin').message with
  | error e => exact ⟨e, by rw [cycle, hm]; rfl⟩
  | ok m =>
    obtain ⟨token, ht, hm⟩ := Fallible.bind_eq_ok.mp hm
    obtain ⟨token', ht', -⟩ := Fallible.bind_eq_ok.mp hm
    exact absurd ⟨⟨token, ht⟩, token', ht'⟩ h

theorem run_onDisk {x : EStateM Fault Disk Unit} {l : Loop} {d : Disk}
    (h : x.run l.disk = .ok () d) : (onDisk x).run l = .ok () { l with disk := d } := by
  rw [onDisk, Stateful.run_zoom, h]

theorem ready_reconnected {l : Loop} (h : l.Ready) {created : ℕ}
    (hc : created ≠ invalidSocket) : (l.reconnected created).Ready := by
  simpa [Ready, reconnected, Winsock.socket, Winsock.closesocket, hc] using h.1

theorem cycle_keeps_ready {c : Cycle} {l : Loop} (h : l.Ready) (recovers : c.Recovers) :
    ∃ l', (cycle c).run l = .ok () l' ∧ l'.Ready := by
  obtain ⟨ht, ht', hagain, helements⟩ := recovers
  rw [run_cycle ht ht']
  by_cases hsend : c.result = socketError
  · obtain ⟨hc, hfound⟩ := hagain hsend
    rw [if_pos hsend, if_neg hc, if_pos hfound]
    exact ⟨_, rfl, ready_reconnected h hc⟩
  · rw [if_neg hsend, receiveBytes_eq]
    obtain ⟨disk, hrun, -⟩ := (helements hsend).allOrNothing l.disk
    exact ⟨_, run_onDisk hrun, h⟩

/-- A turn that cannot go on throws: there is no token, no socket, no address or no element. -/
theorem recovers_of_run {c : Cycle} {l l' : Loop} (hrun : (cycle c).run l = .ok () l') :
    c.Recovers := by
  by_cases ht : TokenReads c.admin ∧ TokenReads c.admin'
  · rw [run_cycle ht.1 ht.2] at hrun
    refine ⟨ht.1, ht.2, fun hsend => ?_, fun hsend => ?_⟩
    · rw [if_pos hsend] at hrun
      split_ifs at hrun with hc hfound
      exact ⟨hc, hfound⟩
    · rw [if_neg hsend, receiveBytes_eq, onDisk, Stateful.run_zoom] at hrun
      cases hparse : (parseSettingsResponse (took c.poll.turns)).run l.disk with
      | ok _ disk => exact hasElements_of_run hparse
      | error e disk =>
        rw [hparse] at hrun
        cases hrun
  · obtain ⟨e, herror⟩ := run_cycle_of_not_tokenReads ht l
    rw [herror] at hrun
    cases hrun

/-! ## What one turn does to the files -/

theorem final_cycle_disk_of_error {c : Cycle} (h : c.result = socketError) (l : Loop) :
    (Stateful.final (cycle c) l).disk = l.disk := by
  by_cases ht : TokenReads c.admin ∧ TokenReads c.admin'
  · rw [Stateful.final, run_cycle ht.1 ht.2, if_pos h]
    split_ifs <;> rfl
  · obtain ⟨e, hrun⟩ := run_cycle_of_not_tokenReads ht l
    rw [Stateful.final, hrun]

theorem final_cycle_disk_of_tokenReads {c : Cycle} (h : c.result ≠ socketError)
    (ht : TokenReads c.admin) (ht' : TokenReads c.admin') (l : Loop) :
    (Stateful.final (cycle c) l).disk =
      Stateful.final (parseSettingsResponse (took c.poll.turns)) l.disk := by
  rw [Stateful.final, run_cycle ht ht', if_neg h, onDisk, Stateful.run_zoom, receiveBytes_eq,
    Stateful.final]
  cases (parseSettingsResponse (took c.poll.turns)).run l.disk <;> rfl

/-- A turn leaves the files alone or stores what its poll took. -/
theorem final_cycle_disk (c : Cycle) (l : Loop) :
    (Stateful.final (cycle c) l).disk = l.disk ∨
      (Stateful.final (cycle c) l).disk =
        Stateful.final (parseSettingsResponse (took c.poll.turns)) l.disk := by
  by_cases h : c.result = socketError
  · exact .inl (final_cycle_disk_of_error h l)
  · by_cases ht : TokenReads c.admin ∧ TokenReads c.admin'
    · exact .inr (final_cycle_disk_of_tokenReads h ht.1 ht.2 l)
    · obtain ⟨e, hrun⟩ := run_cycle_of_not_tokenReads ht l
      exact .inl (by rw [Stateful.final, hrun])

/-! ## The whole run -/

/-- No exception leaves the loop, and it is ready at the start of every turn. -/
def Survives (admin : Bytes) (cycles : List Cycle) (l : Loop) : Prop :=
  ∀ n ≤ cycles.length, ∃ l', (loopForever admin (cycles.take n)).run l = .ok () l' ∧ l'.Ready

theorem run_loopForever {admin : Bytes} (h : TokenReads admin) (cycles : List Cycle) (l : Loop) :
    (loopForever admin cycles).run l = (cycles.forM cycle).run l := by
  obtain ⟨token, ht⟩ := h
  rw [loopForever, ht]
  rfl

theorem tokenReads_of_run {admin : Bytes} {cycles : List Cycle} {l l' : Loop}
    (h : (loopForever admin cycles).run l = .ok () l') : TokenReads admin := by
  cases ht : retrieveToken admin with
  | ok token => exact ⟨token, ht⟩
  | error e =>
    rw [loopForever, ht] at h
    cases h

theorem Survives.recovers {admin : Bytes} {cycles : List Cycle} {l : Loop} (ready : l.Ready)
    (h : Survives admin cycles l) : TokenReads admin ∧ ∀ c ∈ cycles, c.Recovers := by
  obtain ⟨l', hrun, -⟩ := h cycles.length le_rfl
  rw [List.take_length] at hrun
  have ht := tokenReads_of_run hrun
  rw [run_loopForever ht] at hrun
  exact ⟨ht, Stateful.forM_ok_imp (fun _ _ _ hl recovers => cycle_keeps_ready hl recovers)
    (fun _ _ _ _ hrun => recovers_of_run hrun) ready hrun⟩

theorem survives_of_recovers {admin : Bytes} {cycles : List Cycle} {l : Loop} (ready : l.Ready)
    (ht : TokenReads admin) (recovers : ∀ c ∈ cycles, c.Recovers) : Survives admin cycles l := by
  intro n _
  rw [run_loopForever ht]
  refine Stateful.forM_keeps (fun c hc _ hl => ?_) ready
  exact cycle_keeps_ready hl (recovers c (List.mem_of_mem_take hc))

/-- The loop survives exactly when the token can be read each time, every failed `send` is followed
by a new socket and a found address, and no poll takes only the beginning of a response. -/
theorem survives_iff {admin : Bytes} {cycles : List Cycle} {l : Loop} (ready : l.Ready) :
    Survives admin cycles l ↔ TokenReads admin ∧ ∀ c ∈ cycles, c.Recovers :=
  ⟨Survives.recovers ready, fun h => survives_of_recovers ready h.1 h.2⟩

/-- A loop that has opened handle 8. -/
def opened : Loop where
  endpoint :=
    { winsock := ⟨1, 0, 1, fun h => if h = 8 then some .updateLoop else none, [8], []⟩
      sock := 8 }
  disk := fun _ => []

theorem ready_opened : opened.Ready := ⟨by decide, rfl⟩

/-- A turn with the admin file as shipped. -/
def shippedCycle (result : ℤ) (found : Bool) (poll : Poll) : Cycle where
  admin := adminFile []
  admin' := adminFile []
  result := result
  created := 12
  found := found
  connected := true
  poll := poll

/-- The loop survives a lost connection to a server that can be found again and answers
`1:a:b:cd`. -/
theorem survives_found : Survives (adminFile [])
    [shippedCycle socketError true .nothing, shippedCycle 24 true .nothing,
      shippedCycle 24 true (.once [49, 58, 97, 58, 98, 58, 99, 100] (by decide) (by decide))]
    opened := by
  have shipped : TokenReads (adminFile []) := ⟨_, retrieveToken_shipped⟩
  have valid : 12 ≠ invalidSocket := by decide
  have recovers : ∀ result poll, HasElements (took poll.turns) →
      (shippedCycle result true poll).Recovers := fun _ _ helements =>
    ⟨shipped, shipped, fun _ => ⟨valid, rfl⟩, fun _ => helements⟩
  refine (survives_iff ready_opened).mpr ⟨shipped, ?_⟩
  simp only [List.forall_mem_cons]
  refine ⟨recovers _ _ (.inl rfl), recovers _ _ (.inl rfl), recovers _ _ ?_, List.forall_mem_nil _⟩
  rw [took_once]
  exact .inr (by decide)

/-- A failed `send` and a failed `getaddrinfo` end the process. -/
theorem not_always_survives :
    ¬ ∀ admin cycles l, Ready l → Delivered [] cycles → TokenReads admin →
      (∀ c ∈ cycles, TokenReads c.admin ∧ TokenReads c.admin') →
      Survives admin cycles l := by
  intro h
  have shipped : TokenReads (adminFile []) := ⟨_, retrieveToken_shipped⟩
  have survives := h (adminFile []) [shippedCycle socketError false .nothing] opened
    ready_opened trivial shipped (by simpa [shippedCycle] using shipped)
  have recovers := (survives.recovers ready_opened).2 _ (List.mem_singleton_self _)
  exact absurd (recovers.2.2.1 rfl).2 (by decide)

/-- `1:a:b:cd` has been sent, and `ioctlsocket` fails once `recv` has handed over `1:a`. -/
example : ¬ HasElements (took [⟨some 3, some [49, 58, 97]⟩, ⟨none, none⟩]) := by
  simp [HasElements, took, Turn.asked, Turn.rv, bufLength, messageParameterDelimiter,
    settingsFileExtsElement]

end Loop
end ComputerLock.Client
