import Mathlib.Data.List.Forall2
import ComputerLock.Library.LittleEndian
import ComputerLock.Library.Runs
import ComputerLock.Client.Receive

/-!
# Reception

The calls of `ReceiveBytes` in single steps, between which bytes arrive. A call of `recv` takes
bytes off the socket and stores them in the local buffer; from there they get into the string
that is returned.
-/

namespace ComputerLock.Client
open Library Common

/-- What a call of `ReceiveBytes` does next. -/
inductive Awaited where
  | ioctlsocket
  /-- `FIONREAD` has reported some bytes -/
  | recv (reported : ℕ)
  deriving DecidableEq

/-- A call that has not returned yet. -/
structure Call where
  ret : Bytes
  buf : Bytes
  awaits : Awaited
  /-- the answers in the turns that are over -/
  turns : List Turn

structure Reception where
  /-- what has arrived and not been taken -/
  pending : Bytes
  call : Option Call
  arrived : Bytes
  /-- what `recv` has taken off the socket -/
  taken : Bytes
  /-- the amounts asked of `recv` -/
  asked : List ℕ
  /-- the string each call has returned -/
  returned : List Bytes
  /-- the answers to each of these calls -/
  answered : List (List Turn)

inductive Event where
  | arrive (bytes : Bytes)
  /-- `ReceiveBytes` is called; `buf` is not initialised -/
  | call (buf : Bytes)
  /-- what `FIONREAD` reports, none when `ioctlsocket` fails -/
  | ioctlsocket (arg : Option ℕ)
  | recv (rv : ℤ)

namespace Reception

def start : Reception := ⟨[], none, [], [], [], [], []⟩

/-- The call returns after a last turn. -/
def leave (s : Reception) (c : Call) (t : Turn) : Reception :=
  { s with
    call := none
    returned := s.returned ++ [c.ret]
    answered := s.answered ++ [c.turns ++ [t]] }

def ioctlsocket (s : Reception) (c : Call) : Option ℕ → Reception
  | none => s.leave c ⟨none, none⟩
  | some arg =>
    if arg = 0 then s.leave c ⟨some arg, none⟩
    else { s with call := some { c with awaits := .recv arg } }

/-- `recv` takes the first bytes pending and stores them; `t.assign(buf, rv)` reads them. -/
def take (s : Reception) (c : Call) (reported n : ℕ) : Reception :=
  let buf := LittleEndian.overwrite c.buf 0 (s.pending.take n)
  { s with
    pending := s.pending.drop n
    taken := s.taken ++ s.pending.take n
    call := some
      { ret := c.ret ++ LittleEndian.slice buf 0 n
        buf := buf
        awaits := .ioctlsocket
        turns := c.turns ++ [⟨some reported, some (s.pending.take n)⟩] } }

def asks (s : Reception) (arg : ℕ) : Reception := { s with asked := s.asked ++ [arg] }

/-- A failure or the end of the stream takes nothing. -/
def recv (s : Reception) (c : Call) (reported : ℕ) (rv : ℤ) : Option Reception :=
  if rv ≤ 0 then
    some ((s.asks (min reported bufLength)).leave c
      ⟨some reported, if rv < 0 then none else some []⟩)
  else if rv.toNat ≤ min reported bufLength ∧ rv.toNat ≤ s.pending.length then
    some ((s.asks (min reported bufLength)).take c reported rv.toNat)
  else none

def step (s : Reception) : Event → Option Reception
  | .arrive bytes =>
    some { s with pending := s.pending ++ bytes, arrived := s.arrived ++ bytes }
  | .call buf =>
    if s.call.isNone ∧ buf.length = bufLength then
      some { s with call := some ⟨[], buf, .ioctlsocket, []⟩ }
    else none
  | .ioctlsocket arg => s.call.bind fun c =>
    if c.awaits = .ioctlsocket then some (s.ioctlsocket c arg) else none
  | .recv rv => s.call.bind fun c =>
    match c.awaits with
    | .ioctlsocket => none
    | .recv reported => s.recv c reported rv

/-- What the call in progress has read. -/
def held (s : Reception) : Bytes := s.call.elim [] Call.ret

/-- What has been taken has been returned, or is held by the call in progress; and no call of
`recv` asks for more than the buffer can hold. -/
structure Lossless (s : Reception) : Prop where
  kept : s.returned.flatten ++ s.held = s.taken
  in_order : s.taken ++ s.pending = s.arrived
  within : ∀ n ∈ s.asked, n ≤ bufLength

/-- With these answers a call of `receiveBytes` returns the string. -/
structure Answered (turns : List Turn) (ret : Bytes) : Prop where
  returns : receiveLoop [] turns = some ret
  fits : ∀ t ∈ turns, ∀ n ∈ t.asked, (t.buf.getD []).length ≤ n

/-- The answers so far have led the call to where it is. -/
structure Underway (c : Call) : Prop where
  room : c.buf.length = bufLength
  leads : ∀ turns, receiveLoop [] (c.turns ++ turns) = receiveLoop c.ret turns
  fits : ∀ t ∈ c.turns, ∀ n ∈ t.asked, (t.buf.getD []).length ≤ n
  reported : ∀ n, c.awaits = .recv n → n ≠ 0

structure Sound (s : Reception) : Prop extends s.Lossless where
  underway : ∀ c, s.call = some c → Underway c
  answers : List.Forall₂ Answered s.answered s.returned

/-! ## Turns -/

section Turns

variable {s : Reception} {c : Call}

/-- A turn that brings nothing ends the loop and keeps what has been read. -/
theorem receiveLoop_last {t : Turn} (empty : t.buf.getD [] = []) (ret : Bytes) :
    receiveLoop ret [t] = some ret := by
  have hrv : t.rv ≤ 0 := by
    obtain ⟨arg, buf⟩ := t
    cases buf <;> grind [Turn.rv]
  unfold receiveLoop
  cases t.asked with
  | none => rfl
  | some n => exact if_pos hrv

theorem Underway.answered (h : Underway c) {t : Turn} (empty : t.buf.getD [] = []) :
    Answered (c.turns ++ [t]) c.ret := by
  refine ⟨(h.leads [t]).trans (receiveLoop_last empty c.ret), ?_⟩
  intro t' ht' n hn
  rcases List.mem_append.mp ht' with ht' | ht'
  · exact h.fits t' ht' n hn
  · obtain rfl := List.mem_singleton.mp ht'
    rw [empty]
    exact Nat.zero_le n

theorem leave_sound (h : s.Sound) (hc : s.call = some c) {t : Turn}
    (empty : t.buf.getD [] = []) : (s.leave c t).Sound := by
  have hkept := h.kept
  have answered := (h.underway c hc).answered empty
  refine ⟨⟨?_, h.in_order, h.within⟩, ?_, ?_⟩
  · simpa [leave, held, hc] using hkept
  · intro c' hc'
    cases hc'
  · exact List.rel_append h.answers (.cons answered .nil)

theorem ioctlsocket_sound (h : s.Sound) (hc : s.call = some c) (arg : Option ℕ) :
    (s.ioctlsocket c arg).Sound := by
  cases arg with
  | none => exact leave_sound h hc rfl
  | some arg =>
    by_cases harg : arg = 0
    · subst harg
      exact leave_sound h hc rfl
    · have hkept := h.kept
      have underway := h.underway c hc
      rw [ioctlsocket, if_neg harg]
      refine ⟨⟨?_, h.in_order, h.within⟩, ?_, h.answers⟩
      · simpa [held, hc] using hkept
      · rintro c' ⟨⟩
        refine ⟨underway.room, underway.leads, underway.fits, ?_⟩
        rintro n ⟨⟩
        exact harg

theorem asked_sound (h : s.Sound) (reported : ℕ) :
    (s.asks (min reported bufLength)).Sound := by
  refine ⟨⟨h.kept, h.in_order, ?_⟩, h.underway, h.answers⟩
  intro n hn
  rcases List.mem_append.mp hn with hn | hn
  · exact h.within n hn
  · rw [List.mem_singleton.mp hn]
    exact Nat.min_le_right _ _

/-- A turn in which `recv` has taken bytes goes on with them behind the string. -/
theorem receiveLoop_cons {reported : ℕ} {bytes : Bytes} (hreported : reported ≠ 0)
    (hbytes : bytes ≠ []) (ret : Bytes) (turns : List Turn) :
    receiveLoop ret (⟨some reported, some bytes⟩ :: turns) = receiveLoop (ret ++ bytes) turns := by
  simp [receiveLoop, Turn.asked, Turn.rv, hreported, hbytes]

theorem take_sound (h : s.Sound) (hc : s.call = some c) {reported n : ℕ}
    (awaits : c.awaits = .recv reported) (hpos : 0 < n) (hasked : n ≤ min reported bufLength)
    (hpending : n ≤ s.pending.length) : (s.take c reported n).Sound := by
  have underway := h.underway c hc
  have hkept := h.kept
  have hreported := underway.reported reported awaits
  have hlen : (s.pending.take n).length = n := by simp [hpending]
  have hbytes : s.pending.take n ≠ [] := by
    intro hnil
    rw [hnil] at hlen
    exact absurd hlen.symm hpos.ne'
  -- the bytes fit the buffer, so what is assigned is what was taken
  have hread : LittleEndian.slice (LittleEndian.overwrite c.buf 0 (s.pending.take n)) 0 n =
      s.pending.take n := by
    have hroom : 0 + (s.pending.take n).length ≤ c.buf.length := by
      rw [hlen, underway.room]
      omega
    have := LittleEndian.slice_overwrite_self _ hroom
    rwa [hlen] at this
  refine ⟨⟨?_, ?_, h.within⟩, ?_, h.answers⟩
  · simp only [held, hc, Option.elim] at hkept
    simp only [take, held, hread, Option.elim]
    rw [← List.append_assoc, hkept]
  · simp only [take]
    rw [List.append_assoc, List.take_append_drop]
    exact h.in_order
  · rintro c' ⟨⟩
    refine ⟨?_, ?_, ?_, ?_⟩
    · exact (LittleEndian.length_overwrite ..).trans underway.room
    · intro turns
      simp only [hread, List.append_assoc, List.singleton_append]
      rw [underway.leads, receiveLoop_cons hreported hbytes]
    · intro t ht m hm
      rcases List.mem_append.mp ht with ht | ht
      · exact underway.fits t ht m hm
      · obtain rfl := List.mem_singleton.mp ht
        simp only [Turn.asked, hreported, if_false, Option.mem_some_iff] at hm
        simp only [Option.getD_some, hlen]
        omega
    · intro m hm
      cases hm

theorem recv_sound {t : Reception} (h : s.Sound) (hc : s.call = some c) {reported : ℕ}
    (awaits : c.awaits = .recv reported) {rv : ℤ} (moved : s.recv c reported rv = some t) :
    t.Sound := by
  have hasked := asked_sound h reported
  unfold recv at moved
  by_cases hend : rv ≤ 0
  · rw [if_pos hend] at moved
    obtain rfl := Option.some.inj moved
    apply leave_sound hasked hc
    grind
  · rw [if_neg hend] at moved
    obtain ⟨⟨hwithin, hpending⟩, rfl⟩ := Runs.guarded_eq_some.mp moved
    exact take_sound hasked hc awaits (by omega) hwithin hpending

theorem step_sound {t : Reception} {e : Event} (h : s.Sound) (moved : s.step e = some t) :
    t.Sound := by
  cases e with
  | arrive bytes =>
    obtain rfl := Option.some.inj moved
    refine ⟨⟨h.kept, ?_, h.within⟩, h.underway, h.answers⟩
    rw [← h.in_order, List.append_assoc]
  | call buf =>
    obtain ⟨⟨hnone, hlen⟩, rfl⟩ := Runs.guarded_eq_some.mp moved
    have hkept := h.kept
    refine ⟨⟨?_, h.in_order, h.within⟩, ?_, h.answers⟩
    · simpa [held, Option.isNone_iff_eq_none.mp hnone] using hkept
    · rintro c' ⟨⟩
      exact ⟨hlen, fun _ => rfl, by simp, by simp⟩
  | ioctlsocket arg =>
    obtain ⟨c, hc, hmoved⟩ := Option.bind_eq_some_iff.mp moved
    obtain ⟨-, rfl⟩ := Runs.guarded_eq_some.mp hmoved
    exact ioctlsocket_sound h hc arg
  | recv rv =>
    obtain ⟨c, hc, hmoved⟩ := Option.bind_eq_some_iff.mp moved
    cases hawaits : c.awaits with
    | ioctlsocket => simp [hawaits] at hmoved
    | recv reported =>
      rw [hawaits] at hmoved
      exact recv_sound h hc hawaits hmoved

theorem start_sound : start.Sound :=
  ⟨⟨rfl, rfl, by simp [start]⟩, by simp [start], .nil⟩

end Turns

/-! ## Runs -/

section Runs

variable {ok : Reception → Event → Prop} {s : Reception}

theorem sound_of_reaches (h : Runs.Reaches step ok start s) : s.Sound :=
  h.invariant (fun _ _ _ hs _ moved => step_sound hs moved) start_sound

/-- In every run, whatever arrives and whatever the system answers, nothing that is taken off the
socket is lost: between two calls it is what has been returned. -/
theorem lossless_of_reaches (h : Runs.Reaches step (fun _ _ => True) start s) :
    s.Lossless ∧ (s.call = none → s.returned.flatten = s.taken) := by
  have lossless := (sound_of_reaches h).toLossless
  refine ⟨lossless, ?_⟩
  intro idle
  simpa [held, idle] using lossless.kept

/-- Three bytes arrive, one of them zero, and are taken in two pieces. -/
theorem lossless_of_reaches_pieces :
    ∃ s, Runs.Reaches step (fun _ _ => True) start s ∧ s.returned = [[97, 0, 98]] ∧
      s.Lossless ∧ (s.call = none → s.returned.flatten = s.taken) := by
  obtain ⟨buf, hlen⟩ : ∃ buf : Bytes, buf.length = bufLength :=
    ⟨List.replicate bufLength 0, List.length_replicate⟩
  obtain ⟨s, moved, hreturned⟩ : ∃ s, Runs.run step start [.call buf, .arrive [97, 0],
      .ioctlsocket (some 2), .arrive [98], .recv 1, .ioctlsocket (some 2), .recv 2,
      .ioctlsocket (some 0)] = some s ∧ s.returned = [[97, 0, 98]] := by
    simp [Runs.run, step, start, ioctlsocket, recv, asks, take, leave, hlen, bufLength,
      LittleEndian.overwrite, LittleEndian.slice]
  have reached := Runs.reaches_of_run moved fun _ _ _ => trivial
  exact ⟨s, reached, hreturned, lossless_of_reaches reached⟩

/-- Every string returned is what `receiveBytes` returns with the answers of its call. -/
theorem exists_polls (h : Runs.Reaches step ok start s) :
    ∃ polls : List Poll, polls.map Poll.turns = s.answered ∧
      polls.map receiveBytes = s.returned := by
  have answers := (sound_of_reaches h).answers
  generalize s.answered = answered at answers
  generalize s.returned = returned at answers
  induction answers with
  | nil => exact ⟨[], rfl, rfl⟩
  | @cons turns ret _ _ answered _ ih =>
    obtain ⟨polls, rfl, rfl⟩ := ih
    have returns : (receiveLoop [] turns).isSome := by rw [answered.returns]; rfl
    refine ⟨⟨turns, returns, answered.fits⟩ :: polls, rfl, ?_⟩
    have hret : receiveBytes ⟨turns, returns, answered.fits⟩ = ret := by
      simp [receiveBytes, answered.returns]
    rw [List.map_cons, hret]

end Runs

end Reception
end ComputerLock.Client
