import ComputerLock.CommonTools

/-!
# Receiving bytes

`ReceiveBytes` takes off the socket what is pending, a buffer at a time, until nothing is
pending or a call fails. What the system answers to `ioctlsocket` and `recv` is given turn
by turn.
-/

namespace ComputerLock.Client
open Library Common

/-- The size of `buf`. -/
def bufLength : ℕ := 1024

/-- What the system answers in one turn of the loop. -/
structure Turn where
  /-- what `FIONREAD` reports, none when `ioctlsocket` fails -/
  arg : Option ℕ
  /-- what `recv` stores in the buffer, none when it fails; nothing at the end of the stream -/
  buf : Option Bytes

namespace Turn

/-- The amount asked of `recv`, when the turn gets that far. -/
def asked (t : Turn) : Option ℕ :=
  match t.arg with
  | none => none
  | some arg => if arg = 0 then none else some (min arg bufLength)

/-- What `recv` returns. -/
def rv (t : Turn) : ℤ :=
  match t.buf with
  | none => -1
  | some b => b.length

end Turn

/-- The loop `while (1)`; none when it has not ended with the turns given. -/
def receiveLoop (ret : Bytes) : List Turn → Option Bytes
  | [] => none
  | t :: ts =>
    match t.asked with
    | none => some ret
    | some _ => if t.rv ≤ 0 then some ret else receiveLoop (ret ++ t.buf.getD []) ts

/-- The answers to one call of `ReceiveBytes`, from its first turn to its return. -/
structure Poll where
  turns : List Turn
  returns : (receiveLoop [] turns).isSome
  /-- `recv` stores no more than it is asked for -/
  fits : ∀ t ∈ turns, ∀ n ∈ t.asked, (t.buf.getD []).length ≤ n

def receiveBytes (p : Poll) : Bytes := (receiveLoop [] p.turns).get p.returns

/-- The bytes the calls of `recv` take off the socket; one that fails or finds the end of the
stream takes none. -/
def took : List Turn → Bytes
  | [] => []
  | t :: ts =>
    match t.asked with
    | none => []
    | some _ => if t.rv ≤ 0 then [] else t.buf.getD [] ++ took ts

theorem receiveLoop_eq {ret s : Bytes} {ts : List Turn} (h : receiveLoop ret ts = some s) :
    s = ret ++ took ts := by
  induction ts generalizing ret with
  | nil => cases h
  | cons t ts ih =>
    unfold receiveLoop at h
    unfold took
    cases hasked : t.asked with
    | none => grind
    | some n =>
      by_cases hrv : t.rv ≤ 0
      · grind
      · simp only [hasked, hrv, if_false] at h ⊢
        rw [ih h, List.append_assoc]

/-- What is returned is what was taken. -/
theorem receiveBytes_eq (p : Poll) : receiveBytes p = took p.turns :=
  receiveLoop_eq (Option.some_get p.returns).symm

/-- Nothing is pending. -/
def Poll.nothing : Poll where
  turns := [⟨some 0, none⟩]
  returns := rfl
  fits := by decide

/-- The bytes are pending, and one call of `recv` takes them all. -/
def Poll.once (b : Bytes) (hne : b ≠ []) (hle : b.length ≤ bufLength) : Poll where
  turns := [⟨some b.length, some b⟩, ⟨some 0, none⟩]
  returns := by simp [receiveLoop, Turn.asked, Turn.rv, hne]
  fits := by simp [Turn.asked, hle]

theorem took_once (b : Bytes) (hne : b ≠ []) (hle : b.length ≤ bufLength) :
    took (Poll.once b hne hle).turns = b := by
  simp [Poll.once, took, Turn.asked, Turn.rv, hne]

end ComputerLock.Client
