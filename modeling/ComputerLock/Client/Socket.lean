import Mathlib.Algebra.Ring.Nat
import Mathlib.Data.List.Perm.Basic
import ComputerLock.Library.Runs
import ComputerLock.Library.Stateful
import ComputerLock.CommonTools

/-!
# Sockets

The part of Winsock the client uses, and the objects that share a socket through a
reference counter. `socket` may return any handle that is not open; each open handle is
labelled with who opened it.
-/

namespace ComputerLock.Client
open Library Common

/-! ## Winsock -/

/-- The value of `SOCKET` that is no handle. -/
def invalidSocket : ℕ := 2 ^ 64 - 1

/-- The state of the library in a process. -/
structure Winsock (τ : Type) where
  /-- successful calls of `WSAStartup` -/
  startups : ℕ
  /-- calls of `WSACleanup` -/
  cleanups : ℕ
  /-- the library's own count of its users -/
  references : ℕ
  /-- the open handles, with who opened them -/
  handles : ℕ → Option τ
  /-- every handle `socket` returned -/
  opened : List ℕ
  /-- the argument of every call of `closesocket` -/
  closed : List ℕ

namespace Winsock

variable {τ : Type}

def wsaStartup (w : Winsock τ) : Winsock τ :=
  { w with startups := w.startups + 1, references := w.references + 1 }

/-- The last `WSACleanup` closes every socket. -/
def wsaCleanup (w : Winsock τ) : Winsock τ :=
  { w with
    cleanups := w.cleanups + 1
    references := w.references - 1
    handles := if w.references = 1 then fun _ => none else w.handles }

/-- `socket` returns `created`, which is `INVALID_SOCKET` when it fails. -/
def socket (owner : τ) (created : ℕ) (w : Winsock τ) : Winsock τ :=
  if created = invalidSocket then w
  else { w with
    handles := Function.update w.handles created (some owner)
    opened := w.opened ++ [created] }

def closesocket (sock : ℕ) (w : Winsock τ) : Winsock τ :=
  { w with handles := Function.update w.handles sock none, closed := w.closed ++ [sock] }

/-- `socket` never returns a handle that is open. -/
def Fresh (w : Winsock τ) (created : ℕ) : Prop :=
  created = invalidSocket ∨ w.handles created = none

instance (w : Winsock τ) (created : ℕ) : Decidable (w.Fresh created) :=
  inferInstanceAs (Decidable (_ ∨ w.handles created = none))

end Winsock

/-! ## One wrapper -/

/-- What a member function of a wrapper works on: `sock_` and the library. -/
structure Endpoint (τ : Type) where
  winsock : Winsock τ
  sock : ℕ

namespace Endpoint

variable {τ : Type}

def close : EStateM Fault (Endpoint τ) Unit :=
  modify fun e => { e with winsock := e.winsock.closesocket e.sock }

/-- `owner` runs it, and the call of `socket` returns `created`. -/
def recreateSocket (owner : τ) (created : ℕ) : EStateM Fault (Endpoint τ) Unit := do
  close
  modify fun e => { winsock := e.winsock.socket owner created, sock := created }
  if created = invalidSocket then
    throw (.thrown "INVALID_SOCKET")

/-- Whether `getaddrinfo` finds the address and whether `connect` succeeds. -/
def reConnectSocket (found connected : Bool) : EStateM Fault (Endpoint τ) Unit := do
  if !found then
    modify fun e => { e with winsock := e.winsock.wsaCleanup }
    throw (.thrown "getaddrinfo failed")
  if !connected then
    -- the failure is printed, and the next `send` fails
    return

theorem final_recreateSocket (owner : τ) (created : ℕ) (e : Endpoint τ) :
    Stateful.final (recreateSocket owner created) e =
      { winsock := (e.winsock.closesocket e.sock).socket owner created, sock := created } := by
  by_cases h : created = invalidSocket <;> simp [Stateful.final, recreateSocket, close, h]

end Endpoint

/-! ## All wrappers of a process -/

/-- A live object. -/
structure Wrapper where
  sock : ℕ
  /-- the address of the shared counter -/
  refCounter : ℕ
  deriving DecidableEq

/-- The live objects, in any order, and what they share. A counter that is not allocated
reads 0. -/
structure World where
  winsock : Winsock Unit
  nofSockets : ℤ
  counters : ℕ → ℤ
  objects : List Wrapper

namespace World

def start (startup : Bool) : EStateM Fault World Unit := do
  if (← get).nofSockets = 0 then
    if !startup then
      throw (.thrown "Could not start WSA")
    modify fun w => { w with winsock := w.winsock.wsaStartup }
  modify fun w => { w with nofSockets := w.nofSockets + 1 }

/-- `SocketWrapper()`. A constructor that throws leaves no object, and no destructor runs. -/
def construct (startup : Bool) (created cell : ℕ) : EStateM Fault World Unit := do
  start startup
  modify fun w => { w with winsock := w.winsock.socket () created }
  if created = invalidSocket then
    throw (.thrown "INVALID_SOCKET")
  modify fun w => { w with
    counters := Function.update w.counters cell 1
    objects := ⟨created, cell⟩ :: w.objects }

/-- `SocketWrapper(const SocketWrapper& o)` -/
def copy (o : Wrapper) (w : World) : World :=
  { w with
    counters := Function.update w.counters o.refCounter (w.counters o.refCounter + 1)
    objects := ⟨o.sock, o.refCounter⟩ :: w.objects
    nofSockets := w.nofSockets + 1 }

/-- `operator=(SocketWrapper& o)` of the `i`-th object. -/
def assign (i : ℕ) (o : Wrapper) (w : World) : World :=
  { w with
    counters := Function.update w.counters o.refCounter (w.counters o.refCounter + 1)
    objects := w.objects.set i ⟨o.sock, o.refCounter⟩
    nofSockets := w.nofSockets + 1 }

/-- The count is decreased; the last owner closes the socket. -/
def release (o : Wrapper) (w : World) : World :=
  { w with
    winsock := if w.counters o.refCounter - 1 = 0 then w.winsock.closesocket o.sock else w.winsock
    counters := Function.update w.counters o.refCounter (w.counters o.refCounter - 1)
    nofSockets := w.nofSockets - 1 }

/-- `if (!nofSockets_) End();` -/
def endIfNone (w : World) : World :=
  { w with winsock := if w.nofSockets = 0 then w.winsock.wsaCleanup else w.winsock }

/-- `~SocketWrapper` of the `i`-th object. -/
def destroy (i : ℕ) (o : Wrapper) (w : World) : World :=
  { (w.release o).endIfNone with objects := w.objects.eraseIdx i }

/-- `SocketClient(ip, port)`: when it throws, its base object is destroyed. -/
def socketClient (startup : Bool) (created cell : ℕ) (found : Bool) :
    EStateM Fault World Unit := do
  construct startup created cell
  if !found then
    modify fun w => { w with winsock := w.winsock.wsaCleanup }
    modify (destroy 0 ⟨created, cell⟩)
    throw (.thrown "getaddrinfo failed")

/-- `RecreateSocket` of the `i`-th object. -/
def recreate (i : ℕ) (o : Wrapper) (created : ℕ) : EStateM Fault World Unit :=
  Stateful.zoom (fun w => ⟨w.winsock, o.sock⟩)
    (fun e w => { w with
      winsock := e.winsock
      objects := w.objects.set i { o with sock := e.sock } })
    (Endpoint.recreateSocket () created)

end World

/-- An operation on socket objects, with what the system answers: whether `WSAStartup`
succeeds, what `socket` returns, where `new int` allocates, whether `getaddrinfo` finds the
address. Objects are named by their position. -/
inductive Op where
  | construct (startup : Bool) (created cell : ℕ)
  | client (startup : Bool) (created cell : ℕ) (found : Bool)
  | copy (i : ℕ)
  | assign (i j : ℕ)
  | recreate (i created : ℕ)
  | destroy (i : ℕ)

/-- The world after an operation, whether it throws or not; none when there is no such
object, or the system cannot answer so. -/
def World.step (w : World) : Op → Option World
  | .construct startup created cell =>
    if w.winsock.Fresh created ∧ w.counters cell = 0 then
      some (Stateful.final (construct startup created cell) w)
    else none
  | .client startup created cell found =>
    if w.winsock.Fresh created ∧ w.counters cell = 0 then
      some (Stateful.final (socketClient startup created cell found) w)
    else none
  | .copy i => w.objects[i]?.map fun o => w.copy o
  | .assign i j => do
    let _ ← w.objects[i]?
    let o ← w.objects[j]?
    some (w.assign i o)
  | .recreate i created => do
    let o ← w.objects[i]?
    if (w.winsock.closesocket o.sock).Fresh created then
      some (Stateful.final (recreate i o created) w)
    else none
  | .destroy i => w.objects[i]?.map fun o => w.destroy i o

/-- The process before its first socket object. -/
def World.initial : World where
  winsock := ⟨0, 0, 0, fun _ => none, [], []⟩
  nofSockets := 0
  counters := fun _ => 0
  objects := []

end ComputerLock.Client
