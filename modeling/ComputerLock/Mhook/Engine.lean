import ComputerLock.Library.Slots
import ComputerLock.Mhook.Install
import ComputerLock.Mhook.Threads

/-!
# Setting hooks and taking them back

`Mhook_SetHook` and `Mhook_Unhook` with the table of the hooks that are in place. What the system
answers during a call is given with the call.
-/

namespace ComputerLock.Mhook
open Library AddressSpace

/-! ## The table -/

/-- `MHOOKS_MAX_SUPPORTED_HOOKS` -/
def maxSupportedHooks : ℕ := 64

structure Engine where
  memory : Memory
  /-- `g_pHooks` -/
  pHooks : List (Option Address)
  /-- `g_nHooksInUse` -/
  nHooksInUse : ℕ
  threads : Threads
  /-- the trampolines that are allocated -/
  pages : List Address

/-- What the system answers during a call. -/
structure Surroundings where
  space : Space
  view : ThreadView
  /-- `VirtualProtectEx` of the code that is overwritten -/
  protectFunction : Bool
  /-- `VirtualProtectEx` of the trampoline -/
  protectTrampoline : Bool

namespace Engine

/-- The trampolines of the hooks that are in place. -/
def hooked (e : Engine) : List Address := e.pHooks.reduceOption

def trampolineAlloc (e : Engine) (space : Space) (pSystem : Address)
    (nLimitUp nLimitDown : ℤ) : Option Address × Engine :=
  if e.nHooksInUse < maxSupportedHooks then
    match search space pSystem nLimitUp nLimitDown with
    | none => (none, e)
    | some pTrampoline =>
      let e := { e with
        memory := commit e.memory pTrampoline
        pages := pTrampoline :: e.pages }
      match Slots.firstEmpty e.pHooks with
      | none => (some pTrampoline, e)
      | some i => (some pTrampoline, { e with
          pHooks := e.pHooks.set i (some pTrampoline)
          nHooksInUse := e.nHooksInUse + 1 })
  else (none, e)

def trampolineGet (e : Engine) (pHookedFunction : Address) : Option Address :=
  e.hooked.find? fun pTrampoline => codeTrampoline pTrampoline = pHookedFunction

/-- The memory is given back only when it has never been used. -/
def trampolineFree (e : Engine) (pTrampoline : Address) (bNeverUsed : Bool) : Engine :=
  match Slots.slotOf e.pHooks pTrampoline with
  | none => e
  | some i => { e with
      pHooks := e.pHooks.set i none
      pages := if bNeverUsed then e.pages.erase pTrampoline else e.pages
      nHooksInUse := e.nHooksInUse - 1 }

def suspend (e : Engine) (w : Surroundings) (pbCode : Address) (cbBytes : ℕ) : Engine :=
  { e with threads := (suspendOtherThreads pbCode cbBytes w.view e.threads).2 }

def resume (e : Engine) : Engine := { e with threads := resumeOtherThreads e.threads }

section Fields

variable (e : Engine) (w : Surroundings) (pbCode : Address) (cbBytes : ℕ)

@[simp] theorem suspend_memory : (e.suspend w pbCode cbBytes).memory = e.memory := rfl

@[simp] theorem suspend_pHooks : (e.suspend w pbCode cbBytes).pHooks = e.pHooks := rfl

@[simp] theorem suspend_nHooksInUse :
    (e.suspend w pbCode cbBytes).nHooksInUse = e.nHooksInUse := rfl

@[simp] theorem suspend_pages : (e.suspend w pbCode cbBytes).pages = e.pages := rfl

@[simp] theorem resume_memory : e.resume.memory = e.memory := rfl

@[simp] theorem resume_pHooks : e.resume.pHooks = e.pHooks := rfl

@[simp] theorem resume_nHooksInUse : e.resume.nHooksInUse = e.nHooksInUse := rfl

@[simp] theorem resume_pages : e.resume.pages = e.pages := rfl

end Fields

end Engine

/-! ## Setting a hook -/

/-- What `Mhook_SetHook` does once the other threads are suspended: the return value,
`*ppSystemFunction`, and what has changed. -/
def placeHook (w : Surroundings) (ppSystemFunction pSystem pHook : Address) (skip : Skip)
    (e : Engine) : Bool × Address × Engine :=
  match e.trampolineAlloc w.space pSystem skip.pdata.nLimitUp skip.pdata.nLimitDown with
  | (none, e) => (false, ppSystemFunction, e.resume)
  | (some pTrampoline, e) =>
    let e := if w.protectFunction ∧ w.protectTrampoline then
      { e with memory := install e.memory pSystem pHook pTrampoline skip } else e
    if pSystemFunction e.memory pTrampoline ≠ 0 then
      (true, codeTrampoline pTrampoline, e.resume)
    else (false, ppSystemFunction, (e.trampolineFree pTrampoline true).resume)

/-- None when `SkipJumps` has not returned after `n` calls. -/
def setHook (dis : Disassembler) (w : Surroundings) (n : ℕ) (ppSystemFunction pHook : Address)
    (e : Engine) : Option (Bool × Address × Engine) := do
  let pSystem ← skipJumps e.memory n ppSystemFunction
  let pHook ← skipJumps e.memory n pHook
  let skip := disassembleAndSkip dis e.memory pSystem jmpSize
  if jmpSize ≤ skip.dwRet then
    return placeHook w ppSystemFunction pSystem pHook skip (e.suspend w pSystem skip.dwRet)
  else return (false, ppSystemFunction, e)

/-! ## Taking a hook back -/

def restoreCode (m : Memory) (pSystem pTrampoline : Address) (cbOverwritten : ℕ) : Memory :=
  (List.range cbOverwritten).foldl (fun m i =>
    write m (pSystem + BitVec.ofNat 64 i) [m (codeUntouched pTrampoline + BitVec.ofNat 64 i)]) m

/-- The return value, `*ppHookedFunction`, and what has changed. -/
def unhook (w : Surroundings) (ppHookedFunction : Address) (e : Engine) :
    Bool × Address × Engine :=
  match e.trampolineGet ppHookedFunction with
  | none => (false, ppHookedFunction, e)
  | some pTrampoline =>
    let pSystem := pSystemFunction e.memory pTrampoline
    let cbOverwritten := cbOverwrittenCode e.memory pTrampoline
    let e := e.suspend w pSystem cbOverwritten
    if w.protectFunction then
      let e := { e with memory := restoreCode e.memory pSystem pTrampoline cbOverwritten }
      (true, pSystemFunction e.memory pTrampoline, (e.trampolineFree pTrampoline false).resume)
    else (false, ppHookedFunction, e.resume)

/-! ## What the calls rely on -/

/-- The code of a function that is overwritten. -/
structure Zone where
  start : Address
  length : ℕ

def Zone.Apart (z z' : Zone) : Prop := AddressSpace.Apart z.start z.length z'.start z'.length

/-- The fields of a trampoline that are read again, and the code that is put back. -/
def fieldsOf (pTrampoline : Address) : Zone := ⟨pTrampoline, 24⟩

def savedOf (pTrampoline : Address) : Zone := ⟨codeUntouched pTrampoline, maxCodeBytes⟩

def pageOf (pTrampoline : Address) : Zone := ⟨pTrampoline, pageSize⟩

def zoneOf (m : Memory) (pTrampoline : Address) : Zone :=
  ⟨pSystemFunction m pTrampoline, cbOverwrittenCode m pTrampoline⟩

/-- The hooks that are in place do not get in each other's way. -/
structure Engine.Sound (e : Engine) : Prop where
  slots : e.pHooks.length = maxSupportedHooks
  inUse : e.nHooksInUse = e.hooked.length
  nodup : e.hooked.Nodup
  idle : e.threads.Idle
  allocated : ∀ T ∈ e.hooked, T ∈ e.pages
  pages : e.pages.Pairwise fun T T' => (pageOf T).Apart (pageOf T')
  zones : ∀ T ∈ e.hooked, ∀ T' ∈ e.hooked, T ≠ T' →
    (zoneOf e.memory T).Apart (zoneOf e.memory T')
  fields : ∀ T ∈ e.hooked, ∀ T' ∈ e.hooked, (zoneOf e.memory T).Apart (fieldsOf T')
  saved : ∀ T ∈ e.hooked, ∀ T' ∈ e.hooked, (zoneOf e.memory T).Apart (savedOf T')
  short : ∀ T ∈ e.hooked, cbOverwrittenCode e.memory T ≤ maxCodeBytes

/-- The function lies where code of the process lies, and memory that the system hands out is apart
from what is saved and overwritten of it, and from the trampolines there are. -/
structure Engine.Situated (w : Surroundings) (e : Engine) (S H : Address) (skip : Skip) :
    Prop where
  low : 0x10000 ≤ S.toNat
  high : S.toNat < 0x800000000000
  below : 0 ≤ S.toNat + skip.pdata.nLimitDown
  free : ∀ T, w.space.virtualAlloc T = true → Zone.Apart ⟨S, skip.dwRet⟩ (pageOf T) ∧
    Zone.Apart ⟨S, jumpLength S (entryTarget S H T)⟩ (pageOf T) ∧
    ∀ T' ∈ e.pages, (pageOf T).Apart (pageOf T')

/-- Besides, the jump at the entry is not longer than the code that is saved, and neither this code
nor the memory gets in the way of the hooks that are in place. -/
structure Engine.Admits (w : Surroundings) (e : Engine) (S H : Address) (skip : Skip) : Prop
    extends e.Situated w S H skip where
  fits : far S H ∨ jumpLength S H ≤ skip.dwRet
  zones : ∀ T ∈ e.hooked, Zone.Apart ⟨S, skip.dwRet⟩ (zoneOf e.memory T)
  fields : ∀ T ∈ e.hooked, Zone.Apart ⟨S, skip.dwRet⟩ (fieldsOf T)
  saved : ∀ T ∈ e.hooked, Zone.Apart ⟨S, skip.dwRet⟩ (savedOf T)
  elsewhere : ∀ T, w.space.virtualAlloc T = true → ∀ T' ∈ e.hooked,
    (zoneOf e.memory T').Apart (pageOf T)

end ComputerLock.Mhook
