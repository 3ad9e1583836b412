import Mathlib.Algebra.Ring.Nat
import ComputerLock.Library.Stateful
import ComputerLock.Library.Utf16
import ComputerLock.Trampoline.Policy

/-!
# The hook of CreateFileW

Every call of `CreateFileW` in an inspected process runs `HookCreateFile`, which opens the
extensions file for itself, and forwards the call unless the name is to be blocked.
-/

namespace ComputerLock.Trampoline
open Library Common

/-- The arguments of `CreateFileW`. -/
structure CreateFileCall where
  lpFileName : WString
  dwDesiredAccess : UInt32
  dwShareMode : UInt32
  lpSecurityAttributes : ℕ
  dwCreationDisposition : UInt32
  dwFlagsAndAttributes : UInt32
  hTemplateFile : ℕ
  deriving DecidableEq

/-- The value of `HANDLE` that is no handle. -/
def invalidHandleValue : ℕ := 2 ^ 64 - 1

/-- What a call can change in the process that makes it. -/
structure Process where
  handles : List ℕ
  /-- the calls that reached the real `CreateFileW` -/
  calls : List CreateFileCall
  messageBoxes : ℕ

/-- A call made by the process, with what the system answers. -/
structure HookedCall where
  call : CreateFileCall
  name_free : 0 ∉ call.lpFileName
  name_length : call.lpFileName.length ≤ 32767
  /-- the text in the extensions file -/
  text : List Char
  /-- what the hook's own open of the extensions file returns -/
  own : ℕ
  /-- what the real function returns for the call -/
  result : ℕ

/-- The real function. -/
def actualCreateFile (call : CreateFileCall) (returned : ℕ) : EStateM Fault Process ℕ := do
  modify fun p => { p with
    calls := p.calls ++ [call]
    handles := if returned = invalidHandleValue then p.handles else returned :: p.handles }
  return returned

/-- `WideCharToMultiByte` to UTF-8. -/
def encode (wstr : WString) : Bytes := Utf8.encode (Utf16.decode wstr)

/-- `strcpy_s` into an array: the string and its terminator have to fit. -/
def strcpyS (size : ℕ) (src : Bytes) : Except Fault Bytes :=
  if src.length < size then .ok src else .error .invalidParameter

def filePathLength : ℕ := 1024

section Hook

/- `FILE_EXTENSION_SETTINGS` -/
variable (settingsPath : WString)

/-- `GENERIC_READ`, shared in every way, `OPEN_EXISTING`, `FILE_ATTRIBUTE_NORMAL`. -/
def settingsCall : CreateFileCall where
  lpFileName := settingsPath
  dwDesiredAccess := 0x80000000
  dwShareMode := 7
  lpSecurityAttributes := 0
  dwCreationDisposition := 3
  dwFlagsAndAttributes := 0x80
  hTemplateFile := 0

/-- `IsImportantFile`: `hFile` is never closed, and nothing is read from an invalid one. -/
def isImportantFile (filePath : Bytes) (c : HookedCall) : EStateM Fault Process Bool := do
  let hFile ← actualCreateFile (settingsCall settingsPath) c.own
  return isImportant filePath (if hFile = invalidHandleValue then [] else stored c.text)

def hookCreateFile (c : HookedCall) : EStateM Fault Process ℕ := do
  let filePath ← Stateful.ofExcept (strcpyS filePathLength (encode c.call.lpFileName))
  if ← isImportantFile settingsPath (CText.cStr filePath) c then
    modify fun p => { p with messageBoxes := p.messageBoxes + 1 }
    return invalidHandleValue
  actualCreateFile c.call c.result

/-! ## Transparency -/

/-- No stored extension is a suffix of the name. -/
def HookedCall.Unmatched (c : HookedCall) : Prop :=
  ∀ e ∈ entries c.text, ¬ e <:+ Utf16.decode c.call.lpFileName

/-- The call returns what the real function returns, forwards itself once, and leaves the
handles the real function leaves. -/
def Transparent (p : Process) (c : HookedCall) : Prop :=
  ∃ p', (hookCreateFile settingsPath c).run p = .ok c.result p' ∧
    p'.handles = (Stateful.final (actualCreateFile c.call c.result) p).handles ∧
    p'.messageBoxes = p.messageBoxes ∧
    (p'.calls.drop p.calls.length).filter (·.lpFileName = c.call.lpFileName) = [c.call]

/-- The name fits the buffer. -/
def HookedCall.Fits (c : HookedCall) : Prop :=
  (encode c.call.lpFileName).length < filePathLength

/-- The name fits the buffer and is not that of the extensions file, which cannot be
opened. -/
def Silent (c : HookedCall) : Prop :=
  c.Fits ∧ c.own = invalidHandleValue ∧ c.call.lpFileName ≠ settingsPath

/-- The process after the real function has been called. -/
def Process.called (p : Process) (call : CreateFileCall) (returned : ℕ) : Process :=
  { p with
    calls := p.calls ++ [call]
    handles := if returned = invalidHandleValue then p.handles else returned :: p.handles }

theorem isImportant_nil (filePath : Bytes) : isImportant filePath [] = false := by
  simp [isImportant, CText.cStr, importantLoop]

/-- A name without a zero unit is its own C string in UTF-8. -/
theorem cStr_encode {w : WString} (h : 0 ∉ w) : CText.cStr (encode w) = encode w :=
  CText.cStr_of_not_mem (nul_not_mem_encode (Utf16.nul_not_mem_decode h))

/-- What the hook decides for a call. -/
def HookedCall.verdict (c : HookedCall) : Bool :=
  isImportant (encode c.call.lpFileName)
    (if c.own = invalidHandleValue then [] else stored c.text)

theorem verdict_of_own_invalid {c : HookedCall} (h : c.own = invalidHandleValue) :
    c.verdict = false := by
  rw [HookedCall.verdict, if_pos h, isImportant_nil]

@[simp] theorem run_actualCreateFile (call : CreateFileCall) (returned : ℕ) (p : Process) :
    (actualCreateFile call returned).run p = .ok returned (p.called call returned) := rfl

theorem run_hookCreateFile_of_fits {c : HookedCall} (h : c.Fits) (p : Process) :
    (hookCreateFile settingsPath c).run p =
      if c.verdict then
        .ok invalidHandleValue { p.called (settingsCall settingsPath) c.own with
          messageBoxes := p.messageBoxes + 1 }
      else .ok c.result ((p.called (settingsCall settingsPath) c.own).called c.call c.result) := by
  have hcopy : strcpyS filePathLength (encode c.call.lpFileName) =
      .ok (encode c.call.lpFileName) := if_pos h
  rw [hookCreateFile, hcopy]
  cases hv : c.verdict <;> unfold HookedCall.verdict at hv <;>
    simp [-bind_pure_comp, isImportantFile, cStr_encode c.name_free, hv, Process.called]

/-- A name that does not fit ends the process. -/
theorem run_hookCreateFile_of_not_fits {c : HookedCall} (h : ¬ c.Fits) (p : Process) :
    (hookCreateFile settingsPath c).run p = .error .invalidParameter p := by
  have hcopy : strcpyS filePathLength (encode c.call.lpFileName) = .error .invalidParameter :=
    if_neg h
  rw [hookCreateFile, hcopy]
  rfl

theorem final_actualCreateFile (call : CreateFileCall) (returned : ℕ) (p : Process) :
    Stateful.final (actualCreateFile call returned) p = p.called call returned := rfl

theorem called_handles_ne {p : Process} {call call' : CreateFileCall} {own result : ℕ}
    (h : own ≠ invalidHandleValue) :
    ((p.called call own).called call' result).handles ≠ (p.called call' result).handles := by
  intro heq
  have := congrArg List.length heq
  by_cases hr : result = invalidHandleValue <;> simp [Process.called, h, hr] at this

theorem Silent.transparent {c : HookedCall} (h : Silent settingsPath c) (p : Process) :
    Transparent settingsPath p c := by
  obtain ⟨hfits, hown, hname⟩ := h
  refine ⟨(p.called (settingsCall settingsPath) c.own).called c.call c.result, ?_, ?_, rfl, ?_⟩
  · rw [run_hookCreateFile_of_fits settingsPath hfits, verdict_of_own_invalid hown]
    rfl
  · simp [final_actualCreateFile, Process.called, hown]
  · simp [Process.called, settingsCall, Ne.symm hname]

theorem Transparent.silent {c : HookedCall} {p : Process} (h : Transparent settingsPath p c) :
    Silent settingsPath c := by
  obtain ⟨p', hrun, hhandles, hboxes, hcalls⟩ := h
  have hfits : c.Fits := by
    by_contra hnot
    rw [run_hookCreateFile_of_not_fits settingsPath hnot] at hrun
    cases hrun
  rw [run_hookCreateFile_of_fits settingsPath hfits] at hrun
  cases hv : c.verdict with
  | true =>
    -- a blocked call shows a message box
    rw [hv] at hrun
    obtain rfl := (EStateM.Result.ok.inj hrun).2
    simp at hboxes
  | false =>
    rw [hv] at hrun
    obtain rfl := (EStateM.Result.ok.inj hrun).2
    refine ⟨hfits, ?_, fun hname => ?_⟩
    · by_contra hown
      exact called_handles_ne hown hhandles
    · simp [Process.called, settingsCall, hname] at hcalls

/-! ## Sequences of calls -/

theorem exists_run_iff_fits (p : Process) (c : HookedCall) :
    (∃ r p', (hookCreateFile settingsPath c).run p = .ok r p') ↔ c.Fits := by
  constructor
  · rintro ⟨r, p', hrun⟩
    by_contra hnot
    rw [run_hookCreateFile_of_not_fits settingsPath hnot] at hrun
    cases hrun
  · intro hfits
    rw [run_hookCreateFile_of_fits settingsPath hfits]
    cases c.verdict <;> exact ⟨_, _, rfl⟩

/-- As long as the process lives, every call whose name no extension matches is
transparent. -/
def TransparentRun : Process → List HookedCall → Prop
  | _, [] => True
  | p, c :: cs => (c.Unmatched → Transparent settingsPath p c) ∧
      ∀ r p', (hookCreateFile settingsPath c).run p = .ok r p' → TransparentRun p' cs

/-- As long as the names fit, every call whose name no extension matches is silent. -/
def SilentRun : List HookedCall → Prop
  | [] => True
  | c :: cs => (c.Unmatched → Silent settingsPath c) ∧ (c.Fits → SilentRun cs)

theorem SilentRun.transparentRun {p : Process} {cs : List HookedCall}
    (h : SilentRun settingsPath cs) : TransparentRun settingsPath p cs := by
  induction cs generalizing p with
  | nil => trivial
  | cons c cs ih =>
    refine ⟨fun unmatched => (h.1 unmatched).transparent settingsPath p, fun r p' hrun => ?_⟩
    exact ih (h.2 ((exists_run_iff_fits settingsPath p c).mp ⟨r, p', hrun⟩))

theorem TransparentRun.silentRun {p : Process} {cs : List HookedCall}
    (h : TransparentRun settingsPath p cs) : SilentRun settingsPath cs := by
  induction cs generalizing p with
  | nil => trivial
  | cons c cs ih =>
    refine ⟨fun unmatched => (h.1 unmatched).silent, fun fits => ?_⟩
    obtain ⟨r, p', hrun⟩ := (exists_run_iff_fits settingsPath p c).mpr fits
    exact ih (h.2 r p' hrun)

/-- The hook is transparent exactly for names that fit, and only while it cannot open the
extensions file. -/
theorem transparentRun_iff (p : Process) (cs : List HookedCall) :
    TransparentRun settingsPath p cs ↔ SilentRun settingsPath cs :=
  ⟨TransparentRun.silentRun settingsPath, SilentRun.transparentRun settingsPath⟩

end Hook

/-- `CreateFileW(L"a", GENERIC_READ, 0, NULL, OPEN_EXISTING, 0, NULL)`, with no extension
stored; the hook's own open returns handle 4, the call handle 8. -/
def shortCall : HookedCall where
  call := ⟨[97], 0x80000000, 0, 0, 3, 0, 0⟩
  name_free := by decide
  name_length := by decide
  text := []
  own := 4
  result := 8

/-- The handle of the extensions file stays open. -/
theorem not_always_transparent :
    ¬ ∀ settingsPath p cs, TransparentRun settingsPath p cs := by
  intro h
  have unmatched : shortCall.Unmatched := by simp [HookedCall.Unmatched, shortCall, entries,
    strippedLines]
  have silent := ((h [] ⟨[], [], 0⟩ [shortCall]).silentRun []).1 unmatched
  exact absurd silent.2.1 (by decide)

/-! ## Matching of names -/

/-- A name whose surrogates are paired. -/
structure FileName where
  units : WString
  well_formed : Utf16.WellFormed units
  nul_free : 0 ∉ units

namespace FileName

variable (w : FileName)

/-- The code points of the name. -/
def chars : List Char := Utf16.decode w.units

theorem encode_chars : Utf16.encode w.chars = w.units := Utf16.encode_decode w.well_formed

/-- The bytes left of an entry end the bytes of a name exactly when the characters left of the
entry end the name, blank entries included. -/
theorem endsWith_encode_iff (e : List Char) :
    endsWith (CText.cStr (encode w.units)) ((Utf8.encode e).filter (! CText.isspace ·)) = true ↔
      e.filter (! isSpace ·) <:+ w.chars := by
  have hstripped : (Utf8.encode e).filter (! CText.isspace ·) =
      Utf8.encode (e.filter (! isSpace ·)) :=
    Utf8.filter_not_encode (fun _ => CText.isspace_of_le) e
  rw [endsWith_iff, cStr_encode w.nul_free, hstripped]
  exact Utf8.encode_suffix_iff

/-- `\U0001F600.t`, whose first character takes two units and four bytes. -/
def grin : FileName where
  units := [0xD83D, 0xDE00, 46, 116]
  well_formed := by decide
  nul_free := by decide

/-- The entry `\U0001F600 .t` matches it: the blank is left out. -/
example : grin.chars = [Char.ofNat 0x1F600, '.', 't'] ∧
    endsWith (CText.cStr (encode grin.units))
      ((Utf8.encode [Char.ofNat 0x1F600, ' ', '.', 't']).filter (! CText.isspace ·)) = true := by
  decide

/-- So the hook decides by characters on a text that fits its buffer. -/
theorem isImportant_iff_of_fits {t : List Char}
    (hfit : (stored t).length ≤ fileDataBufferLength - 1) (hnul : nul ∉ t) :
    isImportant (encode w.units) (stored t) = true ↔ ∃ l ∈ strippedLines t, l <:+ w.chars := by
  rw [isImportant_iff, seen_of_fits hfit hnul]
  simp [encode, chars]

end FileName
end ComputerLock.Trampoline
