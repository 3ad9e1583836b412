import Mathlib.Logic.Function.Basic
import ComputerLock.Library.CText

/-!
# Common tools

Splitting of strings, and the settings files through which the updater, the process
handler and the hook library share the administrator's choices. A `std::string` is a list
of bytes, a `std::wstring` a list of UTF-16 units. Settings are written and read in text
mode; `Disk` holds the bytes that lie on disk.
-/

namespace ComputerLock.Common
open Library

abbrev Bytes := List UInt8
abbrev WString := List UInt16

/-- `MAX_PATH` -/
def maxPath : ℕ := 260

/-- The ways a call can end without returning. -/
inductive Fault where
  /-- `throw "..."` of a C string -/
  | thrown (message : String)
  /-- `std::out_of_range`, from `substr` -/
  | outOfRange
  /-- `std::range_error`, from `wstring_convert::from_bytes` -/
  | rangeError
  /-- an access past the end of a vector or an array: undefined behaviour -/
  | badIndex (index size : ℕ)
  /-- the invalid parameter handler of a `_s` function -/
  | invalidParameter
  deriving DecidableEq, Repr

/-- The files in `Daniel\ComputerLock 1.0` below Program Files. -/
inductive SettingsFile where
  | admin | processes | fileExtensions | filePaths
  deriving DecidableEq, Repr

/-- The bytes of every settings file. -/
abbrev Disk := SettingsFile → Bytes

def settingsDelimiter : UInt8 := CText.newline

/-- The characters whose only byte satisfies `isspace`. -/
def isSpace (c : Char) : Bool := Utf8.ascii CText.isspace c

/-- Space, and the control characters from tab to carriage return. -/
theorem isSpace_iff (c : Char) : isSpace c = true ↔ c.toNat = 32 ∨ 9 ≤ c.toNat ∧ c.toNat ≤ 13 := by
  by_cases hlt : c.toNat < 128
  · have hb : (UInt8.ofNat c.toNat).toNat = c.toNat :=
      UInt8.toNat_ofNat_of_lt' (Nat.lt_trans hlt (by decide))
    simp [isSpace, Utf8.ascii, hlt, CText.isspace, ← UInt8.toNat_inj, UInt8.le_iff_toNat_le, hb]
  · simp only [isSpace, Utf8.ascii, hlt, decide_false, Bool.false_and, Bool.false_eq_true,
      false_iff]
    omega

/-! ## split -/

/-- The loop `while (std::getline(ss, item, delim))`; each turn extracts a byte or more,
so as many turns as there are bytes suffice. -/
def splitLoop (delim : UInt8) : ℕ → Bytes → List Bytes
  | 0, _ => []
  | n + 1, ss => match Delimited.getline delim ss with
    | none => []
    | some (item, rest) => item :: splitLoop delim n rest

def split (s : Bytes) (delim : UInt8) : List Bytes := splitLoop delim s.length s

theorem splitLoop_eq_fields (delim : UInt8) {n : ℕ} {s : Bytes} (h : s.length ≤ n) :
    splitLoop delim n s = Delimited.fields delim s := by
  induction n generalizing s with
  | zero => simp [splitLoop, List.length_eq_zero_iff.mp (Nat.le_zero.mp h)]
  | succ n ih =>
    rw [splitLoop, Delimited.fields_eq_getline]
    cases hg : Delimited.getline delim s with
    | none => rfl
    | some r =>
      have := Delimited.getline_rest_lt (show Delimited.getline delim s = some (r.1, r.2) from hg)
      exact congrArg (r.1 :: ·) (ih (by omega))

/-- `split` reads delimiter-terminated fields. -/
@[simp] theorem split_eq_fields (s : Bytes) (delim : UInt8) :
    split s delim = Delimited.fields delim s := splitLoop_eq_fields delim le_rfl

/-- No element holds the delimiter; the elements join to the string, less its last delimiter when
it ends in one; and elements whose last one is not empty are found again in their join. -/
theorem split_law (delim : UInt8) : Delimited.Law delim (split · delim) := by
  have hsplit : (split · delim) = Delimited.fields delim :=
    funext fun s => split_eq_fields s delim
  rw [hsplit]
  exact Delimited.law_fields delim

/-! ## Settings files -/

/-- Opening the file, which is taken to succeed, truncates it; the string is written in text mode. -/
def rewriteFile (path : SettingsFile) (stringToAppend : Bytes) (disk : Disk) : Disk :=
  Function.update disk path (CText.writeText stringToAppend)

/-- `infile >> word` on a file opened in text mode. -/
def readWord (file : Bytes) : Bytes := CText.extractWord (CText.readText file)

def getParamsFromFile (path : SettingsFile) (disk : Disk) : List Bytes :=
  split (readWord (disk path)) settingsDelimiter

@[simp] theorem rewriteFile_self (path : SettingsFile) (s : Bytes) (disk : Disk) :
    rewriteFile path s disk path = CText.writeText s := Function.update_self ..

@[simp] theorem rewriteFile_of_ne {path path' : SettingsFile} (h : path' ≠ path) (s : Bytes)
    (disk : Disk) : rewriteFile path s disk path' = disk path' := Function.update_of_ne h ..

/-- A word has no newline in it, so what is read back is one parameter, or none when the
file has no word. -/
theorem getParamsFromFile_eq (path : SettingsFile) (disk : Disk) :
    getParamsFromFile path disk =
      if readWord (disk path) = [] then [] else [readWord (disk path)] := by
  rw [getParamsFromFile, split_eq_fields]
  split_ifs with h
  · rw [h, Delimited.fields_nil]
  · refine Delimited.fields_of_not_mem (fun hmem => ?_) h
    exact absurd (CText.not_isspace_of_mem_extractWord hmem) (by decide)

end ComputerLock.Common
