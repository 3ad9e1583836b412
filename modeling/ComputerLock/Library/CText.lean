import Mathlib.Data.List.Infix
import ComputerLock.Library.Utf8

/-!
# Byte strings of the C runtime

C strings, the white space of the C locale, and files opened in text mode on Windows: a
newline is written as CR LF, a CR LF pair is read back as one newline, and the first
control-Z ends the file for the reader.
-/

namespace Library.CText

def nul : UInt8 := 0
def newline : UInt8 := 10
def carriageReturn : UInt8 := 13
def controlZ : UInt8 := 26

/-- `isspace` in the C locale. -/
def isspace (b : UInt8) : Bool := b == 32 || (9 ≤ b && b ≤ 13)

/-- White space is ASCII. -/
theorem isspace_of_le {b : UInt8} (h : 128 ≤ b) : isspace b = false := by
  have hb : 128 ≤ b.toNat := UInt8.le_iff_toNat_le.mp h
  have hspace : b ≠ 32 := by
    rintro rfl
    exact absurd hb (by decide)
  have hcontrol : ¬ b ≤ 13 := fun hle => by
    have : b.toNat ≤ 13 := UInt8.le_iff_toNat_le.mp hle
    omega
  simp [isspace, hspace, hcontrol]

/-- The string a `const char*` to these bytes denotes. -/
def cStr (s : List UInt8) : List UInt8 := s.takeWhile (· ≠ nul)

theorem nul_not_mem_cStr (s : List UInt8) : nul ∉ cStr s := by
  intro h
  simpa using List.mem_takeWhile_imp h

theorem cStr_of_not_mem {s : List UInt8} (h : nul ∉ s) : cStr s = s :=
  List.takeWhile_eq_self_iff.mpr fun _ hb => decide_eq_true (ne_of_mem_of_not_mem hb h)

theorem cStr_prefix (s : List UInt8) : cStr s <+: s := List.takeWhile_prefix _

/-! ## Text mode -/

/-- The bytes on disk of a text written in text mode. -/
def writeText (s : List UInt8) : List UInt8 :=
  s.flatMap fun b => if b = newline then [carriageReturn, newline] else [b]

/-- CR LF pairs become newlines. -/
def joinCrLf : List UInt8 → List UInt8
  | 13 :: 10 :: s => newline :: joinCrLf s
  | b :: s => b :: joinCrLf s
  | [] => []

/-- The text a reader in text mode gets from the bytes on disk. -/
def readText (s : List UInt8) : List UInt8 := joinCrLf (s.takeWhile (· ≠ controlZ))

@[simp] theorem writeText_nil : writeText [] = [] := rfl

theorem writeText_cons_newline (s : List UInt8) :
    writeText (newline :: s) = carriageReturn :: newline :: writeText s := rfl

theorem writeText_cons_of_ne {b : UInt8} (h : b ≠ newline) (s : List UInt8) :
    writeText (b :: s) = b :: writeText s := by simp [writeText, h]

theorem joinCrLf_cons_of_head {b : UInt8} {s : List UInt8} (h : s.head? ≠ some newline) :
    joinCrLf (b :: s) = b :: joinCrLf s := by
  rw [joinCrLf]
  rintro t rfl rfl
  exact h rfl

theorem head?_writeText (s : List UInt8) : (writeText s).head? ≠ some newline := by
  cases s with
  | nil => simp
  | cons b s =>
    by_cases hb : b = newline
    · subst hb
      rw [writeText_cons_newline, List.head?_cons]
      decide
    · rw [writeText_cons_of_ne hb]
      simpa using hb

/-- Translating newlines back and forth is the identity. -/
@[simp] theorem joinCrLf_writeText (s : List UInt8) : joinCrLf (writeText s) = s := by
  induction s with
  | nil => rfl
  | cons b s ih =>
    by_cases hb : b = newline
    · subst hb
      rw [writeText_cons_newline]
      exact congrArg (newline :: ·) ih
    · rw [writeText_cons_of_ne hb, joinCrLf_cons_of_head (head?_writeText s), ih]

theorem writeText_injective : Function.Injective writeText :=
  Function.LeftInverse.injective joinCrLf_writeText

@[simp] theorem writeText_inj {s t : List UInt8} : writeText s = writeText t ↔ s = t :=
  writeText_injective.eq_iff

/-- A text is read back as written up to its first control-Z. -/
theorem readText_writeText (s : List UInt8) :
    readText (writeText s) = s.takeWhile (· ≠ controlZ) := by
  unfold readText writeText
  rw [Utf8.takeWhile_flatMap (q := (decide <| · ≠ controlZ))]
  · exact joinCrLf_writeText _
  · intro a b hb
    split_ifs at hb with ha
    · subst ha
      rcases List.mem_pair.mp hb with rfl | rfl <;> decide
    · grind
  · intro a
    split_ifs <;> simp

theorem mem_writeText {b : UInt8} (hb : b ≠ carriageReturn) {s : List UInt8} :
    b ∈ writeText s ↔ b ∈ s := by
  simp only [writeText, List.mem_flatMap]
  constructor
  · rintro ⟨a, ha, h⟩
    split_ifs at h with hn <;> grind
  · intro h
    exact ⟨b, h, by split_ifs <;> grind⟩

/-- Lines differ from what is on disk by carriage returns only. -/
theorem map_filter_fields_writeText {p : UInt8 → Bool} (hp : p carriageReturn = false)
    (s : List UInt8) :
    (Delimited.fields newline (writeText s)).map (·.filter p) =
      (Delimited.fields newline s).map (·.filter p) := by
  induction s with
  | nil => rfl
  | cons b s ih =>
    by_cases hb : b = newline
    · subst hb
      rw [writeText_cons_newline,
        Delimited.fields_cons_of_ne (by decide : carriageReturn ≠ newline),
        Delimited.fields_cons_self, Delimited.fields_cons_self, Delimited.consHead]
      simp [ih, hp]
    · rw [writeText_cons_of_ne hb, Delimited.fields_cons_of_ne hb,
        Delimited.fields_cons_of_ne hb]
      cases hw : Delimited.fields newline (writeText s) <;>
        cases hs : Delimited.fields newline s <;>
        grind [Delimited.consHead]

/-! ## Formatted extraction -/

/-- `stream >> word`: skip white space, then take everything up to the next white space. -/
def extractWord (s : List UInt8) : List UInt8 :=
  (s.dropWhile isspace).takeWhile (! isspace ·)

theorem not_isspace_of_mem_extractWord {s : List UInt8} {b : UInt8} (h : b ∈ extractWord s) :
    isspace b = false := by
  simpa using List.mem_takeWhile_imp h

end Library.CText
