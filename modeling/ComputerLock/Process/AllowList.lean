import ComputerLock.Library.Utf16
import ComputerLock.CommonTools

/-!
# The list of safe processes

The list is stored as one text with a newline behind each name, and read back as one word.
A name is compared as a C string of UTF-16 units.
-/

namespace ComputerLock.Process
open Library Common

/-! ## IsProcessSafe -/

/-- `wstring_convert<codecvt_utf8_utf16<wchar_t>>::from_bytes` -/
def fromBytes (s : Bytes) : Except Fault WString :=
  match Utf8.decode s with
  | some t => .ok (Utf16.encode t)
  | none => .error .rangeError

/-- The string a `const wchar_t*` to these units denotes. -/
def cWStr (s : WString) : WString := s.takeWhile (· ≠ 0)

/-- `_tcscmp(s, t) == 0` -/
def tcscmpEq (s t : WString) : Bool := cWStr s = cWStr t

def isSafeLoop (szProcessName : WString) : List Bytes → Except Fault Bool
  | [] => .ok false
  | safe :: safeProcesses => do
    let procName ← fromBytes safe
    if tcscmpEq procName szProcessName then
      return true
    isSafeLoop szProcessName safeProcesses

def isProcessSafe (szProcessName : WString) (disk : Disk) : Except Fault Bool :=
  isSafeLoop szProcessName (getParamsFromFile .processes disk)

/-- The one word of the file is compared, and nothing when there is none. -/
theorem isProcessSafe_eq (n : WString) (disk : Disk) :
    isProcessSafe n disk =
      if readWord (disk .processes) = [] then .ok false
      else (fromBytes (readWord (disk .processes))).map (tcscmpEq · n) := by
  rw [isProcessSafe, getParamsFromFile_eq]
  split_ifs with hnil
  · rfl
  · rw [isSafeLoop]
    cases fromBytes (readWord (disk .processes)) with
    | error e => rfl
    | ok procName =>
      cases htcs : tcscmpEq procName n <;>
        simp [htcs, isSafeLoop, bind, Except.bind, pure, Except.pure, Except.map]

def WellFormed (s : Bytes) : Prop := (Utf8.decode s).isSome

instance (s : Bytes) : Decidable (WellFormed s) := inferInstanceAs (Decidable (_ = true))

/-- The converter throws exactly on ill-formed bytes. -/
theorem isProcessSafe_eq_ok_iff (n : WString) (disk : Disk) :
    (∃ b, isProcessSafe n disk = .ok b) ↔ WellFormed (readWord (disk .processes)) := by
  rw [isProcessSafe_eq]
  split_ifs with hnil
  · have hempty : WellFormed (readWord (disk .processes)) := by
      rw [hnil]
      exact congrArg Option.isSome (Utf8.decode_encode [])
    simpa using hempty
  · rw [WellFormed, fromBytes]
    cases Utf8.decode (readWord (disk .processes)) <;> simp [Except.map]

theorem isProcessSafe_eq_error {n : WString} {disk : Disk} {e : Fault}
    (h : isProcessSafe n disk = .error e) : e = .rangeError := by
  rw [isProcessSafe_eq, fromBytes] at h
  split_ifs at h
  cases hdecode : Utf8.decode (readWord (disk .processes)) with
  | none =>
    rw [hdecode] at h
    exact (Except.error.inj h).symm
  | some t =>
    rw [hdecode] at h
    cases h

/-! ## What becomes of a stored text -/

def isControlZ (c : Char) : Bool := Utf8.ascii (· == CText.controlZ) c

/-- The first word of a text, up to its first control-Z. -/
def firstWord (t : List Char) : List Char :=
  ((t.takeWhile (! isControlZ ·)).dropWhile isSpace).takeWhile (! isSpace ·)

theorem controlZ_of_le {b : UInt8} (h : 128 ≤ b) : (b == CText.controlZ) = false := by
  apply beq_eq_false_iff_ne.mpr
  rintro rfl
  exact absurd (UInt8.le_iff_toNat_le.mp h) (by decide)

theorem readWord_writeText_encode (t : List Char) :
    readWord (CText.writeText (Utf8.encode t)) = Utf8.encode (firstWord t) := by
  have hnot : (fun b => decide (b ≠ CText.controlZ)) = fun b => ! (b == CText.controlZ) := by
    funext b
    by_cases hb : b = CText.controlZ <;> simp [hb]
  have hz : (Utf8.encode t).takeWhile (· ≠ CText.controlZ) =
      Utf8.encode (t.takeWhile (! isControlZ ·)) := by
    rw [hnot]
    exact Utf8.takeWhile_not_encode (fun _ => controlZ_of_le) t
  rw [readWord, CText.readText_writeText, hz, CText.extractWord,
    Utf8.dropWhile_encode fun _ => CText.isspace_of_le,
    Utf8.takeWhile_not_encode fun _ => CText.isspace_of_le]
  rfl

/-- At most one name is ever compared. -/
theorem isProcessSafe_rewriteFile (n : WString) (t : List Char) (disk : Disk) :
    isProcessSafe n (rewriteFile .processes (Utf8.encode t) disk) =
      .ok (decide (firstWord t ≠ [] ∧ tcscmpEq (Utf16.encode (firstWord t)) n)) := by
  have hread : fromBytes (Utf8.encode (firstWord t)) = .ok (Utf16.encode (firstWord t)) := by
    rw [fromBytes, Utf8.decode_encode]
  rw [isProcessSafe_eq, rewriteFile_self, readWord_writeText_encode, hread]
  by_cases hnil : firstWord t = [] <;> simp [hnil, Except.map]

theorem of_mem_firstWord {t : List Char} {c : Char} (h : c ∈ firstWord t) :
    c ∈ t ∧ isSpace c = false ∧ isControlZ c = false := by
  have hspace : isSpace c = false := by simpa using List.mem_takeWhile_imp h
  have hmem := (List.dropWhile_sublist _).subset ((List.takeWhile_sublist _).subset h)
  have hz : isControlZ c = false := by simpa using List.mem_takeWhile_imp hmem
  exact ⟨(List.takeWhile_sublist _).subset hmem, hspace, hz⟩

/-- A word of the text without white space and control-Z comes first, whatever the lines
after it. -/
theorem firstWord_append {w rest : List Char} (hne : w ≠ [])
    (simple : ∀ c ∈ w, isSpace c = false ∧ isControlZ c = false)
    (hrest : rest = [] ∨ ∃ u, rest = '\n' :: u) : firstWord (w ++ rest) = w := by
  have hz : (w ++ rest).takeWhile (! isControlZ ·) =
      w ++ rest.takeWhile (! isControlZ ·) :=
    List.takeWhile_append_of_pos fun c hc => by simp [(simple c hc).2]
  have hdrop : ∀ r, (w ++ r).dropWhile isSpace = w ++ r := by
    intro r
    obtain ⟨c, w', rfl⟩ := List.exists_cons_of_ne_nil hne
    exact List.dropWhile_cons_of_neg (by simp [(simple c (by simp)).1])
  rw [firstWord, hz, hdrop,
    List.takeWhile_append_of_pos fun c hc => by simp [(simple c hc).1]]
  rcases hrest with rfl | ⟨u, rfl⟩
  · simp
  · have hline : isSpace '\n' = true ∧ isControlZ '\n' = false := by decide
    rw [List.takeWhile_cons_of_pos (by simp [hline.2]),
      List.takeWhile_cons_of_neg (by simp [hline.1]), List.append_nil]

/-! ## Stored lists of names -/

/-- A name the list may hold; the name of a file has no zero character. -/
structure ProcessName where
  chars : List Char
  ne_nil : chars ≠ []
  newline_free : '\n' ∉ chars
  colon_free : ':' ∉ chars
  nul_free : Char.ofNat 0 ∉ chars

def ProcessName.utf8 (m : ProcessName) : Bytes := Utf8.encode m.chars
def ProcessName.utf16 (m : ProcessName) : WString := Utf16.encode m.chars

theorem ProcessName.zero_not_mem_utf16 (m : ProcessName) : 0 ∉ m.utf16 := fun h =>
  m.nul_free (Utf16.zero_mem_encode.mp h)

/-- The names joined by `SETTINGS_DELIMITER`. -/
def joined (names : List ProcessName) : Bytes :=
  List.intercalate [settingsDelimiter] (names.map ProcessName.utf8)

def text (names : List ProcessName) : List Char :=
  List.intercalate ['\n'] (names.map ProcessName.chars)

theorem joined_eq (names : List ProcessName) : joined names = Utf8.encode (text names) := by
  induction names with
  | nil => rfl
  | cons m names ih =>
    cases names with
    | nil => simp [joined, text, ProcessName.utf8]
    | cons m' names =>
      simp only [joined, text, List.map_cons, List.intercalate_cons_cons] at ih ⊢
      rw [ih, Utf8.encode_append, Utf8.encode_append]
      rfl

/-- The first line of the text, and the lines after it. -/
theorem text_cons (m : ProcessName) (names : List ProcessName) :
    ∃ rest, text (m :: names) = m.chars ++ rest ∧
      (rest = [] ∨ rest = '\n' :: text names) := by
  cases names with
  | nil => exact ⟨[], by simp [text], .inl rfl⟩
  | cons m' names =>
    refine ⟨'\n' :: text (m' :: names), ?_, .inr rfl⟩
    simp only [text, List.map_cons, List.intercalate_cons_cons]
    simp

theorem nul_not_mem_text (names : List ProcessName) : Char.ofNat 0 ∉ text names := by
  induction names with
  | nil => exact List.not_mem_nil
  | cons m names ih =>
    obtain ⟨rest, htext, hrest⟩ := text_cons m names
    have hnul : Char.ofNat 0 ∉ rest := by
      rcases hrest with rfl | rfl
      · exact List.not_mem_nil
      · exact List.not_mem_cons_of_ne_of_not_mem (by decide) ih
    rw [htext]
    exact fun h => (List.mem_append.mp h).elim m.nul_free hnul

/-- The file accepts exactly the names of the list. -/
def Exact (names : List ProcessName) (disk : Disk) : Prop :=
  ∀ n : WString, 0 ∉ n →
    (isProcessSafe n (rewriteFile .processes (joined names) disk) = .ok true ↔
      n ∈ names.map ProcessName.utf16)

/-- Every name of the list is one word. -/
def OneName (names : List ProcessName) : Prop :=
  ∃ w : List Char, (∀ c ∈ w, isSpace c = false ∧ isControlZ c = false) ∧
    ∀ m ∈ names, m.chars = w

theorem cWStr_of_not_mem {s : WString} (h : 0 ∉ s) : cWStr s = s :=
  List.takeWhile_eq_self_iff.mpr fun _ hu => decide_eq_true (ne_of_mem_of_not_mem hu h)

theorem isProcessSafe_joined {names : List ProcessName} {n : WString} (hn : 0 ∉ n)
    (disk : Disk) :
    isProcessSafe n (rewriteFile .processes (joined names) disk) = .ok true ↔
      firstWord (text names) ≠ [] ∧ Utf16.encode (firstWord (text names)) = n := by
  have hword : 0 ∉ Utf16.encode (firstWord (text names)) := fun h =>
    nul_not_mem_text names (of_mem_firstWord (Utf16.zero_mem_encode.mp h)).1
  rw [joined_eq, isProcessSafe_rewriteFile, tcscmpEq, cWStr_of_not_mem hword,
    cWStr_of_not_mem hn]
  simp

theorem Exact.oneName {names : List ProcessName} {disk : Disk} (h : Exact names disk) :
    OneName names := by
  refine ⟨firstWord (text names), fun c hc => (of_mem_firstWord hc).2, fun m hm => ?_⟩
  have accepted := (h m.utf16 m.zero_not_mem_utf16).mpr (List.mem_map_of_mem hm)
  have hword := ((isProcessSafe_joined m.zero_not_mem_utf16 disk).mp accepted).2
  exact (Utf16.encode_injective hword).symm

theorem firstWord_text {m : ProcessName} {names : List ProcessName}
    (simple : ∀ c ∈ m.chars, isSpace c = false ∧ isControlZ c = false) :
    firstWord (text (m :: names)) = m.chars := by
  obtain ⟨rest, htext, hrest⟩ := text_cons m names
  rw [htext]
  exact firstWord_append m.ne_nil simple (hrest.imp_right fun h => ⟨_, h⟩)

theorem OneName.exact {names : List ProcessName} (h : OneName names) (disk : Disk) :
    Exact names disk := by
  obtain ⟨w, simple, hall⟩ := h
  intro n hn
  rw [isProcessSafe_joined hn]
  cases names with
  | nil => simp [text, firstWord]
  | cons m names =>
    obtain rfl := hall m (by simp)
    rw [firstWord_text simple]
    constructor
    · rintro ⟨-, rfl⟩
      exact List.mem_map_of_mem (by simp)
    · intro hmem
      obtain ⟨m', hm', rfl⟩ := List.mem_map.mp hmem
      exact ⟨m.ne_nil, congrArg _ (hall m' hm').symm⟩

/-- The stored list is looked up right exactly when all its names are one and the same name
without white space and control-Z. -/
theorem exact_iff (names : List ProcessName) (disk : Disk) :
    Exact names disk ↔ OneName names :=
  ⟨Exact.oneName, fun h => h.exact disk⟩

def nameA : ProcessName := ⟨['a'], by decide, by decide, by decide, by decide⟩
def nameB : ProcessName := ⟨['b'], by decide, by decide, by decide, by decide⟩

/-- Of two names, the second is not found. -/
theorem not_always_exact : ¬ ∀ names disk, Exact names disk := by
  intro h
  obtain ⟨w, -, hall⟩ := (h [nameA, nameB] fun _ => []).oneName
  have hsame : nameA.chars = nameB.chars := (hall nameA (by simp)).trans (hall nameB (by simp)).symm
  exact absurd hsame (by decide)

end ComputerLock.Process
