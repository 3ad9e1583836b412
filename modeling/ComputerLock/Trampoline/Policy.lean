import ComputerLock.CommonTools

/-!
# Which files are blocked

The hook reads the beginning of the extensions file into a buffer, takes it for a C string,
splits it into lines, erases white space, and compares each entry with the end of the path.
-/

namespace ComputerLock.Trampoline
open Library Common

/-! ## The decision -/

def fileDataBufferLength : ℕ := 10240

/-- `std::equal(ending.rbegin(), ending.rend(), value.rbegin())` behind a check of sizes. -/
def endsWith (value ending : Bytes) : Bool :=
  if ending.length > value.length then false
  else ending.reverse == value.reverse.take ending.length

/-- The loop over `extensions`. -/
def importantLoop (filePath : Bytes) : List Bytes → Bool
  | [] => false
  | e :: extensions =>
    let e := e.filter (! CText.isspace ·)
    if endsWith filePath e then true else importantLoop filePath extensions

/-- `IsImportant` once the settings file has been read. -/
def isImportant (filePath file : Bytes) : Bool :=
  let fileDataBuffer := file.take (fileDataBufferLength - 1)
  let importantSettings := CText.cStr fileDataBuffer
  importantLoop filePath (split importantSettings settingsDelimiter)

theorem endsWith_iff (value ending : Bytes) : endsWith value ending = true ↔ ending <:+ value := by
  rw [endsWith, ← List.reverse_prefix, List.prefix_iff_eq_take, List.length_reverse]
  by_cases h : ending.length > value.length
  · have hne : ending.reverse ≠ value.reverse.take ending.length := fun heq => by
      have := congrArg List.length heq
      simp at this
      omega
    simp [h, hne]
  · simp [h]

theorem importantLoop_iff (filePath : Bytes) (extensions : List Bytes) :
    importantLoop filePath extensions = true ↔
      ∃ e ∈ extensions, e.filter (! CText.isspace ·) <:+ filePath := by
  induction extensions with
  | nil => simp [importantLoop]
  | cons e extensions ih =>
    rw [List.exists_mem_cons_iff, ← ih, ← endsWith_iff, importantLoop]
    cases endsWith filePath (e.filter (! CText.isspace ·)) <;> simp

/-- The entries the hook sees in a file. -/
def seen (file : Bytes) : List Bytes :=
  (Delimited.fields settingsDelimiter
    (CText.cStr (file.take (fileDataBufferLength - 1)))).map (·.filter (! CText.isspace ·))

theorem isImportant_iff (filePath file : Bytes) :
    isImportant filePath file = true ↔ ∃ v ∈ seen file, v <:+ filePath := by
  rw [isImportant, importantLoop_iff, split_eq_fields]
  simp [seen]

/-! ## What a text asks for -/

def nul : Char := Char.ofNat 0

/-- The lines of a text without their white space. -/
def strippedLines (t : List Char) : List (List Char) :=
  (Delimited.fields '\n' t).map (·.filter (! isSpace ·))

/-- The lines that have more than white space. -/
def entries (t : List Char) : List (List Char) := (strippedLines t).filter (· ≠ [])

/-- `e` is a suffix of `p` when letter case and dots and spaces at the end of `p` are
ignored. -/
def MatchesIgnoring (fold : Char → Char) (e p : List Char) : Prop :=
  ∃ q tail, p = q ++ tail ∧ (∀ c ∈ tail, c = '.' ∨ c = ' ') ∧ e.map fold <:+ q.map fold

/-- The file on disk after `RewriteFile`. -/
def stored (t : List Char) : Bytes := CText.writeText (Utf8.encode t)

/-- Every path that ends in an entry is blocked, and no path is that matches none. -/
structure Enforced (fold : Char → Char) (t : List Char) : Prop where
  blocked : ∀ p, nul ∉ p → (∃ e ∈ entries t, e <:+ p) →
    isImportant (Utf8.encode p) (stored t) = true
  passed : ∀ p, nul ∉ p → (∀ e ∈ entries t, ¬ MatchesIgnoring fold e p) →
    isImportant (Utf8.encode p) (stored t) = false

/-- No line the hook sees is blank; an entry it does not see ends in one that it sees; and
what the end of the buffer leaves of a line is matched by an entry. -/
structure Visible (fold : Char → Char) (t : List Char) : Prop where
  no_blank : [] ∉ seen (stored t)
  covered : ∀ e ∈ entries t, nul ∉ e → ∃ v ∈ seen (stored t), v <:+ Utf8.encode e
  cut : ∀ q, Utf8.encode q ∈ seen (stored t) → q ≠ [] → q ∉ entries t →
    ∃ e ∈ entries t, MatchesIgnoring fold e q

/-! ## What the hook sees of a text -/

theorem newline_not_mem_utf8EncodeChar {c : Char} (h : c ≠ '\n') :
    CText.newline ∉ String.utf8EncodeChar c := fun hmem =>
  h (Char.toNat_inj.mp (Utf8.toNat_of_mem_utf8EncodeChar (by decide) hmem))

theorem fields_encode (t : List Char) :
    Delimited.fields settingsDelimiter (Utf8.encode t) =
      (Delimited.fields '\n' t).map Utf8.encode :=
  Delimited.fields_flatMap (by decide)
    (fun _ hc => ⟨newline_not_mem_utf8EncodeChar hc, by simp⟩) t

/-- On disk the lines differ from those of the text by white space only. -/
theorem fields_stored (t : List Char) :
    (Delimited.fields settingsDelimiter (stored t)).map (·.filter (! CText.isspace ·)) =
      (strippedLines t).map Utf8.encode := by
  rw [stored, settingsDelimiter, CText.map_filter_fields_writeText (by decide),
    ← settingsDelimiter, fields_encode, strippedLines, List.map_map, List.map_map]
  exact List.map_congr_left fun l _ => Utf8.filter_not_encode (fun _ => CText.isspace_of_le) l

theorem exists_prefix_of_mem_seen {t : List Char} {v : Bytes} (h : v ∈ seen (stored t)) :
    ∃ l ∈ strippedLines t, v <+: Utf8.encode l := by
  obtain ⟨w, hw, rfl⟩ := List.mem_map.mp h
  have hp : CText.cStr ((stored t).take (fileDataBufferLength - 1)) <+: stored t :=
    (CText.cStr_prefix _).trans (List.take_prefix _ _)
  obtain ⟨f, hf, hwf⟩ := Delimited.exists_prefix_of_mem_fields hp hw
  have hmem : f.filter (! CText.isspace ·) ∈ (strippedLines t).map Utf8.encode := by
    rw [← fields_stored]
    exact List.mem_map_of_mem hf
  obtain ⟨l, hl, heq⟩ := List.mem_map.mp hmem
  exact ⟨l, hl, heq ▸ hwf.filter _⟩

/-- An entry the hook sees starts with a whole character, so where it is a suffix of a path
it is itself a text. -/
theorem exists_text_of_seen_suffix {t p : List Char} {v : Bytes} (h : v ∈ seen (stored t))
    (hv : v <:+ Utf8.encode p) : ∃ q, q <:+ p ∧ v = Utf8.encode q := by
  obtain ⟨l, -, hl⟩ := exists_prefix_of_mem_seen h
  exact Utf8.exists_of_suffix hv ((Utf8.atBoundary_encode l).mono hl)

theorem nul_not_mem_of_mem_seen {t q : List Char} (h : Utf8.encode q ∈ seen (stored t)) :
    nul ∉ q := by
  intro hq
  obtain ⟨w, hw, heq⟩ := List.mem_map.mp h
  have hmem : CText.nul ∈ Utf8.encode q := List.mem_flatMap.mpr ⟨nul, hq, by decide⟩
  rw [← heq] at hmem
  exact CText.nul_not_mem_cStr _ (Delimited.mem_of_mem_fields hw (List.mem_of_mem_filter hmem))

/-! ## When a text is enforced -/

theorem MatchesIgnoring.of_suffix {fold : Char → Char} {e q p : List Char}
    (h : MatchesIgnoring fold e q) (hp : q <:+ p) : MatchesIgnoring fold e p := by
  obtain ⟨r, rfl⟩ := hp
  obtain ⟨q', tail, rfl, htail, hsuffix⟩ := h
  refine ⟨r ++ q', tail, by simp, htail, ?_⟩
  rw [List.map_append]
  exact hsuffix.trans (List.suffix_append _ _)

theorem MatchesIgnoring.refl (fold : Char → Char) (e : List Char) : MatchesIgnoring fold e e :=
  ⟨e, [], by simp, by simp, List.suffix_rfl⟩

theorem not_matchesIgnoring_nil {fold : Char → Char} {e : List Char} (h : e ≠ []) :
    ¬ MatchesIgnoring fold e [] := by
  rintro ⟨q, tail, heq, -, hsuffix⟩
  obtain ⟨rfl, -⟩ := List.append_eq_nil_iff.mp heq.symm
  exact h (by simpa using hsuffix)

theorem Enforced.visible {fold : Char → Char} {t : List Char} (h : Enforced fold t) :
    Visible fold t := by
  have matched : ∀ q, Utf8.encode q ∈ seen (stored t) →
      ∃ e ∈ entries t, MatchesIgnoring fold e q := by
    intro q hq
    by_contra hnone
    have hpass := h.passed q (nul_not_mem_of_mem_seen hq) fun e he hm => hnone ⟨e, he, hm⟩
    rw [(isImportant_iff ..).mpr ⟨_, hq, List.suffix_rfl⟩] at hpass
    cases hpass
  refine ⟨fun hnil => ?_, fun e he hnul => ?_, fun q hq _ _ => matched q hq⟩
  · obtain ⟨e, he, hm⟩ := matched [] hnil
    exact not_matchesIgnoring_nil (by simpa using (List.mem_filter.mp he).2) hm
  · exact (isImportant_iff ..).mp (h.blocked e hnul ⟨e, he, List.suffix_rfl⟩)

theorem Visible.enforced {fold : Char → Char} {t : List Char} (h : Visible fold t) :
    Enforced fold t := by
  constructor
  · rintro p hp ⟨e, he, hep⟩
    have hnul : nul ∉ e := fun hmem => hp (hep.subset hmem)
    obtain ⟨v, hv, hve⟩ := h.covered e he hnul
    exact (isImportant_iff ..).mpr ⟨v, hv, hve.trans (Utf8.encode_suffix_iff.mpr hep)⟩
  · intro p hp hnone
    by_contra hblocked
    obtain ⟨v, hv, hvp⟩ := (isImportant_iff ..).mp (by simpa using hblocked)
    obtain ⟨q, hqp, rfl⟩ := exists_text_of_seen_suffix hv hvp
    have hne : q ≠ [] := fun hnil => h.no_blank (by simpa [hnil] using hv)
    by_cases hq : q ∈ entries t
    · exact hnone q hq ((MatchesIgnoring.refl fold q).of_suffix hqp)
    · obtain ⟨e, he, hm⟩ := h.cut q hv hne hq
      exact hnone e he (hm.of_suffix hqp)

/-! ## Texts that fit -/

theorem nul_not_mem_encode {t : List Char} (h : nul ∉ t) : CText.nul ∉ Utf8.encode t := by
  intro hmem
  obtain ⟨c, hc, hb⟩ := List.mem_flatMap.mp hmem
  have hzero : c = nul := Char.toNat_inj.mp (Utf8.toNat_of_mem_utf8EncodeChar (by decide) hb)
  exact h (hzero ▸ hc)

/-- Of a text that fits the buffer and has no zero character, the hook sees every line. -/
theorem seen_of_fits {t : List Char} (hfit : (stored t).length ≤ fileDataBufferLength - 1)
    (hnul : nul ∉ t) : seen (stored t) = (strippedLines t).map Utf8.encode := by
  have hstored : CText.nul ∉ stored t := fun h =>
    nul_not_mem_encode hnul ((CText.mem_writeText (by decide)).mp h)
  rw [seen, List.take_of_length_le hfit, CText.cStr_of_not_mem hstored, fields_stored]

/-- Such a text is visible exactly when no line of it is blank. -/
theorem visible_iff_of_fits {t : List Char} (fold : Char → Char)
    (hfit : (stored t).length ≤ fileDataBufferLength - 1) (hnul : nul ∉ t) :
    Visible fold t ↔ [] ∉ strippedLines t := by
  have hseen : ∀ q, Utf8.encode q ∈ seen (stored t) ↔ q ∈ strippedLines t := fun q => by
    rw [seen_of_fits hfit hnul, List.mem_map_of_injective Utf8.encode_injective]
  refine ⟨fun h hnil => h.no_blank ((hseen []).mpr hnil), fun h => ⟨?_, ?_, ?_⟩⟩
  · exact fun hnil => h ((hseen []).mp hnil)
  · exact fun e he _ => ⟨_, (hseen e).mpr (List.mem_of_mem_filter he), List.suffix_rfl⟩
  · intro q hq hne hnot
    exact absurd (List.mem_filter.mpr ⟨(hseen q).mp hq, by simpa using hne⟩) hnot

/-! ## All texts -/

/-- A text is enforced exactly when none of the lines the hook sees is blank and the cut at
the end of the buffer neither hides an entry nor leaves a stray one. -/
theorem enforced_iff (fold : Char → Char) (t : List Char) : Enforced fold t ↔ Visible fold t :=
  ⟨Enforced.visible, Visible.enforced⟩

/-- A blank line is a suffix of every path. -/
theorem not_always_enforced : ¬ ∀ fold t, Enforced fold t := by
  intro h
  have hvisible := (h id ['\n']).visible
  rw [visible_iff_of_fits id (by decide) (by decide)] at hvisible
  exact hvisible (by decide)

end ComputerLock.Trampoline
