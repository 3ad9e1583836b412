import ComputerLock.Trampoline.Hook

/-!
# Spellings of a name

The system takes names for the same that differ in letter case, or in dots and spaces behind the
last component. The hook compares the bytes of the caller's spelling, and an entry has no space.
-/

namespace ComputerLock.Trampoline
open Library Common

/-! ## The same file -/

/-- `.` and the space -/
def trailing : List UInt16 := [46, 32]

/-- `\`, `/` and `:` end a directory or a drive. -/
def separators : List UInt16 := [92, 47, 58]

def isTrailing (c : Char) : Bool := c == '.' || c == ' '
def isSeparator (c : Char) : Bool := c == '\\' || c == '/' || c == ':'

/-- `\\?\`: what follows is taken literally. -/
def verbatim : WString := [92, 92, 63, 92]

/-- The path ends in a component that neither a dot nor a space ends. -/
def EndsInName (stem : WString) : Prop :=
  ∃ r u, stem = r ++ [u] ∧ u ∉ trailing ∧ u ∉ separators

/-- `p` is the path with dots and spaces behind it. -/
structure Spells (p stem : WString) : Prop where
  name : EndsInName stem
  tail : ∃ tail, p = stem ++ tail ∧ ∀ u ∈ tail, u ∈ trailing

/-- Two spellings of the same name; `fold` gives the letters of both cases one form. -/
def Respelled (fold : UInt16 → UInt16) (p q : WString) : Prop :=
  ¬ verbatim <+: p ∧ ¬ verbatim <+: q ∧
    ∃ stem stem', Spells p stem ∧ Spells q stem' ∧ stem.map fold = stem'.map fold

/-- What `IsImportantFile` says of a name when the extensions file holds the text. -/
def verdict (name : WString) (t : List Char) : Bool := isImportant (encode name) (stored t)

/-- It is what the hook decides once it has opened the file. -/
theorem verdict_of_own_valid {c : HookedCall} (h : c.own ≠ invalidHandleValue) :
    c.verdict = verdict c.call.lpFileName c.text := by
  rw [HookedCall.verdict, if_neg h, verdict]

/-- All spellings of a name get the same verdict. -/
def Uniform (fold : UInt16 → UInt16) (t : List Char) : Prop :=
  ∀ p q, 0 ∉ p → 0 ∉ q → Respelled fold p q → verdict p t = verdict q t

/-- An entry that, without the dots at its end, ends a directory or a drive. -/
def Blunt (e : List Char) : Prop :=
  ∃ a c k, e = a ++ c :: List.replicate k '.' ∧ isSeparator c

/-- A line the hook sees is blank, or no line it sees can end a name. -/
def Indifferent (t : List Char) : Prop :=
  [] ∈ seen (stored t) ∨ ∀ e, Utf8.encode e ∈ seen (stored t) → Blunt e

theorem Spells.append_space {p stem : WString} (h : Spells p stem) : Spells (p ++ [32]) stem := by
  obtain ⟨tail, rfl, htail⟩ := h.tail
  refine ⟨h.name, tail ++ [32], List.append_assoc .., ?_⟩
  intro u hu
  rcases List.mem_append.mp hu with hu | hu
  · exact htail u hu
  · rw [List.mem_singleton.mp hu]
    decide

/-! ## Blunt entries end no name -/

/-- The last character that does not satisfy a predicate. -/
theorem dropWhile_reverse {P : Char → Bool} {xs ys : List Char} {c : Char} (hc : P c = false)
    (hys : ∀ y ∈ ys, P y) : (xs ++ c :: ys).reverse.dropWhile P = c :: xs.reverse := by
  have hrev : (xs ++ c :: ys).reverse = ys.reverse ++ c :: xs.reverse := by simp
  rw [hrev, List.dropWhile_append_of_pos (by simpa using hys),
    List.dropWhile_cons_of_neg (by simp [hc])]

theorem decode_tail {s tail : WString} (htail : ∀ u ∈ tail, u ∈ trailing) :
    ∃ cs, Utf16.decode (s ++ tail) = Utf16.decode s ++ cs ∧ ∀ c ∈ cs, isTrailing c := by
  induction tail generalizing s with
  | nil => exact ⟨[], by simp, by simp⟩
  | cons u tail ih =>
    obtain ⟨cs, hdecode, hcs⟩ := ih (s := s ++ [u]) fun v hv => htail v (by simp [hv])
    have hall : ∀ v ∈ trailing, Utf16.isLow v = false ∧ isTrailing (Utf16.single v) := by
      intro v hv
      rcases List.mem_pair.mp hv with rfl | rfl <;> decide
    have hu := hall u (htail u (by simp))
    refine ⟨Utf16.single u :: cs, ?_, List.forall_mem_cons.mpr ⟨hu.2, hcs⟩⟩
    rw [Utf16.decode_concat hu.1] at hdecode
    simpa using hdecode

/-- The last unit is trailing, or a separator, exactly when the last character is. -/
theorem last_mem_iff {r : WString} {u : UInt16} {t : List Char} {c : Char}
    (h : Utf16.decode (r ++ [u]) = t ++ [c]) :
    (u ∈ trailing ↔ isTrailing c) ∧ (u ∈ separators ↔ isSeparator c) := by
  obtain ⟨t', c', hdecode, hsame⟩ := Utf16.exists_decode_concat r u
  obtain ⟨-, rfl⟩ : t' = t ∧ c' = c := by
    have := List.append_inj' (hdecode.symm.trans h) rfl
    simpa using this
  have key : ∀ d : Char, d.toNat < 128 → (u = UInt16.ofNat d.toNat ↔ c' = d) := by
    intro d hd
    constructor
    · rintro rfl
      have hu : (UInt16.ofNat d.toNat).toNat = d.toNat := Utf16.toNat_ofNat (by omega)
      exact Char.toNat_inj.mp ((hsame (.inr (hu.symm ▸ hd))).trans hu)
    · rintro rfl
      rw [hsame (.inl hd), UInt16.ofNat_toNat]
  have hdot := key '.' (by decide)
  have hspace := key ' ' (by decide)
  have hback := key '\\' (by decide)
  have hslash := key '/' (by decide)
  have hcolon := key ':' (by decide)
  constructor
  · simpa [trailing, isTrailing] using or_congr hdot hspace
  · simpa [separators, isSeparator, or_assoc] using or_congr hback (or_congr hslash hcolon)

/-- A blunt entry is at the end of no spelling. -/
theorem Blunt.not_suffix {e : List Char} (h : Blunt e) {p stem : WString} (hp : Spells p stem) :
    ¬ e <:+ Utf16.decode p := by
  obtain ⟨a, c, k, rfl, hc⟩ := h
  obtain ⟨tail, rfl, htail⟩ := hp.tail
  obtain ⟨cs, hdecode, hcs⟩ := decode_tail (s := stem) htail
  obtain ⟨r, u, rfl, htrailing, hseparator⟩ := hp.name
  obtain ⟨t, d, hstem, -⟩ := Utf16.exists_decode_concat r u
  rw [(last_mem_iff hstem).1, Bool.not_eq_true] at htrailing
  rw [(last_mem_iff hstem).2, Bool.not_eq_true] at hseparator
  rintro ⟨b, hb⟩
  have hsplit : (b ++ a) ++ c :: List.replicate k '.' = t ++ d :: cs := by
    rw [hdecode, hstem] at hb
    simpa using hb
  have hnot : isTrailing c = false := by
    simp only [isSeparator, Bool.or_eq_true, beq_iff_eq] at hc
    rcases hc with (rfl | rfl) | rfl <;> rfl
  have hdots : ∀ y ∈ List.replicate k '.', isTrailing y := by
    intro y hy
    rw [(List.mem_replicate.mp hy).2]
    rfl
  have hlast := congrArg (·.reverse.dropWhile isTrailing) hsplit
  simp only [dropWhile_reverse hnot hdots, dropWhile_reverse htrailing hcs] at hlast
  obtain ⟨rfl, -⟩ := List.cons.inj hlast
  rw [hc] at hseparator
  cases hseparator

/-! ## Other entries end two spellings in two ways -/

/-- A text behind a letter ends in some character in front of its dots. -/
theorem exists_before_dots (e : List Char) :
    ∃ a c k, 'x' :: e = a ++ c :: List.replicate k '.' ∧ c ≠ '.' ∧ (c ∈ e ∨ c = 'x') := by
  induction e using List.reverseRecOn with
  | nil => exact ⟨[], 'x', 0, rfl, by decide, .inr rfl⟩
  | append_singleton e d ih =>
    by_cases hd : d = '.'
    · obtain ⟨a, c, k, heq, hc, hmem⟩ := ih
      refine ⟨a, c, k + 1, ?_, hc, hmem.imp_left (List.mem_append_left _)⟩
      rw [← List.cons_append, heq, List.replicate_succ', hd]
      simp
    · exact ⟨'x' :: e, d, 0, by simp, hd, .inl (by simp)⟩

/-- Behind a letter, an entry that is not blunt is a name. -/
theorem spells_of_not_blunt {e : List Char} (h : ¬ Blunt e) (hspace : ' ' ∉ e) :
    ∃ stem, Spells (Utf16.encode ('x' :: e)) stem := by
  obtain ⟨a, c, k, heq, hdot, hmem⟩ := exists_before_dots e
  have htrailing : isTrailing c = false := by
    have hc : c ≠ ' ' := by
      rintro rfl
      exact hmem.elim hspace (by decide)
    simp [isTrailing, hdot, hc]
  have hseparator : isSeparator c = false := by
    cases a with
    | nil =>
      obtain ⟨rfl, -⟩ := List.cons.inj heq
      rfl
    | cons d a =>
      obtain ⟨-, rfl⟩ := List.cons.inj heq
      exact Bool.eq_false_iff.mpr fun hc => h ⟨a, c, k, rfl, hc⟩
  have hne : Utf16.encode (a ++ [c]) ≠ [] := by
    intro hnil
    have := congrArg Utf16.decode hnil
    rw [Utf16.decode_encode] at this
    simp [Utf16.decode] at this
  refine ⟨Utf16.encode (a ++ [c]), ⟨?_, Utf16.encode (List.replicate k '.'), ?_, ?_⟩⟩
  · have hsplit := List.dropLast_append_getLast hne
    have hdecode : Utf16.decode ((Utf16.encode (a ++ [c])).dropLast ++
        [(Utf16.encode (a ++ [c])).getLast hne]) = a ++ [c] := by
      rw [hsplit, Utf16.decode_encode]
    refine ⟨_, _, hsplit.symm, ?_, ?_⟩
    · rw [(last_mem_iff hdecode).1, htrailing]
      exact Bool.false_ne_true
    · rw [(last_mem_iff hdecode).2, hseparator]
      exact Bool.false_ne_true
  · rw [heq, ← Utf16.encode_append]
    simp
  · intro u hu
    obtain ⟨d, hd, hu⟩ := List.mem_flatMap.mp hu
    rw [(List.mem_replicate.mp hd).2] at hu
    exact List.mem_cons.mpr (.inl (List.mem_singleton.mp hu))

section Verdict

variable {t : List Char}

theorem verdict_iff {name : WString} : verdict name t = true ↔
    ∃ v ∈ seen (stored t), v <:+ Utf8.encode (Utf16.decode name) := isImportant_iff ..

/-- No byte of an entry is white space. -/
theorem not_isspace_of_mem_seen {v : Bytes} {b : UInt8} (h : v ∈ seen (stored t)) (hb : b ∈ v) :
    CText.isspace b = false := by
  obtain ⟨w, -, rfl⟩ := List.mem_map.mp h
  simpa using (List.mem_filter.mp hb).2

/-- An entry that is not empty ends in no space. -/
theorem verdict_space (h : [] ∉ seen (stored t)) (p : WString) : verdict (p ++ [32]) t = false := by
  rw [Bool.eq_false_iff, Ne, verdict_iff]
  rintro ⟨v, hv, hsuffix⟩
  have hbytes : Utf8.encode (Utf16.decode (p ++ [32])) =
      Utf8.encode (Utf16.decode p) ++ [32] := by
    rw [Utf16.decode_concat (by decide), Utf8.encode_append]
    rfl
  rw [hbytes, List.suffix_concat_iff] at hsuffix
  rcases hsuffix with rfl | ⟨w, rfl, -⟩
  · exact h hv
  · have hspace := not_isspace_of_mem_seen hv (List.mem_append_right w (List.mem_singleton_self 32))
    exact absurd hspace (by decide)

/-- A spelling is let through when no entry can end a name. -/
theorem verdict_of_blunt (h : ∀ e, Utf8.encode e ∈ seen (stored t) → Blunt e) {p stem : WString}
    (hp : Spells p stem) : verdict p t = false := by
  rw [Bool.eq_false_iff, Ne, verdict_iff]
  rintro ⟨v, hv, hsuffix⟩
  obtain ⟨e, he, rfl⟩ := exists_text_of_seen_suffix hv hsuffix
  exact (h e hv).not_suffix hp he

/-- Behind a letter, an entry is blocked. -/
theorem verdict_behind_letter {e : List Char} (he : Utf8.encode e ∈ seen (stored t)) :
    verdict (Utf16.encode ('x' :: e)) t = true := by
  rw [verdict_iff, Utf16.decode_encode]
  exact ⟨_, he, Utf8.encode_suffix_iff.mpr (List.suffix_cons 'x' e)⟩

theorem nul_not_mem_behind_letter {e : List Char} (he : Utf8.encode e ∈ seen (stored t)) :
    (0 : UInt16) ∉ Utf16.encode ('x' :: e) := by
  intro hzero
  have := Utf16.zero_mem_encode.mp hzero
  exact (List.mem_cons.mp this).elim (by decide) (nul_not_mem_of_mem_seen he)

theorem space_not_mem {e : List Char} (he : Utf8.encode e ∈ seen (stored t)) : ' ' ∉ e := by
  intro hmem
  have hbyte : (32 : UInt8) ∈ Utf8.encode e := List.mem_flatMap.mpr ⟨' ', hmem, by decide⟩
  exact absurd (not_isspace_of_mem_seen he hbyte) (by decide)

/-- An entry that can end a name ends one spelling of it and not another. -/
theorem Uniform.indifferent {fold : UInt16 → UInt16} (h : Uniform fold t) : Indifferent t := by
  by_contra hnot
  simp only [Indifferent, not_or, not_forall] at hnot
  obtain ⟨hblank, e, he, hblunt⟩ := hnot
  obtain ⟨stem, hp⟩ := spells_of_not_blunt hblunt (space_not_mem he)
  have hx : Utf16.encode ('x' :: e) = 120 :: Utf16.encode e := rfl
  have hnul := nul_not_mem_behind_letter he
  have respelled : Respelled fold (Utf16.encode ('x' :: e)) (Utf16.encode ('x' :: e) ++ [32]) :=
    ⟨by simp [hx, verbatim], by simp [hx, verbatim], stem, stem, hp, hp.append_space, rfl⟩
  have same := h _ _ hnul (by simpa using hnul) respelled
  rw [verdict_behind_letter he, verdict_space hblank] at same
  cases same

theorem Indifferent.uniform (h : Indifferent t) (fold : UInt16 → UInt16) : Uniform fold t := by
  rintro p q - - ⟨-, -, stem, stem', hp, hq, -⟩
  rcases h with hblank | hblunt
  · have blocked : ∀ name, verdict name t = true := fun name =>
      verdict_iff.mpr ⟨[], hblank, List.nil_suffix⟩
    rw [blocked p, blocked q]
  · rw [verdict_of_blunt hblunt hp, verdict_of_blunt hblunt hq]

end Verdict

/-- All spellings of a name get the same verdict exactly when a blank line blocks every name or
no line the hook sees can end a name. -/
theorem uniform_iff (fold : UInt16 → UInt16) (t : List Char) : Uniform fold t ↔ Indifferent t :=
  ⟨Uniform.indifferent, fun h => h.uniform fold⟩

/-- The entry `.t` blocks `x.t`, and not `x.t` with a space behind it. -/
theorem not_always_uniform : ¬ ∀ fold t, Uniform fold t := by
  intro h
  have hseen : seen (stored ['.', 't']) = [Utf8.encode ['.', 't']] := by
    rw [seen_of_fits (by decide) (by decide)]
    decide
  rcases (h id ['.', 't']).indifferent with hblank | hblunt
  · rw [hseen] at hblank
    exact absurd hblank (by decide)
  · obtain ⟨a, c, k, heq, hc⟩ := hblunt ['.', 't'] (by simp [hseen])
    have hlast := congrArg List.getLast? heq
    cases k with
    | zero =>
      obtain rfl : 't' = c := by simpa using hlast
      cases hc
    | succ k =>
      rw [List.replicate_succ', ← List.cons_append, ← List.append_assoc,
        List.getLast?_concat] at hlast
      exact absurd hlast (by decide)

end ComputerLock.Trampoline
