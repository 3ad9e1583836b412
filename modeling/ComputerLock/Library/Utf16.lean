import Mathlib.Data.Nat.Basic
import Mathlib.Tactic.SplitIfs

/-!
# UTF-16 texts as lists of code units

`encode` writes a character outside the basic plane as a surrogate pair. `decode` is total:
a surrogate without its partner stands for the replacement character.
-/

namespace Library.Utf16

/-- The code units of one character. -/
def encodeChar (c : Char) : List UInt16 :=
  if c.toNat < 0x10000 then [UInt16.ofNat c.toNat]
  else [UInt16.ofNat (0xD800 + (c.toNat - 0x10000) / 0x400),
    UInt16.ofNat (0xDC00 + (c.toNat - 0x10000) % 0x400)]

/-- The code units of a text. -/
def encode (s : List Char) : List UInt16 := s.flatMap encodeChar

def isHigh (u : UInt16) : Bool := 0xD800 ≤ u.toNat && u.toNat < 0xDC00
def isLow (u : UInt16) : Bool := 0xDC00 ≤ u.toNat && u.toNat < 0xE000

/-- A unit outside a surrogate pair. -/
def single (u : UInt16) : Char :=
  if isHigh u || isLow u then Char.ofNat 0xFFFD else Char.ofNat u.toNat

/-- The character of a surrogate pair. -/
def pair (u v : UInt16) : Char :=
  Char.ofNat (0x10000 + (u.toNat - 0xD800) * 0x400 + (v.toNat - 0xDC00))

/-- The characters of a list of units. -/
def decode : List UInt16 → List Char
  | [] => []
  | [u] => [single u]
  | u :: v :: s => if isHigh u && isLow v then pair u v :: decode s
    else single u :: decode (v :: s)

@[simp] theorem encode_nil : encode [] = [] := rfl

@[simp] theorem encode_cons (c : Char) (s : List Char) :
    encode (c :: s) = encodeChar c ++ encode s := rfl

@[simp] theorem encode_append (s t : List Char) : encode (s ++ t) = encode s ++ encode t :=
  List.flatMap_append

theorem decode_cons {u : UInt16} (h : isHigh u = false) (s : List UInt16) :
    decode (u :: s) = single u :: decode s := by
  cases s <;> simp [decode, h]

/-- A character is no surrogate. -/
theorem not_surrogate (c : Char) : c.toNat < 0xD800 ∨ 0xE000 ≤ c.toNat ∧ c.toNat < 0x110000 := by
  rcases c.valid with h | h
  · exact .inl h
  · exact .inr ⟨h.1, h.2⟩

theorem toNat_ofNat {n : ℕ} (h : n < 0x10000) : (UInt16.ofNat n).toNat = n :=
  UInt16.toNat_ofNat_of_lt' h

theorem decode_encodeChar_append (c : Char) (s : List UInt16) :
    decode (encodeChar c ++ s) = c :: decode s := by
  have hc := not_surrogate c
  unfold encodeChar
  split_ifs with hlt
  · have hhigh : isHigh (UInt16.ofNat c.toNat) = false := by
      simp only [isHigh, toNat_ofNat hlt, Bool.and_eq_false_iff, decide_eq_false_iff_not]
      omega
    have hlow : isLow (UInt16.ofNat c.toNat) = false := by
      simp only [isLow, toNat_ofNat hlt, Bool.and_eq_false_iff, decide_eq_false_iff_not]
      omega
    rw [List.singleton_append, decode_cons hhigh, single, hhigh, hlow, toNat_ofNat hlt]
    simp
  · have hu := toNat_ofNat (n := 0xD800 + (c.toNat - 0x10000) / 0x400) (by omega)
    have hv := toNat_ofNat (n := 0xDC00 + (c.toNat - 0x10000) % 0x400) (by omega)
    have hpair : isHigh (UInt16.ofNat (0xD800 + (c.toNat - 0x10000) / 0x400)) &&
        isLow (UInt16.ofNat (0xDC00 + (c.toNat - 0x10000) % 0x400)) := by
      simp only [isHigh, isLow, hu, hv, Bool.and_eq_true, decide_eq_true_eq]
      omega
    have hval : 0x10000 + (0xD800 + (c.toNat - 0x10000) / 0x400 - 0xD800) * 0x400 +
        (0xDC00 + (c.toNat - 0x10000) % 0x400 - 0xDC00) = c.toNat := by omega
    rw [List.cons_append, List.singleton_append, decode, if_pos hpair, pair, hu, hv, hval,
      Char.ofNat_toNat]

@[simp] theorem decode_encode (s : List Char) : decode (encode s) = s := by
  induction s with
  | nil => rfl
  | cons c s ih => rw [encode_cons, decode_encodeChar_append, ih]

theorem encode_injective : Function.Injective encode :=
  Function.LeftInverse.injective decode_encode

/-- The zero unit stands for the zero character only. -/
theorem zero_mem_encode {s : List Char} : 0 ∈ encode s ↔ Char.ofNat 0 ∈ s := by
  simp only [encode, List.mem_flatMap]
  constructor
  · rintro ⟨c, hc, h⟩
    have hbound := not_surrogate c
    have hzero : ∀ n, n < 0x10000 → (0 : UInt16) = UInt16.ofNat n → n = 0 := fun n hn e => by
      simpa [toNat_ofNat hn] using (congrArg UInt16.toNat e).symm
    unfold encodeChar at h
    split_ifs at h with hlt
    · have := hzero _ hlt (List.mem_singleton.mp h)
      rwa [← this, Char.ofNat_toNat]
    · simp only [List.mem_cons, List.not_mem_nil, or_false] at h
      rcases h with h | h <;> have := hzero _ (by omega) h <;> omega
  · exact fun h => ⟨_, h, by decide⟩

/-! ## Zero -/

theorem toNat_charOfNat {n : ℕ} (h : n.isValidChar) : (Char.ofNat n).toNat = n := by
  rw [Char.ofNat, dif_pos h]
  rfl

theorem toNat_single (u : UInt16) :
    (single u).toNat = if isHigh u || isLow u then 0xFFFD else u.toNat := by
  unfold single
  split_ifs with hs
  · rfl
  · have hvalid : u.toNat.isValidChar := by
      have := u.toNat_lt
      simp only [isHigh, isLow, Bool.or_eq_true, Bool.and_eq_true, decide_eq_true_eq] at hs
      simp only [Nat.isValidChar]
      omega
    exact toNat_charOfNat hvalid

theorem toNat_pair {u v : UInt16} (hu : isHigh u = true) (hv : isLow v = true) :
    (pair u v).toNat = 0x10000 + (u.toNat - 0xD800) * 0x400 + (v.toNat - 0xDC00) := by
  simp only [isHigh, isLow, Bool.and_eq_true, decide_eq_true_eq] at hu hv
  apply toNat_charOfNat
  simp only [Nat.isValidChar]
  omega

theorem single_ne_nul {u : UInt16} (h : u ≠ 0) : single u ≠ Char.ofNat 0 := by
  intro heq
  have hn := congrArg Char.toNat heq
  have hu : u.toNat ≠ 0 := fun h0 => h (UInt16.toNat_inj.mp h0)
  have hzero : (Char.ofNat 0).toNat = 0 := rfl
  rw [toNat_single, hzero] at hn
  split_ifs at hn
  exact hu hn

theorem pair_ne_nul {u v : UInt16} (hu : isHigh u = true) (hv : isLow v = true) :
    pair u v ≠ Char.ofNat 0 := by
  intro heq
  have hn := congrArg Char.toNat heq
  have hzero : (Char.ofNat 0).toNat = 0 := rfl
  rw [toNat_pair hu hv, hzero] at hn
  omega

/-- Units without a zero give characters without a zero. -/
theorem nul_not_mem_decode {s : List UInt16} (h : 0 ∉ s) : Char.ofNat 0 ∉ decode s := by
  induction s using decode.induct with
  | case1 => simp [decode]
  | case2 u =>
    have := single_ne_nul (u := u) (fun h0 => h (by simp [h0]))
    simpa [decode] using this.symm
  | case3 u v s hp ih =>
    rw [decode, if_pos hp]
    simp only [Bool.and_eq_true] at hp
    exact List.not_mem_cons_of_ne_of_not_mem (pair_ne_nul hp.1 hp.2).symm
      (ih fun hs => h (by simp [hs]))
  | case4 u v s hp ih =>
    rw [decode, if_neg hp]
    exact List.not_mem_cons_of_ne_of_not_mem (single_ne_nul fun h0 => h (by simp [h0])).symm
      (ih fun hs => h (List.mem_cons_of_mem u hs))

/-! ## Well-formed lists of units -/

/-- Every surrogate belongs to a pair. -/
def WellFormed : List UInt16 → Prop
  | [] => True
  | [u] => isHigh u = false ∧ isLow u = false
  | u :: v :: s => if isHigh u && isLow v then WellFormed s
    else (isHigh u = false ∧ isLow u = false) ∧ WellFormed (v :: s)

instance decidableWellFormed : (s : List UInt16) → Decidable (WellFormed s)
  | [] => inferInstanceAs (Decidable True)
  | [u] => inferInstanceAs (Decidable (isHigh u = false ∧ isLow u = false))
  | u :: v :: s =>
    have := decidableWellFormed s
    have := decidableWellFormed (v :: s)
    inferInstanceAs (Decidable (if isHigh u && isLow v then WellFormed s
      else (isHigh u = false ∧ isLow u = false) ∧ WellFormed (v :: s)))

theorem encodeChar_single {u : UInt16} (hhigh : isHigh u = false) (hlow : isLow u = false) :
    encodeChar (single u) = [u] := by
  have hu : (single u).toNat = u.toNat := by simp [toNat_single, hhigh, hlow]
  have hlt : (single u).toNat < 0x10000 := hu ▸ u.toNat_lt
  rw [encodeChar, if_pos hlt, hu, UInt16.ofNat_toNat]

theorem encodeChar_pair {u v : UInt16} (hu : isHigh u = true) (hv : isLow v = true) :
    encodeChar (pair u v) = [u, v] := by
  have hpair := toNat_pair hu hv
  simp only [isHigh, isLow, Bool.and_eq_true, decide_eq_true_eq] at hu hv
  have hlt : ¬ (pair u v).toNat < 0x10000 := by omega
  have hfirst : 0xD800 + ((pair u v).toNat - 0x10000) / 0x400 = u.toNat := by omega
  have hsecond : 0xDC00 + ((pair u v).toNat - 0x10000) % 0x400 = v.toNat := by omega
  rw [encodeChar, if_neg hlt, hfirst, hsecond, UInt16.ofNat_toNat, UInt16.ofNat_toNat]

/-- Well-formed units are those of the characters they are decoded to. -/
theorem encode_decode {s : List UInt16} (h : WellFormed s) : encode (decode s) = s := by
  fun_induction decode s with
  | case1 => rfl
  | case2 u => rw [encode_cons, encodeChar_single h.1 h.2, encode_nil, List.append_nil]
  | case3 u v s hp ih =>
    rw [WellFormed, if_pos hp] at h
    simp only [Bool.and_eq_true] at hp
    rw [encode_cons, encodeChar_pair hp.1 hp.2, ih h]
    rfl
  | case4 u v s hp ih =>
    rw [WellFormed, if_neg hp] at h
    rw [encode_cons, encodeChar_single h.1.1 h.1.2, ih h.2]
    rfl

/-! ## The end of a list of units -/

/-- A unit that is no low surrogate starts a character of its own. -/
theorem decode_concat {u : UInt16} (h : isLow u = false) (s : List UInt16) :
    decode (s ++ [u]) = decode s ++ [single u] := by
  induction s using decode.induct with
  | case1 => rfl
  | case2 x => simp [decode, h]
  | case3 x y s hp ih => simp [decode, hp, ih]
  | case4 x y s hp ih =>
    have hcons : decode (x :: y :: (s ++ [u])) = single x :: decode (y :: (s ++ [u])) := by
      rw [decode, if_neg hp]
    simp only [List.cons_append] at ih ⊢
    rw [hcons, ih, decode, if_neg hp, List.cons_append]

/-- A low surrogate ends a character outside ASCII, alone or not. -/
theorem exists_decode_concat_low {u : UInt16} (h : isLow u = true) (s : List UInt16) :
    ∃ t c, decode (s ++ [u]) = t ++ [c] ∧ 128 ≤ c.toNat := by
  have hsingle : 128 ≤ (single u).toNat := by
    rw [toNat_single, h, Bool.or_true, if_pos rfl]
    decide
  induction s using decode.induct with
  | case1 => exact ⟨[], _, rfl, hsingle⟩
  | case2 x =>
    by_cases hx : isHigh x = true
    · refine ⟨[], pair x u, by simp [decode, hx, h], ?_⟩
      rw [toNat_pair hx h]
      omega
    · exact ⟨[single x], _, by simp [decode, hx], hsingle⟩
  | case3 x y s hp ih =>
    obtain ⟨t, c, hdecode, hc⟩ := ih
    exact ⟨pair x y :: t, c, by simp [decode, hp, hdecode], hc⟩
  | case4 x y s hp ih =>
    obtain ⟨t, c, hdecode, hc⟩ := ih
    refine ⟨single x :: t, c, ?_, hc⟩
    simp only [List.cons_append] at hdecode ⊢
    rw [decode, if_neg hp, hdecode]

/-- The last character is ASCII exactly when the last unit is, and then it is the same. -/
theorem exists_decode_concat (s : List UInt16) (u : UInt16) :
    ∃ t c, decode (s ++ [u]) = t ++ [c] ∧
      (c.toNat < 128 ∨ u.toNat < 128 → c.toNat = u.toNat) := by
  cases hlow : isLow u with
  | true =>
    obtain ⟨t, c, hdecode, hc⟩ := exists_decode_concat_low hlow s
    refine ⟨t, c, hdecode, fun hascii => ?_⟩
    simp only [isLow, Bool.and_eq_true, decide_eq_true_eq] at hlow
    omega
  | false =>
    refine ⟨decode s, single u, decode_concat hlow s, fun hascii => ?_⟩
    rw [toNat_single, hlow, Bool.or_false] at hascii ⊢
    split_ifs at hascii ⊢ with hhigh
    · simp only [isHigh, Bool.and_eq_true, decide_eq_true_eq] at hhigh
      omega
    · rfl

end Library.Utf16
