import Mathlib.Data.List.Infix
import Mathlib.Data.List.TakeWhile
import ComputerLock.Library.Delimited

/-!
# UTF-8 texts as byte lists

`encode` concatenates the UTF-8 form of every character. The first byte of a character
can be told from the bytes inside one, so a suffix of an encoded text that starts with a
first byte is itself the encoding of a suffix. Bytes below 128 stand for one character
each, so a predicate that holds of ASCII bytes only can be evaluated on either side.
-/

namespace Library.Utf8

/-! ## Block codes

A code sends each symbol to a non-empty block. A predicate on the output agrees with one
on the input when it is constant on each block. -/

section Blocks

variable {α β : Type*} {f : α → List β} {p : β → Bool} {q : α → Bool}

theorem filter_flatMap (agree : ∀ a, ∀ b ∈ f a, p b = q a) (s : List α) :
    (s.flatMap f).filter p = (s.filter q).flatMap f := by
  induction s with
  | nil => rfl
  | cons a s ih =>
    rw [List.flatMap_cons, List.filter_append, ih]
    cases hq : q a with
    | true =>
      have : (f a).filter p = f a :=
        List.filter_eq_self.mpr fun b hb => (agree a b hb).trans hq
      rw [this, List.filter_cons_of_pos hq, List.flatMap_cons]
    | false =>
      have : (f a).filter p = [] :=
        List.filter_eq_nil_iff.mpr fun b hb => by simp [agree a b hb, hq]
      rw [this, List.filter_cons_of_neg (by simp [hq]), List.nil_append]

theorem takeWhile_flatMap (agree : ∀ a, ∀ b ∈ f a, p b = q a) (block : ∀ a, f a ≠ [])
    (s : List α) : (s.flatMap f).takeWhile p = (s.takeWhile q).flatMap f := by
  induction s with
  | nil => rfl
  | cons a s ih =>
    cases hq : q a with
    | true =>
      rw [List.flatMap_cons, List.takeWhile_append_of_pos fun b hb => (agree a b hb).trans hq,
        ih, List.takeWhile_cons_of_pos hq, List.flatMap_cons]
    | false =>
      obtain ⟨b, t, hb⟩ := List.exists_cons_of_ne_nil (block a)
      have hp : p b = false := (agree a b (by simp [hb])).trans hq
      simp [hb, hp, hq]

theorem dropWhile_flatMap (agree : ∀ a, ∀ b ∈ f a, p b = q a) (block : ∀ a, f a ≠ [])
    (s : List α) : (s.flatMap f).dropWhile p = (s.dropWhile q).flatMap f := by
  induction s with
  | nil => rfl
  | cons a s ih =>
    cases hq : q a with
    | true =>
      rw [List.flatMap_cons, List.dropWhile_append_of_pos fun b hb => (agree a b hb).trans hq,
        ih, List.dropWhile_cons_of_pos hq]
    | false =>
      obtain ⟨b, t, hb⟩ := List.exists_cons_of_ne_nil (block a)
      have hp : p b = false := (agree a b (by simp [hb])).trans hq
      simp [hb, hp, hq]

end Blocks

/-! ## Encoding -/

/-- The UTF-8 bytes of a text. -/
def encode (s : List Char) : List UInt8 := s.flatMap String.utf8EncodeChar

@[simp] theorem encode_nil : encode [] = [] := rfl

@[simp] theorem encode_cons (c : Char) (s : List Char) :
    encode (c :: s) = String.utf8EncodeChar c ++ encode s := rfl

@[simp] theorem encode_append (s t : List Char) : encode (s ++ t) = encode s ++ encode t :=
  List.flatMap_append

/-- The text of a well-formed byte list. -/
def decode (bs : List UInt8) : Option (List Char) :=
  bs.toByteArray.utf8Decode?.map Array.toList

@[simp] theorem decode_encode (s : List Char) : decode (encode s) = some s := by
  have : (encode s).toByteArray = s.utf8Encode := rfl
  simp [decode, this]

theorem encode_injective : Function.Injective encode := fun s t h =>
  Option.some.inj (by rw [← decode_encode s, h, decode_encode])

@[simp] theorem encode_eq_nil {s : List Char} : encode s = [] ↔ s = [] :=
  encode_injective.eq_iff' rfl

/-! ## Character boundaries -/

/-- A byte list that is empty or starts with the first byte of a character. -/
def AtBoundary (bs : List UInt8) : Prop := ∀ b, bs.head? = some b → b.IsUTF8FirstByte

theorem atBoundary_encode_append (c : Char) (bs : List UInt8) :
    AtBoundary (String.utf8EncodeChar c ++ bs) := by
  have hpos : 0 < (String.utf8EncodeChar c).length := by
    simpa using c.utf8Size_pos
  intro b hb
  rw [List.head?_append_of_ne_nil _ (by simp), List.head?_eq_getElem?,
    List.getElem?_eq_getElem hpos, Option.some.injEq] at hb
  exact hb ▸ UInt8.isUTF8FirstByte_getElem_utf8EncodeChar.mpr rfl

theorem atBoundary_encode (s : List Char) : AtBoundary (encode s) := by
  cases s with
  | nil => simp [AtBoundary]
  | cons c s => exact atBoundary_encode_append c _

theorem AtBoundary.mono {as bs : List UInt8} (h : AtBoundary bs) (hp : as <+: bs) :
    AtBoundary as := by
  obtain ⟨t, rfl⟩ := hp
  cases as with
  | nil => simp [AtBoundary]
  | cons a as => exact fun b hb => h b (by simpa using hb)

/-- What is left of a character behind its first byte does not look like the start of one. -/
theorem not_atBoundary_of_suffix {c : Char} {pre rest : List UInt8}
    (h : String.utf8EncodeChar c = pre ++ rest) (hp : pre ≠ []) (hr : rest ≠ []) :
    ¬ AtBoundary rest := by
  obtain ⟨b, t, rfl⟩ := List.exists_cons_of_ne_nil hr
  have hlt : pre.length < (String.utf8EncodeChar c).length := by simp [h]
  have hb : (String.utf8EncodeChar c)[pre.length] = b := by simp [h]
  intro hat
  have h0 := UInt8.isUTF8FirstByte_getElem_utf8EncodeChar.mp (hb ▸ hat b rfl)
  exact hp (List.length_eq_zero_iff.mp h0)

/-- Self-synchronisation: a suffix that starts at a boundary encodes a suffix of the text. -/
theorem exists_of_suffix {bs : List UInt8} {s : List Char} (h : bs <:+ encode s)
    (hb : AtBoundary bs) : ∃ t, t <:+ s ∧ bs = encode t := by
  induction s with
  | nil => exact ⟨[], List.suffix_rfl, by simpa using h⟩
  | cons c s ih =>
    obtain ⟨pre, hpre⟩ := h
    rw [encode_cons] at hpre
    rcases List.append_eq_append_iff.mp hpre with ⟨rest, hc, rfl⟩ | ⟨rest, rfl, hs⟩
    · -- the cut lies inside or at an end of the first character
      by_cases hp : pre = []
      · subst hp
        exact ⟨c :: s, List.suffix_rfl, by simp [hc]⟩
      · by_cases hr : rest = []
        · exact ⟨s, List.suffix_cons c s, by simp [hr]⟩
        · apply absurd (hb.mono (List.prefix_append rest _))
          exact not_atBoundary_of_suffix hc hp hr
    · obtain ⟨t, ht, rfl⟩ := ih ⟨rest, hs.symm⟩
      exact ⟨t, ht.trans (List.suffix_cons c s), rfl⟩

/-- Byte suffixes of encoded texts are character suffixes. -/
@[simp] theorem encode_suffix_iff {s t : List Char} : encode s <:+ encode t ↔ s <:+ t := by
  constructor
  · intro h
    obtain ⟨u, hu, he⟩ := exists_of_suffix h (atBoundary_encode s)
    exact encode_injective he ▸ hu
  · rintro ⟨pre, rfl⟩
    exact ⟨encode pre, by simp⟩

/-! ## ASCII -/

/-- The character predicate that holds of the ASCII characters whose byte satisfies `p`. -/
def ascii (p : UInt8 → Bool) (c : Char) : Bool :=
  decide (c.toNat < 128) && p (UInt8.ofNat c.toNat)

theorem utf8EncodeChar_of_lt {c : Char} (h : c.toNat < 128) :
    String.utf8EncodeChar c = [UInt8.ofNat c.toNat] := by
  have : c.val.toNat ≤ 0x7f := Nat.lt_succ_iff.mp h
  rw [String.utf8EncodeChar, if_pos this]
  rfl

theorem le_ofNat {n : ℕ} (h : 128 ≤ n) (hlt : n < 256) : 128 ≤ UInt8.ofNat n := by
  rw [UInt8.le_iff_toNat_le, UInt8.toNat_ofNat_of_lt' hlt]
  exact h

/-- Every byte of a character outside ASCII is at least 128. -/
theorem le_of_mem_utf8EncodeChar {c : Char} (h : ¬ c.toNat < 128) {b : UInt8}
    (hb : b ∈ String.utf8EncodeChar c) : 128 ≤ b := by
  have hc : ¬ c.val.toNat ≤ 0x7f := fun hle => h (Nat.lt_succ_of_le hle)
  rw [String.utf8EncodeChar, if_neg hc] at hb
  split_ifs at hb <;> simp only [List.mem_cons, List.not_mem_nil, or_false] at hb
  · rcases hb with rfl | rfl <;> exact le_ofNat (by omega) (by omega)
  · rcases hb with rfl | rfl | rfl <;> exact le_ofNat (by omega) (by omega)
  · rcases hb with rfl | rfl | rfl | rfl <;> exact le_ofNat (by omega) (by omega)

/-- A predicate on ASCII bytes agrees with its character form on every character. -/
theorem agree_ascii {p : UInt8 → Bool} (hp : ∀ b : UInt8, 128 ≤ b → p b = false) (c : Char) :
    ∀ b ∈ String.utf8EncodeChar c, p b = ascii p c := by
  intro b hb
  by_cases hc : c.toNat < 128
  · rw [utf8EncodeChar_of_lt hc, List.mem_singleton] at hb
    simp [ascii, hc, hb]
  · simp [ascii, hc, hp b (le_of_mem_utf8EncodeChar hc hb)]

/-- An ASCII byte occurs in the form of its own character only. -/
theorem toNat_of_mem_utf8EncodeChar {c : Char} {b : UInt8} (hb : b.toNat < 128)
    (h : b ∈ String.utf8EncodeChar c) : c.toNat = b.toNat := by
  by_cases hc : c.toNat < 128
  · rw [utf8EncodeChar_of_lt hc, List.mem_singleton] at h
    rw [h, UInt8.toNat_ofNat_of_lt' (Nat.lt_trans hc (by decide))]
  · have := UInt8.le_iff_toNat_le.mp (le_of_mem_utf8EncodeChar hc h)
    exact absurd hb (Nat.not_lt.mpr this)

/-- A text can be cut with an ASCII predicate before or after encoding. -/
theorem takeWhile_not_encode {p : UInt8 → Bool} (hp : ∀ b : UInt8, 128 ≤ b → p b = false)
    (s : List Char) : (encode s).takeWhile (! p ·) = encode (s.takeWhile (! ascii p ·)) :=
  takeWhile_flatMap (fun c b hb => congrArg (! ·) (agree_ascii hp c b hb)) (by simp) s

theorem dropWhile_encode {p : UInt8 → Bool} (hp : ∀ b : UInt8, 128 ≤ b → p b = false)
    (s : List Char) : (encode s).dropWhile p = encode (s.dropWhile (ascii p)) :=
  dropWhile_flatMap (agree_ascii hp) (by simp) s

theorem filter_not_encode {p : UInt8 → Bool} (hp : ∀ b : UInt8, 128 ≤ b → p b = false)
    (s : List Char) : (encode s).filter (! p ·) = encode (s.filter (! ascii p ·)) :=
  filter_flatMap (fun c b hb => congrArg (! ·) (agree_ascii hp c b hb)) s

end Library.Utf8
