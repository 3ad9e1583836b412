import Mathlib.Algebra.Ring.Nat
import Mathlib.Data.List.Basic
import Mathlib.Tactic.SplitIfs

/-!
# Little-endian numbers in a block of memory

A block of memory is a list of bytes. Numbers of a fixed width are read at an offset, and
strings of 16-bit units up to a zero unit. An overwrite that stays inside the block changes
the bytes it covers and no others.
-/

namespace Library.LittleEndian

/-! ## Numbers -/

/-- The number with the given bytes, the least significant first. -/
def value : List UInt8 → ℕ
  | [] => 0
  | b :: bs => b.toNat + 256 * value bs

/-- The lowest `w` bytes of a number. -/
def bytes : ℕ → ℕ → List UInt8
  | 0, _ => []
  | w + 1, n => UInt8.ofNat (n % 256) :: bytes w (n / 256)

@[simp] theorem length_bytes (w n : ℕ) : (bytes w n).length = w := by
  induction w generalizing n with
  | zero => rfl
  | succ w ih => simp [bytes, ih]

theorem value_bytes {w n : ℕ} (h : n < 256 ^ w) : value (bytes w n) = n := by
  induction w generalizing n with
  | zero =>
    have : n = 0 := by simpa using h
    simp [bytes, value, this]
  | succ w ih =>
    have hdiv : n / 256 < 256 ^ w := Nat.div_lt_of_lt_mul (by rwa [pow_succ'] at h)
    have hmod : (UInt8.ofNat (n % 256)).toNat = n % 256 :=
      UInt8.toNat_ofNat_of_lt' (Nat.mod_lt _ (by decide))
    rw [bytes, value, hmod, ih hdiv, Nat.mod_add_div]

theorem bytes_mod (w n : ℕ) : bytes w (n % 256 ^ w) = bytes w n := by
  induction w generalizing n with
  | zero => rfl
  | succ w ih =>
    rw [bytes, bytes, pow_succ', Nat.mod_mul_right_mod, Nat.mod_mul_right_div_self, ih]

/-- Read back, a number is what it is below the bound of its width. -/
theorem value_bytes_mod (w n : ℕ) : value (bytes w n) = n % 256 ^ w := by
  rw [← bytes_mod, value_bytes (Nat.mod_lt _ (Nat.pow_pos (by decide)))]

theorem value_append (as bs : List UInt8) :
    value (as ++ bs) = value as + 256 ^ as.length * value bs := by
  induction as with
  | nil => simp [value]
  | cons a as ih =>
    rw [List.cons_append, value, value, ih, List.length_cons, pow_succ', Nat.mul_add,
      Nat.add_assoc, Nat.mul_assoc]

theorem eq_replicate_of_value_eq_zero {bs : List UInt8} (h : value bs = 0) :
    bs = List.replicate bs.length 0 := by
  induction bs with
  | nil => rfl
  | cons b bs ih =>
    rw [value] at h
    have hb : b = 0 := UInt8.toNat_inj.mp (by simp; omega)
    have hbs : value bs = 0 := by omega
    rw [hb, List.length_cons, List.replicate_succ, ← ih hbs]

/-! ## Blocks of memory -/

/-- The `n` bytes from an offset on, fewer at the end of the block. -/
def slice (mem : List UInt8) (off n : ℕ) : List UInt8 := (mem.drop off).take n

/-- The number of `w` bytes at an offset, none when it does not lie in the block. -/
def read (w : ℕ) (mem : List UInt8) (off : ℕ) : Option ℕ :=
  if off + w ≤ mem.length then some (value (slice mem off w)) else none

/-- Replace the bytes from an offset on, when they lie in the block. -/
def overwrite (mem : List UInt8) (off : ℕ) (bs : List UInt8) : List UInt8 :=
  if off + bs.length ≤ mem.length then mem.take off ++ bs ++ mem.drop (off + bs.length) else mem

@[simp] theorem length_overwrite (mem : List UInt8) (off : ℕ) (bs : List UInt8) :
    (overwrite mem off bs).length = mem.length := by
  unfold overwrite
  split_ifs with h
  · simp
    omega
  · rfl

theorem slice_append (pre bs post : List UInt8) :
    slice (pre ++ (bs ++ post)) pre.length bs.length = bs := by
  simp [slice]

theorem slice_add (mem : List UInt8) (off m n : ℕ) :
    slice mem off (m + n) = slice mem off m ++ slice mem (off + m) n := by
  rw [slice, slice, slice, List.take_add, List.drop_drop]

theorem slice_overwrite_self {mem : List UInt8} {off : ℕ} (bs : List UInt8)
    (h : off + bs.length ≤ mem.length) :
    slice (overwrite mem off bs) off bs.length = bs := by
  have hoff : (mem.take off).length = off := by
    rw [List.length_take]
    omega
  have := slice_append (mem.take off) bs (mem.drop (off + bs.length))
  rwa [hoff, ← List.append_assoc, ← if_pos (c := off + bs.length ≤ mem.length) h
    (t := mem.take off ++ bs ++ mem.drop (off + bs.length)) (e := mem)] at this

/-- Writing what is there already changes nothing. -/
theorem overwrite_eq_self {mem bs : List UInt8} {off : ℕ} (h : slice mem off bs.length = bs) :
    overwrite mem off bs = mem := by
  unfold overwrite
  split_ifs
  · have hback : bs ++ mem.drop (off + bs.length) = mem.drop off := by
      have := List.take_append_drop bs.length (mem.drop off)
      rwa [← slice, h, List.drop_drop] at this
    rw [List.append_assoc, hback, List.take_append_drop]
  · rfl

/-- What an overwrite does not cover stays as it is. -/
theorem slice_overwrite_of_disjoint {mem bs : List UInt8} {off off' n : ℕ}
    (h : off' + n ≤ off ∨ off + bs.length ≤ off') :
    slice (overwrite mem off bs) off' n = slice mem off' n := by
  unfold overwrite
  split_ifs with hfit
  · apply List.ext_getElem?
    intro i
    simp only [slice, List.getElem?_take, List.getElem?_drop, List.append_assoc]
    split_ifs with hi
    · rcases h with h | h
      · rw [List.getElem?_append_left (by simp; omega), List.getElem?_take_of_lt (by omega)]
      · rw [List.getElem?_append_right (by simp; omega),
          List.getElem?_append_right (by simp; omega), List.getElem?_drop]
        congr 1
        simp
        omega
    · rfl
  · rfl

theorem read_overwrite_of_disjoint {mem bs : List UInt8} {off off' w : ℕ}
    (h : off' + w ≤ off ∨ off + bs.length ≤ off') :
    read w (overwrite mem off bs) off' = read w mem off' := by
  rw [read, read, length_overwrite, slice_overwrite_of_disjoint h]

theorem read_append (pre post : List UInt8) {w n : ℕ} (h : n < 256 ^ w) :
    read w (pre ++ (bytes w n ++ post)) pre.length = some n := by
  have hslice := slice_append pre (bytes w n) post
  rw [length_bytes] at hslice
  rw [read, if_pos (by simp), hslice, value_bytes h]

/-! ## Strings of 16-bit units -/

/-- The bytes of a string. -/
def units (s : List UInt16) : List UInt8 := s.flatMap fun u => bytes 2 u.toNat

/-- The units up to the first zero unit, none when the bytes end before one. -/
def takeString : List UInt8 → Option (List UInt16)
  | lo :: hi :: bs =>
    if lo = 0 ∧ hi = 0 then some []
    else (takeString bs).map (UInt16.ofNat (value [lo, hi]) :: ·)
  | _ => none

/-- The string that starts at an offset. -/
def readString (mem : List UInt8) (off : ℕ) : Option (List UInt16) := takeString (mem.drop off)

@[simp] theorem length_units (s : List UInt16) : (units s).length = 2 * s.length := by
  simp [units, Nat.mul_comm]

theorem takeString_units {s : List UInt16} (h : 0 ∉ s) (post : List UInt8) :
    takeString (units s ++ 0 :: 0 :: post) = some s := by
  induction s with
  | nil => rfl
  | cons u s ih =>
    obtain ⟨hu, hs⟩ := List.ne_and_not_mem_of_not_mem_cons h
    have hlt := u.toNat_lt
    have hvalue : value (bytes 2 u.toNat) = u.toNat := value_bytes (by omega)
    have hne : ¬ (UInt8.ofNat (u.toNat % 256) = 0 ∧ UInt8.ofNat (u.toNat / 256 % 256) = 0) := by
      rintro ⟨hlo, hhi⟩
      rw [bytes, bytes, bytes, hlo, hhi] at hvalue
      exact hu (UInt16.toNat_inj.mp hvalue)
    have hunits : units (u :: s) ++ 0 :: 0 :: post =
        UInt8.ofNat (u.toNat % 256) :: UInt8.ofNat (u.toNat / 256 % 256) ::
          (units s ++ 0 :: 0 :: post) := by
      simp [units, bytes]
    have hback : value [UInt8.ofNat (u.toNat % 256), UInt8.ofNat (u.toNat / 256 % 256)] =
        u.toNat := hvalue
    rw [hunits, takeString, if_neg hne, ih hs, hback, UInt16.ofNat_toNat]
    rfl

theorem readString_of_slice {mem : List UInt8} {off : ℕ} {s : List UInt16} (h : 0 ∉ s)
    (hslice : slice mem off (2 * s.length + 2) = units s ++ [0, 0]) :
    readString mem off = some s := by
  have hsplit := List.take_append_drop (2 * s.length + 2) (mem.drop off)
  rw [← slice, hslice, List.append_assoc] at hsplit
  rw [readString, ← hsplit]
  exact takeString_units h _

end Library.LittleEndian
