import Mathlib.Tactic.SplitIfs
import ComputerLock.Library.AddressSpace
import ComputerLock.Library.LittleEndian

/-!
# Jumps

The three forms of a jump that `SkipJumps` follows on x64, and the two of them that `EmitJump`
writes: a short one with a 32-bit displacement, and a long one that holds the target behind
itself.
-/

namespace ComputerLock.Mhook
open Library AddressSpace

abbrev Address := BitVec 64
abbrev Memory := AddressSpace.Memory 64

/-! ## Code -/

/-- `*(INT32 *)`, as an offset to a pointer -/
def int32 (m : Memory) (a : Address) : Address :=
  (BitVec.ofNat 32 (LittleEndian.value (read m a 4))).signExtend 64

/-- `*(PBYTE *)` -/
def pointer (m : Memory) (a : Address) : Address :=
  BitVec.ofNat 64 (LittleEndian.value (read m a 8))

/-- `*(CHAR *)`, as an offset to a pointer -/
def char (m : Memory) (a : Address) : Address := (m a).toBitVec.signExtend 64

/-- Where the code at an address jumps, none when it does not begin with a jump. -/
def jumpTarget (m : Memory) (pbCode : Address) : Option Address :=
  if m pbCode = 0xff ∧ m (pbCode + 1) = 0x25 then
    some (pointer m (pbCode + 6 + int32 m (pbCode + 2)))
  else if m pbCode = 0xe9 then some (pbCode + 5 + int32 m (pbCode + 1))
  else if m pbCode = 0xeb then some (pbCode + 2 + char m (pbCode + 1))
  else none

/-- `SkipJumps` does not return when the jumps lead in a circle; none when it has not returned
after `n` calls. -/
def skipJumps (m : Memory) : ℕ → Address → Option Address
  | 0, _ => none
  | n + 1, pbCode =>
    match jumpTarget m pbCode with
    | some pbTarget => skipJumps m n pbTarget
    | none => some pbCode

/-- The farthest an address may be for a short jump. -/
def nearLimit : ℕ := 0x7fff0000

/-- The difference of two pointers, the smaller taken from the larger. -/
def distance (a b : Address) : ℕ := if a > b then (a - b).toNat else (b - a).toNat

def jumpLength (pbCode pbJumpTo : Address) : ℕ :=
  if distance (pbCode + 5) pbJumpTo ≤ nearLimit then 5 else 14

/-- The bytes `EmitJump` writes. -/
def jumpCode (pbCode pbJumpTo : Address) : List UInt8 :=
  let pbJumpFrom := pbCode + 5
  if distance pbJumpFrom pbJumpTo ≤ nearLimit then
    0xe9 :: LittleEndian.bytes 4 (pbJumpTo - pbJumpFrom).toNat
  else
    -- the relative address of the pointer just behind the instruction is zero
    0xff :: 0x25 :: (LittleEndian.bytes 4 0 ++ LittleEndian.bytes 8 pbJumpTo.toNat)

/-- The memory, and the address behind the jump. -/
def emitJump (m : Memory) (pbCode pbJumpTo : Address) : Memory × Address :=
  let code := jumpCode pbCode pbJumpTo
  (write m pbCode code, pbCode + BitVec.ofNat 64 code.length)

/-! ## What is emitted is a jump to the target -/

section Emission

variable {m : Memory} {a t : Address}

theorem distance_cases (a b : Address) :
    b.toNat < a.toNat ∧ distance a b = a.toNat - b.toNat ∨
      a.toNat ≤ b.toNat ∧ distance a b = b.toNat - a.toNat := by
  unfold distance
  have hab := toNat_sub_cases a b
  have hba := toNat_sub_cases b a
  split_ifs with h
  · have := BitVec.lt_def.mp h
    omega
  · have := BitVec.not_lt.mp h
    rw [BitVec.le_def] at this
    omega

@[simp] theorem length_jumpCode (a t : Address) : (jumpCode a t).length = jumpLength a t := by
  unfold jumpCode jumpLength
  dsimp only
  split_ifs <;> simp

theorem jumpLength_le (a t : Address) : jumpLength a t ≤ 14 := by
  unfold jumpLength
  split_ifs <;> omega

/-- A displacement that fits 31 bits survives in 32. -/
theorem signExtend_ofNat_toNat {d : Address}
    (h : d.toNat < 2 ^ 31 ∨ 2 ^ 64 - 2 ^ 31 ≤ d.toNat) :
    (BitVec.ofNat 32 d.toNat).signExtend 64 = d := by
  have hd := d.isLt
  apply BitVec.eq_of_toInt_eq
  rw [BitVec.toInt_signExtend_of_le (by decide), BitVec.toInt_eq_toNat_bmod,
    BitVec.toInt_eq_toNat_bmod, BitVec.toNat_ofNat, Int.bmod, Int.bmod]
  split_ifs <;> omega

theorem displacement_of_near (h : distance a t ≤ nearLimit) :
    (t - a).toNat < 2 ^ 31 ∨ 2 ^ 64 - 2 ^ 31 ≤ (t - a).toNat := by
  have hcases := distance_cases a t
  have hsub := toNat_sub_cases a t
  have ha := a.isLt
  unfold nearLimit at h
  omega

theorem int32_of_read {n : ℕ} (h : read m a 4 = LittleEndian.bytes 4 n) :
    int32 m a = (BitVec.ofNat 32 n).signExtend 64 := by
  have hmod : BitVec.ofNat 32 (n % 256 ^ 4) = BitVec.ofNat 32 n := by
    apply BitVec.eq_of_toNat_eq
    simp
  rw [int32, h, LittleEndian.value_bytes_mod, hmod]

theorem pointer_of_read (h : read m a 8 = LittleEndian.bytes 8 t.toNat) : pointer m a = t := by
  rw [pointer, h, LittleEndian.value_bytes (by have := t.isLt; omega), BitVec.ofNat_toNat,
    BitVec.setWidth_eq]

/-- The bytes of a jump lead to its target, whichever form it takes. -/
theorem jumpTarget_of_read (h : read m a (jumpLength a t) = jumpCode a t) :
    jumpTarget m a = some t := by
  unfold jumpCode jumpLength at h
  dsimp only at h
  split_ifs at h with hnear
  · rw [read_succ] at h
    obtain ⟨hop, hcode⟩ := List.cons.inj h
    have hlong : ¬ (m a = 0xff ∧ m (a + 1) = 0x25) := by
      intro h'
      rw [hop] at h'
      exact absurd h'.1 (by decide)
    have hdisp : int32 m (a + 1) = t - (a + 5) :=
      (int32_of_read hcode).trans (signExtend_ofNat_toNat (displacement_of_near hnear))
    rw [jumpTarget, if_neg hlong, if_pos hop, hdisp, add_sub_add]
  · rw [read_succ, read_succ] at h
    obtain ⟨hop, h⟩ := List.cons.inj h
    obtain ⟨hop', h⟩ := List.cons.inj h
    rw [read_add m _ 4 8, BitVec.add_assoc, BitVec.add_assoc] at h
    obtain ⟨hzero, hcode⟩ := List.append_inj h (by simp)
    have hdisp : int32 m (a + 2) = 0#64 := (int32_of_read hzero).trans rfl
    have htarget : pointer m (a + 6) = t := pointer_of_read hcode
    rw [jumpTarget, if_pos ⟨hop, hop'⟩, hdisp, BitVec.add_zero, htarget]

theorem read_emitJump (m : Memory) (a t : Address) :
    read (emitJump m a t).1 a (jumpLength a t) = jumpCode a t := by
  have hlen := jumpLength_le a t
  have hread : read (write m a (jumpCode a t)) a (jumpCode a t).length = jumpCode a t :=
    read_write_self (by rw [length_jumpCode]; omega)
  rwa [length_jumpCode] at hread

theorem emitJump_of_not_within {x : Address} (h : ¬ Within a (jumpLength a t) x) :
    (emitJump m a t).1 x = m x :=
  write_of_not_within (by rwa [length_jumpCode])

/-- The jump that has been emitted leads to its target, from every address to every other, and no
byte behind it changes. -/
theorem emitJump_correct (m : Memory) (a t : Address) :
    jumpTarget (emitJump m a t).1 a = some t ∧
      (emitJump m a t).2 = a + BitVec.ofNat 64 (jumpLength a t) ∧
      ∀ x, ¬ Within a (jumpLength a t) x → (emitJump m a t).1 x = m x := by
  refine ⟨jumpTarget_of_read (read_emitJump m a t), ?_, ?_⟩
  · rw [emitJump, length_jumpCode]
  · intro x hx
    exact emitJump_of_not_within hx

end Emission

/-! ## Following jumps -/

section Following

variable {m m' : Memory} {a b t : Address} {n : ℕ}

theorem skipJumps_of_none (h : jumpTarget m a = none) (n : ℕ) :
    skipJumps m (n + 1) a = some a := by
  rw [skipJumps, h]

theorem skipJumps_of_target (h : jumpTarget m a = some t) (n : ℕ) :
    skipJumps m (n + 1) a = skipJumps m n t := by
  rw [skipJumps, h]

/-- Jumps are followed to code that does not begin with one. -/
theorem jumpTarget_of_skipJumps (h : skipJumps m n a = some b) : jumpTarget m b = none := by
  induction n generalizing a with
  | zero => cases h
  | succ n ih =>
    cases htarget : jumpTarget m a with
    | none =>
      rw [skipJumps_of_none htarget] at h
      exact Option.some.inj h ▸ htarget
    | some t =>
      rw [skipJumps_of_target htarget] at h
      exact ih h

end Following

end ComputerLock.Mhook
