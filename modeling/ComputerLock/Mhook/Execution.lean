import ComputerLock.Mhook.Hooks

/-!
# Calling a hooked function

A call of a hooked function ends up in the hook, and a call of its trampoline does what a call of
the function did before, instruction by instruction. The processor is a parameter: a moved
instruction must not depend on where it lies, or only through an operand relative to what follows
it, in the bytes that are patched.
-/

namespace ComputerLock.Mhook
open Library AddressSpace

/-! ## Processors -/

/-- What the processor makes of code. The state of a program is everything but the instruction
pointer and the code. -/
structure Processor (σ : Type) where
  /-- the length of the instruction at an address -/
  length : Memory → Address → Option ℕ
  /-- what the instruction with the given bytes does at an address -/
  execute : List UInt8 → Address → σ → Option (Address × σ)
  length_le : ∀ m a n, length m a = some n → n ≤ 15
  length_congr : ∀ m m' a, (∀ x, Within a 15 x → m' x = m x) → length m' a = length m a

namespace Processor

variable {σ : Type} (P : Processor σ)

def step (m : Memory) : Address × σ → Option (Address × σ)
  | (ip, s) =>
    match jumpTarget m ip with
    | some t => some (t, s)
    | none => (P.length m ip).bind fun n => P.execute (read m ip n) ip s

def run (m : Memory) : ℕ → Address × σ → Option (Address × σ)
  | 0, c => some c
  | n + 1, c => (P.step m c).bind (run m n)

/-- Wherever they are, the bytes are one instruction and no jump. -/
def IsInstruction (bs : List UInt8) : Prop :=
  ∀ m a, read m a bs.length = bs → P.length m a = some bs.length ∧ jumpTarget m a = none

/-- The instruction does the same everywhere and goes on with the next one. -/
def Straight (bs : List UInt8) : Prop :=
  P.IsInstruction bs ∧ ∃ effect : σ → Option σ, ∀ a s,
    P.execute bs a s = (effect s).map (a + BitVec.ofNat 64 bs.length, ·)

def withDisplacement (bs : List UInt8) (d : Address) : List UInt8 :=
  bs.take 3 ++ LittleEndian.bytes 4 d.toNat ++ bs.drop 7

/-- The instruction has the displacement of its operand at the offset 3, and does the same
everywhere up to the address of this operand. -/
structure RipRelative (bs : List UInt8) (nDisplacement : ℤ) : Prop where
  long : 7 ≤ bs.length
  displacement : withDisplacement bs (BitVec.ofInt 64 nDisplacement) = bs
  fits : Fits (BitVec.ofInt 64 nDisplacement)
  operand : ∃ effect : Address → σ → Option σ, ∀ d, Fits d →
    P.IsInstruction (withDisplacement bs d) ∧ ∀ a s, P.execute (withDisplacement bs d) a s =
      (effect (a + BitVec.ofNat 64 bs.length + d) s).map (a + BitVec.ofNat 64 bs.length, ·)

/-- An instruction can be moved the way it is moved. -/
def Portable (i : Instruction) (bs : List UInt8) : Prop :=
  if i.patched then P.RipRelative bs i.displacement else P.Straight bs

/-- The instructions of a function, from the given offset on, can be moved. -/
def Relocatable (m : Memory) (pFunction : Address) : ℕ → List Instruction → Prop
  | _, [] => True
  | off, i :: is => P.Portable i (read m (pFunction + BitVec.ofNat 64 off) i.length) ∧
      Relocatable m pFunction (off + i.length) is

/-- The code at the address is the same in both memories. -/
def SameCode (m m' : Memory) (ip : Address) : Prop :=
  jumpTarget m' ip = jumpTarget m ip ∧ ∀ x, Within ip 15 x → m' x = m x

/-! ## Steps -/

section Steps

variable {P} {m m' : Memory} {a b t : Address} {s : σ} {i : Instruction} {bs : List UInt8}
  {c : Address × σ} {n k : ℕ}

theorem step_of_target (h : jumpTarget m a = some t) (s : σ) :
    P.step m (a, s) = some (t, s) := by
  rw [step, h]

theorem step_of_instruction (h : P.IsInstruction bs) (hread : read m a bs.length = bs) (s : σ) :
    P.step m (a, s) = P.execute bs a s := by
  obtain ⟨hlength, hjump⟩ := h m a hread
  rw [step, hjump, hlength]
  simp only [Option.bind_some, hread]

theorem step_congr (h : SameCode m m' a) (s : σ) : P.step m' (a, s) = P.step m (a, s) := by
  obtain ⟨hjump, hcode⟩ := h
  rw [step, step, hjump, P.length_congr m m' a hcode]
  cases jumpTarget m a with
  | some t => rfl
  | none =>
    cases hlength : P.length m a with
    | none => rfl
    | some n =>
      have hread : read m' a n = read m a n :=
        read_congr fun x hx => hcode x (hx.mono (P.length_le m a n hlength))
      simp only [Option.bind_some, hread]

theorem run_add (m : Memory) (n k : ℕ) (c : Address × σ) :
    P.run m (n + k) c = (P.run m n c).bind (P.run m k) := by
  induction n generalizing c with
  | zero => rw [Nat.zero_add, run, Option.bind_some]
  | succ n ih =>
    rw [Nat.succ_add, run, run, Option.bind_assoc]
    exact congrArg _ (funext ih)

/-- As long as the code is the same, so is what it does. -/
theorem run_congr (h : ∀ j < k, ∀ c', P.run m j c = some c' → SameCode m m' c'.1) :
    P.run m' k c = P.run m k c := by
  induction k with
  | zero => rfl
  | succ k ih =>
    have hbefore := ih fun j hj => h j (Nat.lt_succ_of_lt hj)
    rw [run_add, run_add, hbefore]
    cases hrun : P.run m k c with
    | none => rfl
    | some c' =>
      have hsame := step_congr (P := P) (h k (Nat.lt_succ_self k) c' hrun) c'.2
      rw [Option.bind_some, Option.bind_some, run, run, hsame]
      rfl

/-- A moved instruction does what it did where it came from. -/
theorem step_moved {pbNew pbOriginal : Address} {off : ℕ}
    (hportable : P.Portable i (read m (pbOriginal + BitVec.ofNat 64 off) i.length))
    (hfits : i.patched = true → Fits (newDisplacement pbNew pbOriginal i.displacement))
    (hmoved : read m' (pbNew + BitVec.ofNat 64 off) i.length =
      i.moved pbNew pbOriginal (read m (pbOriginal + BitVec.ofNat 64 off) i.length)) (s : σ) :
    ∃ r : Option σ,
      P.step m (pbOriginal + BitVec.ofNat 64 off, s) =
        r.map (pbOriginal + BitVec.ofNat 64 (off + i.length), ·) ∧
      P.step m' (pbNew + BitVec.ofNat 64 off, s) =
        r.map (pbNew + BitVec.ofNat 64 (off + i.length), ·) := by
  set bs := read m (pbOriginal + BitVec.ofNat 64 off) i.length with hbs
  have hlength : bs.length = i.length := length_read m _ _
  have hnext (a : Address) : a + BitVec.ofNat 64 (off + i.length) =
      a + BitVec.ofNat 64 off + BitVec.ofNat 64 bs.length := by
    rw [BitVec.ofNat_add, BitVec.add_assoc, hlength]
  have hown : read m (pbOriginal + BitVec.ofNat 64 off) bs.length = bs := by rw [hlength]
  rw [hnext, hnext]
  unfold Portable at hportable
  unfold Instruction.moved at hmoved
  by_cases hpatched : i.patched = true
  · rw [if_pos hpatched] at hportable hmoved
    obtain ⟨effect, heffect⟩ := hportable.operand
    obtain ⟨hinstruction, hexecute⟩ := heffect _ hportable.fits
    obtain ⟨hinstruction', hexecute'⟩ := heffect _ (hfits hpatched)
    rw [hportable.displacement] at hinstruction hexecute
    -- the operand has the same address in both places
    have hoperand : pbNew + BitVec.ofNat 64 off + BitVec.ofNat 64 bs.length +
        newDisplacement pbNew pbOriginal i.displacement =
        pbOriginal + BitVec.ofNat 64 off + BitVec.ofNat 64 bs.length +
          BitVec.ofInt 64 i.displacement := by
      rw [newDisplacement]
      grind
    refine ⟨effect (pbOriginal + BitVec.ofNat 64 off + BitVec.ofNat 64 bs.length +
      BitVec.ofInt 64 i.displacement) s, ?_, ?_⟩
    · rw [step_of_instruction hinstruction hown, hexecute]
    · have hlong := hportable.long
      have hlength' : (withDisplacement bs
          (newDisplacement pbNew pbOriginal i.displacement)).length = i.length := by
        rw [withDisplacement]
        simp
        omega
      have hother : read m' (pbNew + BitVec.ofNat 64 off) (withDisplacement bs
          (newDisplacement pbNew pbOriginal i.displacement)).length =
          withDisplacement bs (newDisplacement pbNew pbOriginal i.displacement) := by
        rw [hlength', hmoved, withDisplacement]
      rw [step_of_instruction hinstruction' hother, hexecute', hoperand]
  · rw [if_neg hpatched] at hportable hmoved
    obtain ⟨hinstruction, effect, hexecute⟩ := hportable
    have hother : read m' (pbNew + BitVec.ofNat 64 off) bs.length = bs := by
      rw [hlength, hmoved]
    refine ⟨effect s, ?_, ?_⟩
    · rw [step_of_instruction hinstruction hown, hexecute]
    · rw [step_of_instruction hinstruction hother, hexecute]

/-- Moved instructions do what they did where they came from, one after another. -/
theorem run_moved {pbNew pbOriginal : Address} {off : ℕ} {is : List Instruction}
    (hrelocatable : P.Relocatable m pbOriginal off is)
    (hfits : ∀ r ∈ ripsOf off is, Fits (newDisplacement pbNew pbOriginal r.nDisplacement))
    (hmoved : Moved m m' pbNew pbOriginal off is) (s : σ) :
    ∃ r : Option σ,
      P.run m is.length (pbOriginal + BitVec.ofNat 64 off, s) =
        r.map (pbOriginal + BitVec.ofNat 64 (off + totalLength is), ·) ∧
      P.run m' is.length (pbNew + BitVec.ofNat 64 off, s) =
        r.map (pbNew + BitVec.ofNat 64 (off + totalLength is), ·) := by
  induction is generalizing off s with
  | nil => exact ⟨some s, rfl, rfl⟩
  | cons i is ih =>
    obtain ⟨hportable, hrest⟩ := hrelocatable
    obtain ⟨hfirst, hmovedRest⟩ := hmoved
    have hsum : off + totalLength (i :: is) = off + i.length + totalLength is := by
      simp [totalLength, Nat.add_assoc]
    have hfitsFirst : i.patched = true →
        Fits (newDisplacement pbNew pbOriginal i.displacement) := fun hpatched =>
      hfits ⟨off + 3, i.displacement⟩ (by rw [ripsOf, if_pos hpatched]; simp)
    have hfitsRest : ∀ r ∈ ripsOf (off + i.length) is,
        Fits (newDisplacement pbNew pbOriginal r.nDisplacement) := fun r hr =>
      hfits r (by rw [ripsOf]; exact List.mem_append_right _ hr)
    obtain ⟨r, hold, hnew⟩ := step_moved hportable hfitsFirst hfirst s
    rw [hsum, List.length_cons, run, run, hold, hnew]
    cases r with
    | none => exact ⟨none, rfl, rfl⟩
    | some s' => exact ih hrest hfitsRest hmovedRest s'

end Steps

end Processor

/-! ## Hooked functions -/

section Hooked

variable {σ : Type} (P : Processor σ) {dis : Disassembler} {w : Surroundings} {e e' : Engine}
  {m m' : Memory} {S H T : Address} {skip : Skip} {is : List Instruction}

/-- Where the jumps of a hook lead. -/
theorem InPlace.jumps {len : ℕ} (h : InPlace m m' S H T len is) :
    jumpTarget m' S = some (entryTarget S H T) ∧
      (far S H → jumpTarget m' (codeJumpToHookFunction T) = some H) :=
  ⟨jumpTarget_of_read h.entry, fun hfar => jumpTarget_of_read (h.stub hfar)⟩

/-- A call of the function ends up in the hook, with nothing changed on the way. -/
theorem InPlace.reaches_hook {len : ℕ} (h : InPlace m m' S H T len is) (s : σ) :
    ∃ n ≤ 2, P.run m' n (S, s) = some (H, s) := by
  obtain ⟨hjump, hstub⟩ := h.jumps
  have hentry := P.step_of_target hjump s
  by_cases hfar : far S H
  · have htarget : entryTarget S H T = codeJumpToHookFunction T := if_pos hfar
    refine ⟨2, le_refl 2, ?_⟩
    rw [htarget] at hentry
    rw [Processor.run, hentry, Option.bind_some, Processor.run, P.step_of_target (hstub hfar) s]
    rfl
  · have htarget : entryTarget S H T = H := if_neg hfar
    refine ⟨1, by decide, ?_⟩
    rw [htarget] at hentry
    rw [Processor.run, hentry]
    rfl

/-- A call of the trampoline does what the moved instructions did, and goes on where they went
on. -/
theorem InPlace.run_trampoline (h : InPlace m m' S H T skip.dwRet is)
    (hsound : skip.Sound dis m S jmpSize is)
    (hreach : InReach S T skip.pdata.nLimitUp skip.pdata.nLimitDown)
    (hrelocatable : P.Relocatable m S 0 is) (s : σ) :
    P.run m' (is.length + 1) (codeTrampoline T, s) = P.run m is.length (S, s) := by
  obtain ⟨r, hold, hnew⟩ := Processor.run_moved hrelocatable (hreach.fits hsound) h.code s
  rw [BitVec.add_zero, Nat.zero_add, ← hsound.length] at hold hnew
  rw [P.run_add, hnew, hold]
  cases r with
  | none => rfl
  | some s' =>
    have hlength : jumpLength (codeTrampoline T + BitVec.ofNat 64 skip.dwRet)
        (S + BitVec.ofNat 64 skip.dwRet) = 5 := by
      have := congrArg List.length h.back
      rwa [length_read, length_jumpCode, eq_comm] at this
    have hback : jumpTarget m' (codeTrampoline T + BitVec.ofNat 64 skip.dwRet) =
        some (S + BitVec.ofNat 64 skip.dwRet) := jumpTarget_of_read (by rw [hlength, h.back])
    have hstep := P.step_of_target hback s'
    rw [Option.map_some, Option.bind_some, Processor.run, hstep]
    rfl

/-- A call of the trampoline goes on the way a call of the function did, as long as that does not
come to code that has changed. -/
theorem InPlace.run_on (h : InPlace m m' S H T skip.dwRet is)
    (hsound : skip.Sound dis m S jmpSize is)
    (hreach : InReach S T skip.pdata.nLimitUp skip.pdata.nLimitDown)
    (hrelocatable : P.Relocatable m S 0 is) {s : σ} {k : ℕ}
    (hcode : ∀ j < k, ∀ c, P.run m (is.length + j) (S, s) = some c →
      Processor.SameCode m m' c.1) :
    P.run m' (is.length + 1 + k) (codeTrampoline T, s) = P.run m (is.length + k) (S, s) := by
  rw [P.run_add m' (is.length + 1), h.run_trampoline P hsound hreach hrelocatable s, P.run_add]
  cases hrun : P.run m is.length (S, s) with
  | none => rfl
  | some c =>
    apply Processor.run_congr
    intro j hj c' hc'
    apply hcode j hj c'
    rw [P.run_add, hrun, Option.bind_some, hc']

end Hooked

/-! ## An example -/

/-- A processor that knows `mov rax, [rip + imm32]`; its state is the address that has been read
from last. -/
def movProcessor : Processor Address where
  length m a := if read m a 3 = [0x48, 0x8b, 0x05] then some 7 else none
  execute bs a _ := if bs.take 3 = [0x48, 0x8b, 0x05] then
    some (a + 7, a + 7 + (BitVec.ofNat 32 (LittleEndian.value (bs.drop 3))).signExtend 64) else none
  length_le m a n h := by
    obtain ⟨-, rfl⟩ := Option.ite_none_right_eq_some.mp h |>.imp_right Option.some.inj
    decide
  length_congr m m' a h := by
    rw [read_congr fun x hx => h x (hx.mono (by decide))]

theorem movProcessor_ripRelative :
    movProcessor.RipRelative [0x48, 0x8b, 0x05, 0xf9, 0x0f, 0, 0] 0xff9 := by
  refine ⟨by decide, by decide, by decide, fun t _ => some t, ?_⟩
  intro d hd
  have hbytes : Processor.withDisplacement [0x48, 0x8b, 0x05, 0xf9, 0x0f, 0, 0] d =
      [0x48, 0x8b, 0x05] ++ LittleEndian.bytes 4 d.toNat := by
    simp [Processor.withDisplacement]
  rw [hbytes]
  refine ⟨?_, ?_⟩
  · intro m a hread
    have hlength : ([0x48, 0x8b, 0x05] ++ LittleEndian.bytes 4 d.toNat).length = 3 + 4 := by simp
    rw [hlength, read_add] at hread
    have hthree : read m a 3 = [0x48, 0x8b, 0x05] := List.append_inj_left hread (by simp)
    have hfirst : m a = 0x48 := by
      rw [read_succ] at hthree
      exact (List.cons.inj hthree).1
    refine ⟨?_, ?_⟩
    · rw [hlength]
      exact if_pos hthree
    · simp [jumpTarget, hfirst]
  · intro a s
    have hvalue : (BitVec.ofNat 32 (LittleEndian.value (LittleEndian.bytes 4 d.toNat))).signExtend
        64 = d := by
      rw [LittleEndian.value_bytes_mod]
      have hmod : BitVec.ofNat 32 (d.toNat % 256 ^ 4) = BitVec.ofNat 32 d.toNat := by
        apply BitVec.eq_of_toNat_eq
        simp
      rw [hmod]
      exact hd
    simp [movProcessor, hvalue]

theorem movProcessor_relocatable {is : List Instruction}
    (h : Movable movDisassembler movMemory 0x140001000 0 is) :
    movProcessor.Relocatable movMemory 0x140001000 0 is := by
  cases is with
  | nil => trivial
  | cons i is =>
    obtain rfl : ⟨.mov, true, 8, [⟨false, false⟩, ⟨true, true⟩], 0xff9, 3, 7⟩ = i :=
      Option.some.inj (Eq.trans rfl h.1)
    refine ⟨movProcessor_ripRelative, ?_⟩
    cases is with
    | nil => trivial
    | cons j is =>
      have hnone : movDisassembler.getInstruction movMemory
          (0x140001000 + BitVec.ofNat 64 (0 + 7)) = none := rfl
      exact Option.some_ne_none j (h.2.2.1.symm.trans hnone) |>.elim

end ComputerLock.Mhook
