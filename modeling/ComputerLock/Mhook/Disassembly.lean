import ComputerLock.Mhook.Jump

/-!
# Disassembly

`DisassembleAndSkip` passes over whole instructions at the entry of a function until there is
room for a jump. It stops at instructions that cannot be moved, and takes down the displacements
of those that have to be patched when they are. The disassembler itself is a parameter.
-/

namespace ComputerLock.Mhook
open Library AddressSpace

/-! ## Instructions -/

/-- `INSTRUCTION_TYPE`, as far as it is told apart here. -/
inductive InstructionType where
  | ret
  | branch
  | branchcc
  | call
  | callcc
  | mov
  | lea
  | other
  deriving DecidableEq

structure Operand where
  /-- `Flags & OP_IPREL` -/
  ipRel : Bool
  /-- `Register == AMD64_REG_RIP` -/
  rip : Bool
  deriving DecidableEq

structure Instruction where
  type : InstructionType
  /-- `X86.Relative` -/
  relative : Bool
  /-- `X86.OperandSize` -/
  operandSize : ℕ
  operands : List Operand
  /-- `X86.Displacement` -/
  displacement : ℤ
  /-- where the displacement lies in the instruction, which the disassembler does not tell -/
  displacementOffset : ℕ
  length : ℕ
  deriving DecidableEq

namespace Instruction

/-- The instruction leads somewhere else. -/
def stops (i : Instruction) : Bool :=
  i.type = .ret || i.type = .branch || i.type = .branchcc || i.type = .call || i.type = .callcc

/-- A `mov` or `lea` between a register and memory, eight bytes wide. -/
def movesRelative (i : Instruction) : Bool :=
  (i.type = .mov || i.type = .lea) && i.relative && i.operandSize = 8 && i.operands.length = 2

def ipRel (i : Instruction) (n : ℕ) : Bool := i.operands[n]?.any (·.ipRel)

def ripRel (i : Instruction) (n : ℕ) : Bool := i.operands[n]?.any fun o => o.ipRel && o.rip

/-- `bProcessRip`; none when the instruction cannot be moved. -/
def processRip (i : Instruction) : Option Bool :=
  if i.movesRelative && i.ripRel 1 then some true
  else if i.movesRelative && i.ripRel 0 then some true
  else if i.ipRel 0 then none
  else if i.ipRel 1 then none
  else if i.ipRel 2 then none
  else some false

/-- The instruction can be moved as it is, or patched. -/
def movable (i : Instruction) : Bool := !i.stops && i.processRip.isSome

/-- The instruction has to be patched when it is moved. -/
def patched (i : Instruction) : Bool := i.processRip = some true

end Instruction

/-- `GetInstruction`, and what its callers may rely on. A patched instruction has a prefix, an
opcode, a ModRM byte and 32 bits of displacement, and may have more. -/
structure Disassembler where
  getInstruction : Memory → Address → Option Instruction
  length_pos : ∀ m a i, getInstruction m a = some i → 0 < i.length
  length_le : ∀ m a i, getInstruction m a = some i → i.length ≤ 15
  patched_length : ∀ m a i, getInstruction m a = some i → i.patched → 7 ≤ i.length
  patched_displacement : ∀ m a i, getInstruction m a = some i → i.patched →
    -0x80000000 ≤ i.displacement ∧ i.displacement < 0x80000000
  patched_operand : ∀ m a i, getInstruction m a = some i → i.patched →
    int32 m (a + BitVec.ofNat 64 i.displacementOffset) = BitVec.ofInt 64 i.displacement

/-! ## DisassembleAndSkip -/

/-- `MHOOKS_MAX_RIPS` -/
def maxRips : ℕ := 4

/-- `MHOOK_JMPSIZE` -/
def jmpSize : ℕ := 5

/-- `MHOOKS_RIPINFO` -/
structure RipInfo where
  dwOffset : ℕ
  nDisplacement : ℤ
  deriving DecidableEq

/-- `MHOOKS_PATCHDATA` -/
structure PatchData where
  nLimitUp : ℤ
  nLimitDown : ℤ
  rips : List RipInfo
  deriving DecidableEq

/-- The displacements farthest from zero. -/
def PatchData.widen (p : PatchData) (nAdjustedDisplacement : ℤ) : PatchData :=
  { p with
    nLimitDown :=
      if nAdjustedDisplacement < p.nLimitDown then nAdjustedDisplacement else p.nLimitDown
    nLimitUp :=
      if nAdjustedDisplacement > p.nLimitUp then nAdjustedDisplacement else p.nLimitUp }

structure Skip where
  dwRet : ℕ
  pdata : PatchData
  deriving DecidableEq

section Skipping

variable (dis : Disassembler) (m : Memory) (pFunction : Address)

/-- A turn of the loop, and whether there is another. -/
def skipTurn (dwMinLen : ℕ) (s : Skip) : Skip × Bool :=
  if s.dwRet < dwMinLen then
    match dis.getInstruction m (pFunction + BitVec.ofNat 64 s.dwRet) with
    | none => (s, false)
    | some i =>
      if i.stops then (s, false)
      else match i.processRip with
        | none => (s, false)
        | some false => ({ s with dwRet := s.dwRet + i.length }, true)
        | some true =>
          let pdata := s.pdata.widen (i.displacement + s.dwRet)
          if pdata.rips.length < maxRips then
            let rips := pdata.rips ++ [⟨s.dwRet + 3, i.displacement⟩]
            (⟨s.dwRet + i.length, { pdata with rips := rips }⟩, true)
          else ({ s with pdata := pdata }, false)
  else (s, false)

def skipLoop (dwMinLen : ℕ) : ℕ → Skip → Skip
  | 0, s => s
  | n + 1, s =>
    match skipTurn dis m pFunction dwMinLen s with
    | (t, true) => skipLoop dwMinLen n t
    | (t, false) => t

/-- Every turn but the last passes over a byte at least, so `dwMinLen` turns are enough. -/
def disassembleAndSkip (dwMinLen : ℕ) : Skip :=
  skipLoop dis m pFunction dwMinLen dwMinLen ⟨0, 0, 0, []⟩

/-! ## What has been passed over -/

/-- The instructions stand one behind the other, from an offset on, and can all be moved. -/
def Movable : ℕ → List Instruction → Prop
  | _, [] => True
  | off, i :: is => dis.getInstruction m (pFunction + BitVec.ofNat 64 off) = some i ∧
      i.movable = true ∧ Movable (off + i.length) is

end Skipping

def totalLength (is : List Instruction) : ℕ := (is.map Instruction.length).sum

/-- What is taken down of the instructions that have to be patched: each displacement is taken to
begin at the fourth byte. -/
def ripsOf : ℕ → List Instruction → List RipInfo
  | _, [] => []
  | off, i :: is =>
    (if i.patched then [⟨off + 3, i.displacement⟩] else []) ++ ripsOf (off + i.length) is

/-- The displacements of the instructions that have to be patched, where they are. -/
def operandsOf : ℕ → List Instruction → List RipInfo
  | _, [] => []
  | off, i :: is =>
    (if i.patched then [⟨off + i.displacementOffset, i.displacement⟩] else []) ++
      operandsOf (off + i.length) is

/-- The displacement, counted from the entry of the function. -/
def RipInfo.adjusted (r : RipInfo) : ℤ := r.nDisplacement + (r.dwOffset - 3 : ℤ)

/-- What has been passed over is a number of whole instructions that can be moved, and everything
that has to be patched in them has been taken down and lies within the limits. -/
structure Skip.Sound (dis : Disassembler) (m : Memory) (pFunction : Address) (dwMinLen : ℕ)
    (is : List Instruction) (s : Skip) : Prop where
  movable : Movable dis m pFunction 0 is
  length : s.dwRet = totalLength is
  short : s.dwRet < dwMinLen + 15
  rips : s.pdata.rips = ripsOf 0 is
  within : ∀ r ∈ s.pdata.rips,
    s.pdata.nLimitDown ≤ r.adjusted ∧ r.adjusted ≤ s.pdata.nLimitUp
  down : -0x80000000 ≤ s.pdata.nLimitDown ∧ s.pdata.nLimitDown ≤ 0
  up : 0 ≤ s.pdata.nLimitUp ∧ s.pdata.nLimitUp < 0x80000000 + dwMinLen

section Passing

variable {dis : Disassembler} {m : Memory} {a : Address} {dwMinLen : ℕ} {s : Skip}
  {is : List Instruction} {i : Instruction}

theorem movable_concat {off : ℕ} (h : Movable dis m a off is)
    (hi : dis.getInstruction m (a + BitVec.ofNat 64 (off + totalLength is)) = some i)
    (hmovable : i.movable = true) : Movable dis m a off (is ++ [i]) := by
  induction is generalizing off with
  | nil => exact ⟨hi, hmovable, trivial⟩
  | cons j is ih =>
    obtain ⟨hj, hjmovable, hrest⟩ := h
    refine ⟨hj, hjmovable, ih hrest ?_⟩
    rwa [totalLength, List.map_cons, List.sum_cons, ← Nat.add_assoc] at hi

theorem ripsOf_concat (off : ℕ) (is : List Instruction) (i : Instruction) :
    ripsOf off (is ++ [i]) = ripsOf off is ++
      if i.patched then [⟨off + totalLength is + 3, i.displacement⟩] else [] := by
  induction is generalizing off with
  | nil => simp [ripsOf, totalLength]
  | cons j is ih =>
    rw [List.cons_append, ripsOf, ripsOf, ih, List.append_assoc]
    simp [totalLength, Nat.add_assoc]

/-- What has been taken down lies in the code that has been passed over. -/
theorem ripsOf_bounds {off : ℕ} (h : Movable dis m a off is) :
    ∀ r ∈ ripsOf off is, off + 3 ≤ r.dwOffset ∧ r.dwOffset ≤ off + totalLength is ∧
      -0x80000000 ≤ r.nDisplacement ∧ r.nDisplacement < 0x80000000 := by
  induction is generalizing off with
  | nil => simp [ripsOf]
  | cons i is ih =>
    obtain ⟨hi, -, hrest⟩ := h
    have hsum : totalLength (i :: is) = i.length + totalLength is := by simp [totalLength]
    intro r hr
    rw [ripsOf, List.mem_append] at hr
    rcases hr with hr | hr
    · by_cases hpatched : i.patched = true
      · rw [if_pos hpatched, List.mem_singleton] at hr
        subst hr
        have hseven := dis.patched_length _ _ _ hi hpatched
        refine ⟨le_refl _, ?_, dis.patched_displacement _ _ _ hi hpatched⟩
        dsimp only
        omega
      · rw [if_neg hpatched] at hr
        exact absurd hr (List.not_mem_nil)
    · obtain ⟨hlow, hhigh, hdisp⟩ := ih hrest r hr
      exact ⟨by omega, by omega, hdisp⟩

/-- What has been taken down is right exactly when every displacement begins at the fourth byte. -/
theorem ripsOf_eq_operandsOf_iff (off : ℕ) (is : List Instruction) :
    ripsOf off is = operandsOf off is ↔ ∀ i ∈ is, i.patched → i.displacementOffset = 3 := by
  induction is generalizing off with
  | nil => simp [ripsOf, operandsOf]
  | cons i is ih =>
    rw [ripsOf, operandsOf, List.forall_mem_cons, ← ih (off + i.length)]
    by_cases hpatched : i.patched = true
    · simp [hpatched, eq_comm (a := 3)]
    · simp [hpatched]

/-- The memory holds each displacement where it is. -/
theorem int32_of_mem_operandsOf {off : ℕ} (h : Movable dis m a off is) :
    ∀ r ∈ operandsOf off is,
      int32 m (a + BitVec.ofNat 64 r.dwOffset) = BitVec.ofInt 64 r.nDisplacement := by
  induction is generalizing off with
  | nil => simp [operandsOf]
  | cons i is ih =>
    obtain ⟨hi, -, hrest⟩ := h
    intro r hr
    rw [operandsOf, List.mem_append] at hr
    rcases hr with hr | hr
    · by_cases hpatched : i.patched = true
      · rw [if_pos hpatched, List.mem_singleton] at hr
        have hoperand := dis.patched_operand _ _ _ hi hpatched
        rw [BitVec.add_assoc, ← BitVec.ofNat_add] at hoperand
        rw [hr]
        exact hoperand
      · rw [if_neg hpatched] at hr
        exact absurd hr List.not_mem_nil
    · exact ih hrest r hr

theorem totalLength_concat (is : List Instruction) (i : Instruction) :
    totalLength (is ++ [i]) = totalLength is + i.length := by
  simp [totalLength]

/-- A turn after which there is another passes over one more instruction. -/
theorem skipTurn_goes_on {t : Skip} (h : skipTurn dis m a dwMinLen s = (t, true)) :
    ∃ i, dis.getInstruction m (a + BitVec.ofNat 64 s.dwRet) = some i ∧ i.movable = true ∧
      s.dwRet < dwMinLen ∧ t.dwRet = s.dwRet + i.length ∧
      (i.patched = false ∧ t.pdata = s.pdata ∨
        i.patched = true ∧ t.pdata = { s.pdata.widen (i.displacement + s.dwRet) with
          rips := s.pdata.rips ++ [⟨s.dwRet + 3, i.displacement⟩] }) := by
  unfold skipTurn at h
  by_cases hlt : s.dwRet < dwMinLen
  · rw [if_pos hlt] at h
    cases hi : dis.getInstruction m (a + BitVec.ofNat 64 s.dwRet) with
    | none => simp [hi] at h
    | some i =>
      by_cases hstops : i.stops = true
      · simp [hi, hstops] at h
      · refine ⟨i, rfl, ?_⟩
        simp only [hi] at h
        rw [if_neg hstops] at h
        cases hrip : i.processRip with
        | none => simp [hrip] at h
        | some bProcessRip =>
          have hmovable : i.movable = true := by simp [Instruction.movable, hstops, hrip]
          cases bProcessRip with
          | false =>
            have hpatched : i.patched = false := by simp [Instruction.patched, hrip]
            simp only [hrip, Prod.mk.injEq, and_true] at h
            subst h
            exact ⟨hmovable, hlt, rfl, .inl ⟨hpatched, rfl⟩⟩
          | true =>
            have hpatched : i.patched = true := by simp [Instruction.patched, hrip]
            by_cases hroom : (s.pdata.widen (i.displacement + s.dwRet)).rips.length < maxRips
            · simp only [hrip, hroom, if_true, Prod.mk.injEq, and_true] at h
              subst h
              exact ⟨hmovable, hlt, rfl, .inr ⟨hpatched, rfl⟩⟩
            · simp [hrip, hroom] at h
  · simp [hlt] at h

/-- The last turn passes over nothing; the limits may have been widened for an instruction there
was no room to take down. -/
theorem skipTurn_ends {t : Skip} (h : skipTurn dis m a dwMinLen s = (t, false)) :
    t = s ∨ ∃ i, dis.getInstruction m (a + BitVec.ofNat 64 s.dwRet) = some i ∧
      i.patched = true ∧ s.dwRet < dwMinLen ∧
      t = { s with pdata := s.pdata.widen (i.displacement + s.dwRet) } := by
  unfold skipTurn at h
  by_cases hlt : s.dwRet < dwMinLen
  · rw [if_pos hlt] at h
    cases hi : dis.getInstruction m (a + BitVec.ofNat 64 s.dwRet) with
    | none => simp_all
    | some i =>
      by_cases hstops : i.stops = true
      · simp_all
      · simp only [hi] at h
        rw [if_neg hstops] at h
        cases hrip : i.processRip with
        | none => simp_all
        | some bProcessRip =>
          cases bProcessRip with
          | false => simp [hrip] at h
          | true =>
            by_cases hroom : (s.pdata.widen (i.displacement + s.dwRet)).rips.length < maxRips
            · simp [hrip, hroom] at h
            · simp only [hrip, hroom, if_false, Prod.mk.injEq, and_true] at h
              exact .inr ⟨i, rfl, by simp [Instruction.patched, hrip], hlt, h.symm⟩
  · rw [if_neg hlt] at h
    exact .inl (Prod.mk.inj h).1.symm

theorem Skip.Sound.widen (h : s.Sound dis m a dwMinLen is) {d : ℤ} (hdown : -0x80000000 ≤ d)
    (hup : d < 0x80000000 + dwMinLen) :
    ({ s with pdata := s.pdata.widen d } : Skip).Sound dis m a dwMinLen is := by
  have hd := h.down
  have hu := h.up
  refine ⟨h.movable, h.length, h.short, h.rips, ?_, ?_, ?_⟩
  · intro r hr
    have := h.within r hr
    simp only [PatchData.widen]
    split_ifs <;> omega
  · simp only [PatchData.widen]
    split_ifs <;> omega
  · simp only [PatchData.widen]
    split_ifs <;> omega

theorem widen_within (p : PatchData) (d : ℤ) :
    (p.widen d).nLimitDown ≤ d ∧ d ≤ (p.widen d).nLimitUp := by
  simp only [PatchData.widen]
  split_ifs <;> omega

/-- Every turn keeps the account of what has been passed over. -/
theorem skipTurn_sound (h : s.Sound dis m a dwMinLen is) :
    ∃ is', (skipTurn dis m a dwMinLen s).1.Sound dis m a dwMinLen is' := by
  rcases hturn : skipTurn dis m a dwMinLen s with ⟨t, goesOn⟩
  cases goesOn with
  | false =>
    refine ⟨is, ?_⟩
    rcases skipTurn_ends hturn with rfl | ⟨i, hi, hpatched, hlt, rfl⟩
    · exact h
    · have hrange := dis.patched_displacement _ _ _ hi hpatched
      exact h.widen (by omega) (by omega)
  | true =>
    obtain ⟨i, hi, hmovable, hlt, hret, hdata⟩ := skipTurn_goes_on hturn
    have hmovables : Movable dis m a 0 (is ++ [i]) := by
      apply movable_concat h.movable _ hmovable
      rwa [Nat.zero_add, ← h.length]
    have hlength : t.dwRet = totalLength (is ++ [i]) := by
      rw [hret, totalLength_concat, h.length]
    have hshort : t.dwRet < dwMinLen + 15 := by
      have := dis.length_le _ _ _ hi
      omega
    refine ⟨is ++ [i], ?_⟩
    rcases hdata with ⟨hunpatched, hpdata⟩ | ⟨hpatched, hpdata⟩
    · have hrips : t.pdata.rips = ripsOf 0 (is ++ [i]) := by
        simp [hpdata, h.rips, ripsOf_concat, hunpatched]
      exact ⟨hmovables, hlength, hshort, hrips, hpdata ▸ h.within, hpdata ▸ h.down, hpdata ▸ h.up⟩
    · have hrange := dis.patched_displacement _ _ _ hi hpatched
      have hdown : -0x80000000 ≤ i.displacement + s.dwRet := by omega
      have hup : i.displacement + s.dwRet < 0x80000000 + dwMinLen := by omega
      have hwide := h.widen hdown hup
      have hrips : t.pdata.rips = ripsOf 0 (is ++ [i]) := by
        simp [hpdata, h.rips, ripsOf_concat, hpatched, h.length]
      refine ⟨hmovables, hlength, hshort, hrips, ?_, hpdata ▸ hwide.down, hpdata ▸ hwide.up⟩
      intro r hr
      rw [hpdata] at hr ⊢
      rcases List.mem_append.mp hr with hr | hr
      · exact hwide.within r hr
      · obtain rfl := List.mem_singleton.mp hr
        have := widen_within s.pdata (i.displacement + s.dwRet)
        simp only [RipInfo.adjusted]
        push_cast
        omega

theorem skipLoop_sound (h : s.Sound dis m a dwMinLen is) (n : ℕ) :
    ∃ is', (skipLoop dis m a dwMinLen n s).Sound dis m a dwMinLen is' := by
  induction n generalizing s is with
  | zero => exact ⟨is, h⟩
  | succ n ih =>
    obtain ⟨is', hturn⟩ := skipTurn_sound h
    rcases hstep : skipTurn dis m a dwMinLen s with ⟨t, goesOn⟩
    rw [hstep] at hturn
    cases goesOn with
    | false => exact ⟨is', by simpa [skipLoop, hstep] using hturn⟩
    | true => simpa [skipLoop, hstep] using ih hturn

/-- More turns than one for each byte wanted change nothing. -/
theorem skipLoop_enough {n : ℕ} (h : dwMinLen ≤ n + s.dwRet) :
    skipLoop dis m a dwMinLen (n + 1) s = skipLoop dis m a dwMinLen n s := by
  induction n generalizing s with
  | zero =>
    have hdone : ¬ s.dwRet < dwMinLen := by omega
    simp [skipLoop, skipTurn, hdone]
  | succ n ih =>
    rw [skipLoop, skipLoop]
    rcases hstep : skipTurn dis m a dwMinLen s with ⟨t, goesOn⟩
    cases goesOn with
    | false => rfl
    | true =>
      obtain ⟨i, hi, -, -, hret, -⟩ := skipTurn_goes_on hstep
      have hpos := dis.length_pos _ _ _ hi
      exact ih (by omega)

end Passing

theorem exists_sound (dis : Disassembler) (m : Memory) (a : Address) (dwMinLen : ℕ) :
    ∃ is, (disassembleAndSkip dis m a dwMinLen).Sound dis m a dwMinLen is := by
  have start : Skip.Sound dis m a dwMinLen [] ⟨0, 0, 0, []⟩ := by
    refine ⟨trivial, rfl, Nat.lt_add_left _ (by decide), rfl, ?_, by decide, Int.le_refl 0, ?_⟩
    · simp
    · exact Int.add_pos_of_pos_of_nonneg (by decide) (Int.natCast_nonneg _)
  exact skipLoop_sound start dwMinLen

/-- For every function, what is passed over at its entry is a number of whole instructions that
can be moved, at most fourteen bytes more than wanted. What is taken down is each displacement that
has to be patched in them, at its place, exactly when each of these begins at the fourth byte of its
instruction. There are turns enough for that. -/
theorem disassembleAndSkip_sound (dis : Disassembler) (m : Memory) (a : Address) (dwMinLen : ℕ) :
    (∃ is, (disassembleAndSkip dis m a dwMinLen).Sound dis m a dwMinLen is ∧
      ((disassembleAndSkip dis m a dwMinLen).pdata.rips = operandsOf 0 is ↔
        ∀ i ∈ is, i.patched → i.displacementOffset = 3) ∧
      ∀ r ∈ operandsOf 0 is,
        int32 m (a + BitVec.ofNat 64 r.dwOffset) = BitVec.ofInt 64 r.nDisplacement) ∧
      ∀ n, dwMinLen ≤ n →
        skipLoop dis m a dwMinLen n ⟨0, 0, 0, []⟩ = disassembleAndSkip dis m a dwMinLen := by
  refine ⟨?_, ?_⟩
  · obtain ⟨is, hsound⟩ := exists_sound dis m a dwMinLen
    have hrips := ripsOf_eq_operandsOf_iff 0 is
    rw [← hsound.rips] at hrips
    exact ⟨is, hsound, hrips, int32_of_mem_operandsOf hsound.movable⟩
  · intro n hn
    induction n, hn using Nat.le_induction with
    | base => rfl
    | succ n hn ih => rw [skipLoop_enough (Nat.le_add_right_of_le hn), ih]

/-- `movzx rax, byte ptr [rip + imm32]` is a `mov` with an opcode of two bytes. -/
example : ripsOf 0 [⟨.mov, true, 8, [⟨false, false⟩, ⟨true, true⟩], 0xff9, 4, 8⟩] ≠
    operandsOf 0 [⟨.mov, true, 8, [⟨false, false⟩, ⟨true, true⟩], 0xff9, 4, 8⟩] := by decide

/-- A disassembler that knows `mov rax, [rip + imm32]`, and no other instruction. -/
def movDisassembler : Disassembler where
  getInstruction m a := if read m a 3 = [0x48, 0x8b, 0x05] then
    some ⟨.mov, true, 8, [⟨false, false⟩, ⟨true, true⟩], (int32 m (a + 3)).toInt, 3, 7⟩ else none
  length_pos m a i h := by
    obtain ⟨-, rfl⟩ := Option.ite_none_right_eq_some.mp h |>.imp_right Option.some.inj
    exact Nat.succ_pos 6
  length_le m a i h := by
    obtain ⟨-, rfl⟩ := Option.ite_none_right_eq_some.mp h |>.imp_right Option.some.inj
    exact Nat.le_add_right 7 8
  patched_length m a i h _ := by
    obtain ⟨-, rfl⟩ := Option.ite_none_right_eq_some.mp h |>.imp_right Option.some.inj
    exact Nat.le_refl 7
  patched_displacement m a i h _ := by
    obtain ⟨-, rfl⟩ := Option.ite_none_right_eq_some.mp h |>.imp_right Option.some.inj
    have hsign : (int32 m (a + 3)).toInt =
        (BitVec.ofNat 32 (LittleEndian.value (read m (a + 3) 4))).toInt :=
      BitVec.toInt_signExtend_of_le (by decide)
    have hle := (BitVec.ofNat 32 (LittleEndian.value (read m (a + 3) 4))).le_two_mul_toInt
    have hlt := (BitVec.ofNat 32 (LittleEndian.value (read m (a + 3) 4))).two_mul_toInt_lt
    dsimp only
    omega
  patched_operand m a i h _ := by
    obtain ⟨-, rfl⟩ := Option.ite_none_right_eq_some.mp h |>.imp_right Option.some.inj
    rw [BitVec.ofInt_toInt]
    rfl

/-- A function that begins with such an instruction. -/
def movMemory : Memory :=
  write (fun _ => 0x90) 0x140001000 [0x48, 0x8b, 0x05, 0xf9, 0x0f, 0, 0]

example : disassembleAndSkip movDisassembler movMemory 0x140001000 jmpSize =
    ⟨7, ⟨0xff9, 0, [⟨3, 0xff9⟩]⟩⟩ := by decide

end ComputerLock.Mhook
