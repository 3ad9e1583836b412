import ComputerLock.Mhook.Search

/-!
# Installing a hook

What `Mhook_SetHook` writes: the code it is about to overwrite is copied to the trampoline and
patched there, a jump leads from the trampoline back to the function, and one leads from the
entry of the function to the hook, over a stub in the trampoline when the hook is far away.
-/

namespace ComputerLock.Mhook
open Library AddressSpace

/-! ## Steps -/

/-- The loop that saves the original code, to both places at once. -/
def copyCode (m : Memory) (pSystem pTrampoline : Address) (dwInstructionLength : ℕ) : Memory :=
  (List.range dwInstructionLength).foldl (fun m i =>
    let b := m (pSystem + BitVec.ofNat 64 i)
    let m := write m (codeTrampoline pTrampoline + BitVec.ofNat 64 i) [b]
    write m (codeUntouched pTrampoline + BitVec.ofNat 64 i) [b]) m

/-- `dwNewDisplacement` -/
def newDisplacement (pbNew pbOriginal : Address) (nDisplacement : ℤ) : Address :=
  BitVec.ofInt 64 nDisplacement - (pbNew - pbOriginal)

/-- The displacement survives in 32 bits. -/
def Fits (d : Address) : Prop := (BitVec.ofNat 32 d.toNat).signExtend 64 = d

instance (d : Address) : Decidable (Fits d) := inferInstanceAs (Decidable (_ = _))

def fixupIPRelativeAddressing (m : Memory) (pbNew pbOriginal : Address) (rips : List RipInfo) :
    Memory :=
  rips.foldl (fun m r =>
    write m (pbNew + BitVec.ofNat 64 r.dwOffset)
      (LittleEndian.bytes 4 (newDisplacement pbNew pbOriginal r.nDisplacement).toNat)) m

/-- `dwDistance > 0x7fff0000` -/
def far (pSystem pHook : Address) : Prop := nearLimit < distance pSystem pHook

instance (pSystem pHook : Address) : Decidable (far pSystem pHook) :=
  inferInstanceAs (Decidable (_ < _))

/-- Where the jump at the entry leads. -/
def entryTarget (pSystem pHook pTrampoline : Address) : Address :=
  if far pSystem pHook then codeJumpToHookFunction pTrampoline else pHook

def updateEntry (m : Memory) (pSystem pHook pTrampoline : Address) : Memory :=
  if far pSystem pHook then
    let m := (emitJump m (codeJumpToHookFunction pTrampoline) pHook).1
    (emitJump m pSystem (codeJumpToHookFunction pTrampoline)).1
  else (emitJump m pSystem pHook).1

def updateFields (m : Memory) (pSystem pHook pTrampoline : Address) (dwInstructionLength : ℕ) :
    Memory :=
  let m := write m (field pTrampoline 8) (LittleEndian.bytes 4 dwInstructionLength)
  let m := write m (field pTrampoline 0) (LittleEndian.bytes 8 pSystem.toNat)
  write m (field pTrampoline 16) (LittleEndian.bytes 8 pHook.toNat)

/-- A new page is filled with zeros. -/
def commit (m : Memory) (pTrampoline : Address) : Memory :=
  fun x => if Within pTrampoline pageSize x then 0 else m x

/-- Everything that is written once both protections are off. -/
def install (m : Memory) (pSystem pHook pTrampoline : Address) (skip : Skip) : Memory :=
  let m := copyCode m pSystem pTrampoline skip.dwRet
  let pbCode := codeTrampoline pTrampoline + BitVec.ofNat 64 skip.dwRet
  let m := (emitJump m pbCode (pSystem + BitVec.ofNat 64 skip.dwRet)).1
  let m := fixupIPRelativeAddressing m (codeTrampoline pTrampoline) pSystem skip.pdata.rips
  let m := updateEntry m pSystem pHook pTrampoline
  updateFields m pSystem pHook pTrampoline skip.dwRet

/-! ## What a step leaves alone -/

section Frames

variable {m : Memory} {S H T x : Address} {n off : ℕ} {is : List Instruction}

theorem copyCode_of_not_within (h : ¬ Within (codeTrampoline T) n x)
    (h' : ¬ Within (codeUntouched T) n x) : copyCode m S T n x = m x := by
  induction n with
  | zero => rfl
  | succ n ih =>
    have hcode : ¬ Within (codeTrampoline T + BitVec.ofNat 64 n) 1 x := fun hx =>
      h (hx.of_add (le_refl _))
    have hsaved : ¬ Within (codeUntouched T + BitVec.ofNat 64 n) 1 x := fun hx =>
      h' (hx.of_add (le_refl _))
    have hbefore : copyCode m S T n x = m x :=
      ih (fun hx => h (hx.mono (Nat.le_succ n))) fun hx => h' (hx.mono (Nat.le_succ n))
    rw [copyCode, List.range_succ, List.foldl_append]
    exact (write_of_not_within hsaved).trans ((write_of_not_within hcode).trans hbefore)

/-- Only the operands of the instructions are written to. -/
theorem fixup_of_not_within (pbOriginal : Address)
    (hlen : ∀ i ∈ is, i.patched → 7 ≤ i.length)
    (h : ¬ Within (T + BitVec.ofNat 64 off) (totalLength is) x) :
    fixupIPRelativeAddressing m T pbOriginal (ripsOf off is) x = m x := by
  induction is generalizing off m with
  | nil => rfl
  | cons i is ih =>
    have hsum : totalLength (i :: is) = i.length + totalLength is := by simp [totalLength]
    have hrest : ¬ Within (T + BitVec.ofNat 64 (off + i.length)) (totalLength is) x := by
      rw [BitVec.ofNat_add, ← BitVec.add_assoc]
      exact fun hx => h (hx.of_add (le_of_eq hsum.symm))
    have htail : ∀ j ∈ is, j.patched → 7 ≤ j.length := fun j hj => hlen j (by simp [hj])
    by_cases hpatched : i.patched = true
    · have hseven := hlen i (by simp) hpatched
      have hoperand : ¬ Within (T + BitVec.ofNat 64 (off + 3)) 4 x := by
        rw [BitVec.ofNat_add, ← BitVec.add_assoc]
        exact fun hx => h (hx.of_add (by omega))
      rw [ripsOf, if_pos hpatched, fixupIPRelativeAddressing, List.singleton_append,
        List.foldl_cons]
      apply (ih htail hrest).trans
      exact write_of_not_within (by rwa [LittleEndian.length_bytes])
    · rw [ripsOf, if_neg hpatched]
      exact ih htail hrest

theorem updateEntry_of_not_within
    (h : ¬ Within S (jumpLength S (entryTarget S H T)) x)
    (hstub : ¬ Within (codeJumpToHookFunction T) 14 x) : updateEntry m S H T x = m x := by
  unfold updateEntry entryTarget at *
  split_ifs at * with hfar
  · have hshort : ¬ Within (codeJumpToHookFunction T)
        (jumpLength (codeJumpToHookFunction T) H) x := fun hx =>
      hstub (hx.mono (jumpLength_le _ _))
    exact (emitJump_of_not_within h).trans (emitJump_of_not_within hshort)
  · exact emitJump_of_not_within h

theorem updateFields_of_not_within (h : ¬ Within T 24 x) : updateFields m S H T n x = m x := by
  have hnumber : ¬ Within (field T 8) 4 x := fun hx => h (hx.of_add (by decide))
  have hfunction : ¬ Within (field T 0) 8 x := fun hx => h (hx.of_add (by decide))
  have hhook : ¬ Within (field T 16) 8 x := fun hx => h (hx.of_add (by decide))
  have hbytes := fun k n => LittleEndian.length_bytes k n
  unfold updateFields
  rw [write_of_not_within (by rwa [hbytes]), write_of_not_within (by rwa [hbytes]),
    write_of_not_within (by rwa [hbytes])]

end Frames

/-! ## What a step leaves behind -/

/-- The bytes of a moved instruction: its operand is where it was before. -/
def Instruction.moved (i : Instruction) (pbNew pbOriginal : Address) (code : List UInt8) :
    List UInt8 :=
  if i.patched then
    code.take 3 ++
      LittleEndian.bytes 4 (newDisplacement pbNew pbOriginal i.displacement).toNat ++
      code.drop 7
  else code

/-- The instructions from the given offset on are the ones of the function, moved. -/
def Moved (m m' : Memory) (pbNew pbOriginal : Address) : ℕ → List Instruction → Prop
  | _, [] => True
  | off, i :: is =>
    read m' (pbNew + BitVec.ofNat 64 off) i.length =
      i.moved pbNew pbOriginal (read m (pbOriginal + BitVec.ofNat 64 off) i.length) ∧
    Moved m m' pbNew pbOriginal (off + i.length) is

section Contents

variable {m m' m₀ : Memory} {S H T x : Address} {n off : ℕ} {is : List Instruction}

theorem apart_field {i k j n : ℕ} (hi : i + k ≤ j) (hj : j + n ≤ trampolineSize) :
    Apart (field T i) k (field T j) n := by
  unfold trampolineSize at hj
  exact apart_add_add hi (by omega)

/-- The original code is in both places, as long as they are apart from it. -/
theorem copyCode_copies (hcode : Apart S n (codeTrampoline T) n)
    (hsaved : Apart S n (codeUntouched T) n) (hn : n ≤ maxCodeBytes) :
    read (copyCode m S T n) (codeTrampoline T) n = read m S n ∧
      read (copyCode m S T n) (codeUntouched T) n = read m S n := by
  induction n with
  | zero => exact ⟨rfl, rfl⟩
  | succ n ih =>
    unfold maxCodeBytes at hn ih
    obtain ⟨ihcode, ihsaved⟩ := ih (hcode.mono (Nat.le_succ n) (Nat.le_succ n))
      (hsaved.mono (Nat.le_succ n) (Nat.le_succ n)) (by omega)
    have hbyte : copyCode m S T n (S + BitVec.ofNat 64 n) = m (S + BitVec.ofNat 64 n) := by
      have hmem := within_add S (Nat.lt_succ_self n)
      exact copyCode_of_not_within (fun hx => hcode _ hmem (hx.mono (Nat.le_succ n)))
        fun hx => hsaved _ hmem (hx.mono (Nat.le_succ n))
    have hstep : copyCode m S T (n + 1) =
        write (write (copyCode m S T n) (codeTrampoline T + BitVec.ofNat 64 n)
          [m (S + BitVec.ofNat 64 n)]) (codeUntouched T + BitVec.ofNat 64 n)
          [m (S + BitVec.ofNat 64 n)] := by
      conv_lhs => rw [copyCode, List.range_succ, List.foldl_append]
      rw [← hbyte]
      rfl
    have hplaces : Apart (codeTrampoline T) (n + 1) (codeUntouched T) (n + 1) :=
      apart_field (by omega) (by unfold trampolineSize; omega)
    have hown (a : Address) (b : UInt8) (m : Memory) :
        read (write m (a + BitVec.ofNat 64 n) [b]) a (n + 1) = read m a n ++ [b] := by
      rw [read_add, read_one, write_self,
        read_write_of_apart (apart_add (le_refl n) (by simp; omega))]
    rw [hstep]
    refine ⟨?_, ?_⟩
    · rw [read_write_of_apart (hplaces.right_of_add (by simp)), hown, ihcode, read_add m S n 1,
        read_one]
    · have hother : read (write (copyCode m S T n) (codeTrampoline T + BitVec.ofNat 64 n)
          [m (S + BitVec.ofNat 64 n)]) (codeUntouched T) n = read m S n := by
        rw [read_write_of_apart ?_, ihsaved]
        exact (hplaces.symm.mono (Nat.le_succ n) (le_refl _)).right_of_add (by simp)
      rw [hown, hother, read_add m S n 1, read_one]

theorem Moved.congr (h : Moved m m₀ T S off is)
    (hsame : ∀ x, Within (T + BitVec.ofNat 64 off) (totalLength is) x → m' x = m₀ x) :
    Moved m m' T S off is := by
  induction is generalizing off with
  | nil => trivial
  | cons i is ih =>
    have hsum : totalLength (i :: is) = i.length + totalLength is := by simp [totalLength]
    refine ⟨?_, ih h.2 ?_⟩
    · rw [← h.1]
      exact read_congr fun x hx => hsame x (hx.mono (by omega))
    · intro x hx
      rw [BitVec.ofNat_add, ← BitVec.add_assoc] at hx
      exact hsame x (hx.of_add (le_of_eq hsum.symm))

theorem Moved.congr_original (h : Moved m m' T S off is)
    (hsame : ∀ x, Within (S + BitVec.ofNat 64 off) (totalLength is) x → m x = m₀ x) :
    Moved m₀ m' T S off is := by
  induction is generalizing off with
  | nil => trivial
  | cons i is ih =>
    have hsum : totalLength (i :: is) = i.length + totalLength is := by simp [totalLength]
    refine ⟨?_, ih h.2 ?_⟩
    · rw [h.1, read_congr fun x hx => hsame x (hx.mono (by omega))]
    · intro x hx
      rw [BitVec.ofNat_add, ← BitVec.add_assoc] at hx
      exact hsame x (hx.of_add (le_of_eq hsum.symm))

/-- Patching the operands of copied instructions moves them. -/
theorem fixup_moved (hlen : ∀ i ∈ is, i.patched → 7 ≤ i.length)
    (hbound : off + totalLength is ≤ maxCodeBytes)
    (hcopy : read m₀ (T + BitVec.ofNat 64 off) (totalLength is) =
      read m (S + BitVec.ofNat 64 off) (totalLength is)) :
    Moved m (fixupIPRelativeAddressing m₀ T S (ripsOf off is)) T S off is := by
  induction is generalizing off m₀ with
  | nil => trivial
  | cons i is ih =>
    have hsum : totalLength (i :: is) = i.length + totalLength is := by simp [totalLength]
    have htail : ∀ j ∈ is, j.patched → 7 ≤ j.length := fun j hj => hlen j (by simp [hj])
    unfold maxCodeBytes at hbound ih
    rw [hsum, read_add, read_add, BitVec.add_assoc, BitVec.add_assoc, ← BitVec.ofNat_add] at hcopy
    obtain ⟨hfirst, hrest⟩ := List.append_inj hcopy (by simp)
    have hbehind : Apart (T + BitVec.ofNat 64 off) i.length
        (T + BitVec.ofNat 64 (off + i.length)) (totalLength is) :=
      apart_add_add (le_refl _) (by omega)
    by_cases hpatched : i.patched = true
    · have hseven := hlen i (by simp) hpatched
      let bs := LittleEndian.bytes 4 (newDisplacement T S i.displacement).toNat
      have hfix : fixupIPRelativeAddressing m₀ T S (ripsOf off (i :: is)) =
          fixupIPRelativeAddressing (write m₀ (T + BitVec.ofNat 64 (off + 3)) bs) T S
            (ripsOf (off + i.length) is) := by
        rw [ripsOf, if_pos hpatched]
        rfl
      have hplace : T + BitVec.ofNat 64 (off + 3) =
          T + BitVec.ofNat 64 off + BitVec.ofNat 64 3 := by
        rw [BitVec.ofNat_add, BitVec.add_assoc]
      have hbs : bs.length = 4 := LittleEndian.length_bytes 4 _
      have hown : read (write m₀ (T + BitVec.ofNat 64 (off + 3)) bs) (T + BitVec.ofNat 64 off)
          i.length = i.moved T S (read m (S + BitVec.ofNat 64 off) i.length) := by
        rw [hplace, read_write_middle (by omega) (by omega), hfirst, hbs, Instruction.moved,
          if_pos hpatched]
      have hothers : read (write m₀ (T + BitVec.ofNat 64 (off + 3)) bs)
          (T + BitVec.ofNat 64 (off + i.length)) (totalLength is) =
          read m (S + BitVec.ofNat 64 (off + i.length)) (totalLength is) := by
        rw [hplace, read_write_of_apart (hbehind.symm.right_of_add (by omega)), hrest]
      rw [hfix]
      refine ⟨?_, ih htail (by omega) hothers⟩
      rw [← hown]
      exact read_congr fun x hx => fixup_of_not_within S htail (hbehind x hx)
    · have hfix : fixupIPRelativeAddressing m₀ T S (ripsOf off (i :: is)) =
          fixupIPRelativeAddressing m₀ T S (ripsOf (off + i.length) is) := by
        rw [ripsOf, if_neg hpatched, List.nil_append]
      have hown : read m₀ (T + BitVec.ofNat 64 off) i.length =
          i.moved T S (read m (S + BitVec.ofNat 64 off) i.length) := by
        rw [hfirst, Instruction.moved, if_neg hpatched]
      rw [hfix]
      refine ⟨?_, ih htail (by omega) hrest⟩
      rw [← hown]
      exact read_congr fun x hx => fixup_of_not_within S htail (hbehind x hx)

theorem updateEntry_jumps (hapart : Apart S (jumpLength S (entryTarget S H T)) T trampolineSize) :
    read (updateEntry m S H T) S (jumpLength S (entryTarget S H T)) =
        jumpCode S (entryTarget S H T) ∧
      (far S H → read (updateEntry m S H T) (codeJumpToHookFunction T)
        (jumpLength (codeJumpToHookFunction T) H) = jumpCode (codeJumpToHookFunction T) H) := by
  have hlength := jumpLength_le (codeJumpToHookFunction T) H
  unfold updateEntry entryTarget at *
  split_ifs at * with hfar
  · refine ⟨read_emitJump _ _ _, fun _ => ?_⟩
    rw [← read_emitJump m]
    refine read_congr fun x hx => emitJump_of_not_within fun hx' => hapart x hx' ?_
    exact hx.of_add (by unfold trampolineSize; omega)
  · exact ⟨read_emitJump _ _ _, fun h => absurd h hfar⟩

/-- The fields say what has been overwritten. -/
theorem updateFields_fields (hn : n < 0x100000000) :
    pSystemFunction (updateFields m S H T n) T = S ∧
      cbOverwrittenCode (updateFields m S H T n) T = n := by
  have hnumber : Apart (field T 8) 4 (field T 16) 8 := apart_field (by decide) (by decide)
  have hnumber' : Apart (field T 0) 8 (field T 8) 4 := apart_field (by decide) (by decide)
  have hfunction : Apart (field T 0) 8 (field T 16) 8 := apart_field (by decide) (by decide)
  have hlength := fun k n => LittleEndian.length_bytes k n
  refine ⟨?_, ?_⟩
  · apply pointer_of_read
    rw [updateFields, read_write_of_apart (by rwa [hlength])]
    exact read_write_self (by simp)
  · have hread : read (updateFields m S H T n) (field T 8) 4 = LittleEndian.bytes 4 n := by
      rw [updateFields, read_write_of_apart (by rwa [hlength]),
        read_write_of_apart (by rw [hlength]; exact hnumber'.symm)]
      exact read_write_self (by simp)
    rw [cbOverwrittenCode, hread, LittleEndian.value_bytes (by omega)]

end Contents

/-! ## The hook is in place -/

/-- The function begins with a jump towards the hook, and the trampoline with what the function
began with, moved, and a jump to what follows. -/
structure InPlace (m m' : Memory) (S H T : Address) (len : ℕ) (is : List Instruction) : Prop where
  entry : read m' S (jumpLength S (entryTarget S H T)) = jumpCode S (entryTarget S H T)
  stub : far S H → read m' (codeJumpToHookFunction T)
    (jumpLength (codeJumpToHookFunction T) H) = jumpCode (codeJumpToHookFunction T) H
  code : Moved m m' (codeTrampoline T) S 0 is
  back : read m' (codeTrampoline T + BitVec.ofNat 64 len) 5 =
    jumpCode (codeTrampoline T + BitVec.ofNat 64 len) (S + BitVec.ofNat 64 len)

/-- The hook is in place and can be taken back, and nothing else has changed. -/
structure Installed (m m' : Memory) (S H T : Address) (len : ℕ) (is : List Instruction) : Prop
    extends InPlace m m' S H T len is where
  saved : read m' (codeUntouched T) len = read m S len
  function : pSystemFunction m' T = S
  number : cbOverwrittenCode m' T = len
  frame : ∀ x, ¬ Within S (jumpLength S (entryTarget S H T)) x → ¬ Within T pageSize x →
    m' x = m x

section Installation

variable {dis : Disassembler} {m : Memory} {S H T : Address} {skip : Skip}
  {is : List Instruction}

theorem seven_le_of_movable {off : ℕ} (h : Movable dis m S off is) :
    ∀ i ∈ is, i.patched → 7 ≤ i.length := by
  induction is generalizing off with
  | nil => simp
  | cons j is ih =>
    obtain ⟨hj, -, hrest⟩ := h
    intro i hi hpatched
    rcases List.mem_cons.mp hi with rfl | hi
    · exact dis.patched_length _ _ _ hj hpatched
    · exact ih hrest i hi hpatched

theorem within_field {offset n : ℕ} {x : Address} (h : Within (field T offset) n x)
    (hle : offset + n ≤ trampolineSize) : Within T trampolineSize x :=
  h.of_add hle

/-- The steps do not get in each other's way. -/
theorem install_installed (hlength : skip.dwRet = totalLength is) (hshort : skip.dwRet < 20)
    (hrips : skip.pdata.rips = ripsOf 0 is) (hseven : ∀ i ∈ is, i.patched → 7 ≤ i.length)
    (hback : jumpLength (codeTrampoline T + BitVec.ofNat 64 skip.dwRet)
      (S + BitVec.ofNat 64 skip.dwRet) = 5)
    (hzone : Apart S skip.dwRet T trampolineSize)
    (hentry : Apart S (jumpLength S (entryTarget S H T)) T trampolineSize) :
    Installed m (install m S H T skip) S H T skip.dwRet is := by
  have hsize : trampolineSize = 120 := rfl
  set len := skip.dwRet
  set pbCode := codeTrampoline T + BitVec.ofNat 64 len with hpbCode
  -- the memory after each of the steps
  set m₁ := copyCode m S T len with hm₁
  set m₂ := (emitJump m₁ pbCode (S + BitVec.ofNat 64 len)).1 with hm₂
  set m₃ := fixupIPRelativeAddressing m₂ (codeTrampoline T) S (ripsOf 0 is) with hm₃
  set m₄ := updateEntry m₃ S H T with hm₄
  have hinstall : install m S H T skip = updateFields m₄ S H T len := by
    rw [install, hrips]
  have hpbBlock {x : Address} (hx : Within pbCode 5 x) : Within (codeTrampoline T) (len + 5) x :=
    hx.of_add (le_refl _)
  have hfix {x : Address} (hx : ¬ Within (codeTrampoline T) len x) : m₃ x = m₂ x := by
    apply fixup_of_not_within S hseven
    rwa [BitVec.add_zero, ← hlength]
  have hemit {x : Address} (hx : ¬ Within pbCode 5 x) : m₂ x = m₁ x :=
    emitJump_of_not_within (by rwa [hback])
  -- the later steps write to the first fields only
  have hlate {x : Address} (hx : Within (codeTrampoline T) 64 x) :
      updateFields m₄ S H T len x = m₃ x := by
    have hblock : Within T trampolineSize x := within_field hx (by decide)
    have hstub := (apart_field (T := T) (i := 24) (k := 14) (j := 56) (n := 64) (by decide)
      (by decide)).symm x hx
    have hfields : ¬ Within T 24 x := fun hx' =>
      apart_field (T := T) (i := 0) (k := 24) (j := 56) (n := 64) (by decide) (by decide) x
        (by rwa [field, BitVec.add_zero]) hx
    exact (updateFields_of_not_within hfields).trans
      (updateEntry_of_not_within (fun hx' => hentry x hx' hblock) hstub)
  have hcopies : read m₁ (codeTrampoline T) len = read m S len ∧
      read m₁ (codeUntouched T) len = read m S len := by
    apply copyCode_copies
    · exact hzone.right_of_add (by omega)
    · exact hzone.right_of_add (by omega)
    · unfold maxCodeBytes
      omega
  obtain ⟨hjump, hstub⟩ := updateEntry_jumps (m := m₃) hentry
  obtain ⟨hfunction, hnumber⟩ := updateFields_fields (m := m₄) (S := S) (H := H) (T := T)
    (show len < 0x100000000 by omega)
  rw [hinstall]
  refine ⟨⟨?_, ?_, ?_, ?_⟩, ?_, hfunction, hnumber, ?_⟩
  · rw [← hjump]
    refine read_congr fun x hx => updateFields_of_not_within fun hx' => hentry x hx ?_
    exact hx'.mono (by omega)
  · intro hfar
    rw [← hstub hfar]
    refine read_congr fun x hx => updateFields_of_not_within fun hx' => ?_
    have hlength := jumpLength_le (codeJumpToHookFunction T) H
    exact apart_field (T := T) (i := 0) (k := 24) (j := 24) (n := 14) (by decide) (by decide) x
      (by rwa [field, BitVec.add_zero]) (hx.mono hlength)
  · have hmoved : Moved m m₃ (codeTrampoline T) S 0 is := by
      apply fixup_moved hseven
      · unfold maxCodeBytes
        omega
      · rw [BitVec.add_zero, BitVec.add_zero, ← hlength, ← hcopies.1]
        exact read_congr fun x hx => hemit fun hx' => apart_add (le_refl len) (by omega) x hx hx'
    apply hmoved.congr
    intro x hx
    rw [BitVec.add_zero, ← hlength] at hx
    exact hlate (hx.mono (by omega))
  · have hemitted : read m₂ pbCode 5 = jumpCode pbCode (S + BitVec.ofNat 64 len) := by
      have hread := read_emitJump m₁ pbCode (S + BitVec.ofNat 64 len)
      rwa [hback] at hread
    rw [← hemitted]
    refine read_congr fun x hx => (hlate ((hpbBlock hx).mono (by omega))).trans (hfix ?_)
    exact fun hx' => apart_add (le_refl len) (by omega) x hx' hx
  · rw [← hcopies.2]
    have hplaces : Apart (codeTrampoline T) (len + 5) (codeUntouched T) len :=
      apart_field (by omega) (by omega)
    refine read_congr fun x hx => (hlate ?_).trans ((hfix ?_).trans (hemit ?_))
    · have hsum : codeUntouched T = codeTrampoline T + BitVec.ofNat 64 32 := by
        rw [codeUntouched, codeTrampoline, field, field, BitVec.add_assoc]
        rfl
      rw [hsum] at hx
      exact hx.of_add (by omega)
    · exact fun hx' => hplaces x (hx'.mono (by omega)) hx
    · exact fun hx' => hplaces x (hpbBlock hx') hx
  · intro x hx hpage
    have hblock : ¬ Within T trampolineSize x := fun hx' => hpage (hx'.mono (by decide))
    have hcode {k : ℕ} (hk : k ≤ 32) : ¬ Within (codeTrampoline T) k x := fun hx' =>
      hblock (within_field hx' (by omega))
    have hsaved : ¬ Within (codeUntouched T) len x := fun hx' =>
      hblock (within_field hx' (by omega))
    calc updateFields m₄ S H T len x = m₄ x :=
          updateFields_of_not_within fun hx' => hblock (hx'.mono (by omega))
      _ = m₃ x := updateEntry_of_not_within hx fun hx' => hblock (within_field hx' (by decide))
      _ = m₂ x := hfix (hcode (by omega))
      _ = m₁ x := hemit fun hx' => hcode (by omega) (hpbBlock hx')
      _ = m x := copyCode_of_not_within (hcode (by omega)) hsaved

/-- The operands of the moved instructions can be reached from the trampoline. -/
theorem InReach.fits (h : InReach S T skip.pdata.nLimitUp skip.pdata.nLimitDown)
    (hsound : skip.Sound dis m S jmpSize is) :
    ∀ r ∈ ripsOf 0 is, Fits (newDisplacement (codeTrampoline T) S r.nDisplacement) := by
  intro r hr
  obtain ⟨hlow, hhigh, hdisp⟩ := ripsOf_bounds hsound.movable r hr
  have hshort : skip.dwRet < 20 := hsound.short
  have hlength := hsound.length
  have hwithin := hsound.within r (hsound.rips ▸ hr)
  rw [RipInfo.adjusted] at hwithin
  apply signExtend_ofNat_toNat
  have hoff : r.dwOffset - 3 < 20 := by omega
  exact h.displacement hoff hdisp (by omega) (by omega)

/-- Memory that has been found can be reached: by the jump at the entry, by the jump back, and by
the operands of the moved instructions. -/
theorem search_reaches {space : Space} (dis : Disassembler) (m : Memory)
    (hS : S.toNat < 0x800000000000)
    (hbelow : 0 ≤ S.toNat + (disassembleAndSkip dis m S jmpSize).pdata.nLimitDown)
    (h : search space S (disassembleAndSkip dis m S jmpSize).pdata.nLimitUp
      (disassembleAndSkip dis m S jmpSize).pdata.nLimitDown = some T) :
    space.virtualAlloc T = true ∧ jumpLength S (codeJumpToHookFunction T) = 5 ∧
      (∀ len < 0x10000, jumpLength (codeTrampoline T + BitVec.ofNat 64 len)
        (S + BitVec.ofNat 64 len) = 5) ∧
      ∀ r ∈ (disassembleAndSkip dis m S jmpSize).pdata.rips,
        Fits (newDisplacement (codeTrampoline T) S r.nDisplacement) := by
  obtain ⟨is, hsound⟩ := exists_sound dis m S jmpSize
  have hup := hsound.up
  simp only [jmpSize] at hup
  obtain ⟨halloc, hreach⟩ := search_inReach hS ⟨hup.1, by omega⟩ hsound.down.2 hbelow h
  refine ⟨halloc, hreach.jumpLength_stub hS hup.1 hsound.down.2, ?_, ?_⟩
  · intro len hlen
    exact hreach.jumpLength_back hS hup.1 hsound.down.2 hlen
  · rw [hsound.rips]
    exact hreach.fits hsound

theorem search_reaches_mov :
    lowSpace.virtualAlloc 0xc0020000 = true ∧
      jumpLength 0x140001000 (codeJumpToHookFunction 0xc0020000) = 5 ∧
      (∀ len < 0x10000, jumpLength (codeTrampoline 0xc0020000 + BitVec.ofNat 64 len)
        (0x140001000 + BitVec.ofNat 64 len) = 5) ∧
      ∀ r ∈ (disassembleAndSkip movDisassembler movMemory 0x140001000 jmpSize).pdata.rips,
        Fits (newDisplacement (codeTrampoline 0xc0020000) 0x140001000 r.nDisplacement) :=
  search_reaches movDisassembler movMemory (by decide) (by decide) rfl

/-- The page is filled with zeros before, and the code is elsewhere. -/
theorem Installed.of_commit {m' : Memory} {len : ℕ}
    (h : Installed (commit m T) m' S H T len is) (hlength : len = totalLength is)
    (hzone : Apart S len T pageSize) : Installed m m' S H T len is := by
  have hsame : ∀ x, ¬ Within T pageSize x → commit m T x = m x := fun x hx => if_neg hx
  refine ⟨⟨h.entry, h.stub, ?_, h.back⟩, ?_, h.function, h.number, ?_⟩
  · apply h.code.congr_original
    intro x hx
    rw [BitVec.add_zero, ← hlength] at hx
    exact hsame x (hzone x hx)
  · rw [h.saved]
    exact read_congr fun x hx => hsame x (hzone x hx)
  · intro x hx hpage
    rw [h.frame x hx hpage, hsame x hpage]

end Installation

end ComputerLock.Mhook
