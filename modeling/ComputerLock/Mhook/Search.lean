import Mathlib.Algebra.Ring.Nat
import ComputerLock.Mhook.Disassembly

/-!
# Where trampolines go

`TrampolineAlloc` looks for free memory near the function that is hooked: near enough for the
short jumps between the two, and for the displacements of the instructions that are moved, which
narrow the window on either side.
-/

namespace ComputerLock.Mhook
open Library AddressSpace

/-! ## The trampoline -/

/-- `MHOOKS_MAX_CODE_BYTES` -/
def maxCodeBytes : ℕ := 32

/-- A field of `MHOOKS_TRAMPOLINE`, by its offset. -/
def field (pTrampoline : Address) (offset : ℕ) : Address := pTrampoline + BitVec.ofNat 64 offset

def codeJumpToHookFunction (pTrampoline : Address) : Address := field pTrampoline 24

def codeTrampoline (pTrampoline : Address) : Address := field pTrampoline 56

def codeUntouched (pTrampoline : Address) : Address := field pTrampoline 88

/-- `pTrampoline->pSystemFunction` -/
def pSystemFunction (m : Memory) (pTrampoline : Address) : Address :=
  pointer m (field pTrampoline 0)

/-- `pTrampoline->cbOverwrittenCode` -/
def cbOverwrittenCode (m : Memory) (pTrampoline : Address) : ℕ :=
  LittleEndian.value (read m (field pTrampoline 8) 4)

/-- `sizeof(MHOOKS_TRAMPOLINE)` -/
def trampolineSize : ℕ := 120

/-- What `VirtualAlloc` commits for a trampoline. -/
def pageSize : ℕ := 0x1000

/-! ## The search -/

/-- `dwAllocationGranularity` -/
def allocationGranularity : ℕ := 0x10000

/-- `MEMORY_BASIC_INFORMATION` -/
structure Region where
  baseAddress : Address
  regionSize : ℕ
  /-- `State == MEM_FREE` -/
  free : Bool

/-- The address space of the process as the system describes it; the region an address is in
covers it, and ends below the end of the address space. -/
structure Space where
  virtualQuery : Address → Option Region
  /-- whether memory is reserved at the address -/
  virtualAlloc : Address → Bool
  covers : ∀ a r, virtualQuery a = some r →
    r.baseAddress.toNat ≤ a.toNat ∧ a.toNat < r.baseAddress.toNat + r.regionSize ∧
      r.baseAddress.toNat + r.regionSize < 2 ^ 64

/-- `pLower` -/
def lowerBound (pSystemFunction : Address) (nLimitUp : ℤ) : Address :=
  let pLower := pSystemFunction + BitVec.ofInt 64 nLimitUp
  if pLower < 0x80000000 then 1 else pLower - 0x7fff0000

/-- `pUpper` -/
def upperBound (pSystemFunction : Address) (nLimitDown : ℤ) : Address :=
  let pUpper := pSystemFunction + BitVec.ofInt 64 nLimitDown
  if pUpper < 0xffffffff80000000 then pUpper + 0x7ff80000 else 0xfffffffffff80000

/-- The address rounded up to the allocation granularity. -/
def alignUp (pbAlloc : Address) : Address :=
  let granularity := BitVec.ofNat 64 allocationGranularity
  (pbAlloc + (granularity - 1)) / granularity * granularity

def searchLoop (space : Space) (pUpper : Address) : ℕ → Address → Option Address
  | 0, _ => none
  | n + 1, pbAlloc =>
    if pbAlloc < pUpper then
      match space.virtualQuery pbAlloc with
      | none => none
      | some mbi =>
        let next := mbi.baseAddress + BitVec.ofNat 64 mbi.regionSize
        if mbi.free ∧ trampolineSize ≤ mbi.regionSize ∧
            allocationGranularity ≤ mbi.regionSize ∧ space.virtualAlloc (alignUp pbAlloc) then
          some (alignUp pbAlloc)
        else searchLoop space pUpper n next
    else none

/-- Every turn looks at a higher address, so one turn for each address between the bounds is
enough. -/
def search (space : Space) (pSystemFunction : Address) (nLimitUp nLimitDown : ℤ) :
    Option Address :=
  let pLower := lowerBound pSystemFunction nLimitUp
  let pUpper := upperBound pSystemFunction nLimitDown
  searchLoop space pUpper (pUpper.toNat - pLower.toNat) pLower

/-! ## The window -/

section Window

variable {space : Space} {p pUpper T S : Address} {n : ℕ} {up down : ℤ}

theorem toNat_next {r : Region} (h : space.virtualQuery p = some r) :
    p.toNat < (r.baseAddress + BitVec.ofNat 64 r.regionSize).toNat := by
  obtain ⟨-, hlt, hend⟩ := space.covers _ _ h
  rw [BitVec.toNat_add, BitVec.toNat_ofNat]
  omega

/-- More turns than addresses between the bounds change nothing. -/
theorem searchLoop_enough (h : pUpper.toNat - p.toNat ≤ n) :
    searchLoop space pUpper (n + 1) p = searchLoop space pUpper n p := by
  induction n generalizing p with
  | zero =>
    have hdone : ¬ p < pUpper := by
      rw [BitVec.lt_def]
      omega
    rw [searchLoop, searchLoop, if_neg hdone]
  | succ n ih =>
    rw [searchLoop, searchLoop]
    split_ifs with hlt
    · cases hquery : space.virtualQuery p with
      | none => rfl
      | some r =>
        have hnext := toNat_next hquery
        have hlt := BitVec.lt_def.mp hlt
        dsimp only
        split_ifs
        · rfl
        · exact ih (by omega)
    · rfl

theorem toNat_alignUp (h : p.toNat < 0xffffffffffff0000) :
    (alignUp p).toNat = (p.toNat + 0xffff) / 0x10000 * 0x10000 := by
  have hgranularity : BitVec.ofNat 64 allocationGranularity = 0x10000#64 := rfl
  have hsum : (p + 0xffff#64).toNat = p.toNat + 0xffff := by
    rw [BitVec.toNat_add, BitVec.toNat_ofNat]
    omega
  have hdiv : ((p + 0xffff#64) / 0x10000#64).toNat = (p.toNat + 0xffff) / 0x10000 := by
    rw [BitVec.toNat_udiv, hsum]
    rfl
  have hfit : (p.toNat + 0xffff) / 0x10000 * 0x10000 < 2 ^ 64 := by omega
  have haligned : alignUp p = (p + 0xffff#64) / 0x10000#64 * 0x10000#64 := rfl
  rw [haligned, BitVec.toNat_mul, hdiv]
  exact Nat.mod_eq_of_lt hfit

theorem toNat_add_ofInt {d : ℤ} (hlow : 0 ≤ S.toNat + d)
    (hhigh : S.toNat + d < 0x10000000000000000) :
    ((S + BitVec.ofInt 64 d).toNat : ℤ) = S.toNat + d := by
  rw [BitVec.toNat_add, BitVec.toNat_ofInt]
  omega

/-- What has been found was looked for between the bounds. -/
theorem searchLoop_found (h : searchLoop space pUpper n p = some T) :
    space.virtualAlloc T = true ∧
      ∃ q, T = alignUp q ∧ p.toNat ≤ q.toNat ∧ q.toNat < pUpper.toNat := by
  induction n generalizing p with
  | zero => cases h
  | succ n ih =>
    rw [searchLoop] at h
    split_ifs at h with hlt
    cases hquery : space.virtualQuery p with
    | none => simp [hquery] at h
    | some r =>
      simp only [hquery] at h
      split_ifs at h with hfree
      · obtain rfl := Option.some.inj h
        exact ⟨hfree.2.2.2, p, rfl, le_refl _, BitVec.lt_def.mp hlt⟩
      · obtain ⟨halloc, q, hq, hle, hlt'⟩ := ih h
        have hnext := toNat_next hquery
        exact ⟨halloc, q, hq, by omega, hlt'⟩

/-- The lower bound lies above the null page, unless everything below is near. -/
theorem le_lowerBound (S : Address) (hup : 0 ≤ up) (hS : S.toNat + up < 0x10000000000000000) :
    0 < (lowerBound S up).toNat ∧ (S.toNat : ℤ) + up ≤ (lowerBound S up).toNat + 0x7fffffff ∧
      (0x80000000 ≤ S.toNat + up →
        (S.toNat : ℤ) + up = (lowerBound S up).toNat + 0x7fff0000) := by
  have hsum := toNat_add_ofInt (S := S) (d := up) (by omega) hS
  unfold lowerBound
  dsimp only
  split_ifs with hlt
  · have hlt : (S + BitVec.ofInt 64 up).toNat < 0x80000000 := BitVec.lt_def.mp hlt
    rw [show (1 : Address).toNat = 1 from rfl]
    omega
  · have hle : 0x80000000 ≤ (S + BitVec.ofInt 64 up).toNat := Nat.le_of_not_lt hlt
    have hsub := toNat_sub_cases 0x7fff0000 (S + BitVec.ofInt 64 up)
    rw [show (0x7fff0000 : Address).toNat = 0x7fff0000 from rfl] at hsub
    omega

theorem upperBound_eq (S : Address) (hbelow : 0 ≤ S.toNat + down)
    (hS : S.toNat + down < 0xffffffff80000000) :
    ((upperBound S down).toNat : ℤ) = S.toNat + down + 0x7ff80000 := by
  have hsum := toNat_add_ofInt (S := S) (d := down) hbelow (by omega)
  have hlt : S + BitVec.ofInt 64 down < 0xffffffff80000000 := by
    apply BitVec.lt_def.mpr
    rw [show (0xffffffff80000000 : Address).toNat = 0xffffffff80000000 from rfl]
    omega
  have hadd : (S + BitVec.ofInt 64 down + 0x7ff80000).toNat =
      (S + BitVec.ofInt 64 down).toNat + 0x7ff80000 := by
    rw [BitVec.toNat_add, show (0x7ff80000 : Address).toNat = 0x7ff80000 from rfl]
    omega
  unfold upperBound
  dsimp only
  rw [if_pos hlt, hadd]
  omega

/-- The trampoline can be reached from the function and from everything the moved instructions
refer to. -/
structure InReach (S T : Address) (up down : ℤ) : Prop where
  above : 0x10000 ≤ T.toNat
  upwards : S.toNat + up - T.toNat ≤ 0x7fff0000
  downwards : T.toNat - (S.toNat + down) ≤ 0x7ff8fffe

/-- The bounds leave room for the rounding. -/
theorem search_inReach (hS : S.toNat < 0x800000000000) (hup : 0 ≤ up ∧ up < 0x80000005)
    (hdown : down ≤ 0) (hbelow : 0 ≤ S.toNat + down) (h : search space S up down = some T) :
    space.virtualAlloc T = true ∧ InReach S T up down := by
  obtain ⟨halloc, q, rfl, hlow, hhigh⟩ := searchLoop_found h
  have hlower := le_lowerBound S hup.1 (by omega)
  have hupper := upperBound_eq S hbelow (by omega)
  have haligned := toNat_alignUp (p := q) (by omega)
  refine ⟨halloc, ?_, ?_, ?_⟩
  · omega
  · omega
  · omega

end Window

/-- A single free region below the modules of a process. -/
def lowSpace : Space where
  virtualQuery a := if 0x10000 ≤ a.toNat ∧ a.toNat < 0x140000000 then
    some ⟨0x10000, 0x13fff0000, true⟩ else none
  virtualAlloc a := a = 0xc0020000
  covers a r h := by
    obtain ⟨hrange, rfl⟩ := Option.ite_none_right_eq_some.mp h |>.imp_right Option.some.inj
    dsimp only
    rw [show (0x10000 : Address).toNat = 0x10000 from rfl]
    omega

/-! ## What is within reach -/

section Reach

variable {S T : Address} {up down : ℤ} {len : ℕ}

/-- From the entry of the function to the stub of the trampoline. -/
theorem InReach.jumpLength_stub (h : InReach S T up down) (hS : S.toNat < 0x800000000000)
    (hup : 0 ≤ up) (hdown : down ≤ 0) : jumpLength S (codeJumpToHookFunction T) = 5 := by
  have hT := h.downwards
  have hT' := h.upwards
  have hfrom : (S + 5).toNat = S.toNat + 5 := by
    rw [BitVec.toNat_add, show (5 : Address).toNat = 5 from rfl]
    omega
  have hto : (codeJumpToHookFunction T).toNat = T.toNat + 24 := by
    rw [codeJumpToHookFunction, field, BitVec.toNat_add, BitVec.toNat_ofNat]
    omega
  have hcases := distance_cases (S + 5) (codeJumpToHookFunction T)
  have hnear : distance (S + 5) (codeJumpToHookFunction T) ≤ nearLimit := by
    unfold nearLimit
    omega
  rw [jumpLength, if_pos hnear]

/-- From behind the moved instructions to behind the jump at the entry. -/
theorem InReach.jumpLength_back (h : InReach S T up down) (hS : S.toNat < 0x800000000000)
    (hup : 0 ≤ up) (hdown : down ≤ 0) (hlen : len < 0x10000) :
    jumpLength (codeTrampoline T + BitVec.ofNat 64 len) (S + BitVec.ofNat 64 len) = 5 := by
  have hT := h.downwards
  have hT' := h.upwards
  have hfrom : (codeTrampoline T + BitVec.ofNat 64 len + 5).toNat = T.toNat + 61 + len := by
    rw [codeTrampoline, field, BitVec.toNat_add, BitVec.toNat_add, BitVec.toNat_add,
      BitVec.toNat_ofNat, BitVec.toNat_ofNat, show (5 : Address).toNat = 5 from rfl]
    omega
  have hto : (S + BitVec.ofNat 64 len).toNat = S.toNat + len := by
    rw [BitVec.toNat_add, BitVec.toNat_ofNat]
    omega
  have hcases := distance_cases (codeTrampoline T + BitVec.ofNat 64 len + 5)
    (S + BitVec.ofNat 64 len)
  have hnear : distance (codeTrampoline T + BitVec.ofNat 64 len + 5)
      (S + BitVec.ofNat 64 len) ≤ nearLimit := by
    unfold nearLimit
    omega
  rw [jumpLength, if_pos hnear]

/-- A displacement that has been taken into account when memory was looked for stays within
31 bits. -/
theorem InReach.displacement (h : InReach S T up down) {d : ℤ} {off : ℕ} (hoff : off < 20)
    (hd : -0x80000000 ≤ d ∧ d < 0x80000000) (hdown : down ≤ d + off) (hup : d + off ≤ up) :
    (BitVec.ofInt 64 d - (codeTrampoline T - S)).toNat < 2 ^ 31 ∨
      2 ^ 64 - 2 ^ 31 ≤ (BitVec.ofInt 64 d - (codeTrampoline T - S)).toNat := by
  have hT := h.downwards
  have hT' := h.upwards
  have hS := S.isLt
  have hTlt := T.isLt
  have hsum : (codeTrampoline T).toNat = (T.toNat + 56) % 2 ^ 64 := by
    rw [codeTrampoline, field, BitVec.toNat_add, BitVec.toNat_ofNat]
  have hdiff := toNat_sub_cases S (codeTrampoline T)
  have hnew := toNat_sub_cases (codeTrampoline T - S) (BitVec.ofInt 64 d)
  have hdisp : (BitVec.ofInt 64 d).toNat = (d % 0x10000000000000000).toNat := by
    rw [BitVec.toNat_ofInt]
    rfl
  omega

end Reach

end ComputerLock.Mhook
