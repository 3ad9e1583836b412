import ComputerLock.Mhook.Execution

/-!
# Hooks that stay

Whatever other hooks are set, refused and taken back in the meantime, a hook that is in place
gets the calls of its function, and its trampoline does what the function did when the hook was
set.
-/

namespace ComputerLock.Mhook
open Library AddressSpace

/-- No code is hooked that lies in a trampoline. -/
def Engine.Separate (e : Engine) : Prop :=
  ∀ T ∈ e.hooked, ∀ T' ∈ e.hooked, (zoneOf e.memory T).Apart (pageOf T')

/-- Besides, no function is hooked that lies in a trampoline. -/
structure Allowed (dis : Disassembler) (code : Address → Prop) (steady : ℕ → Prop) (e : Engine)
    (c : Call) : Prop extends Admitted dis code steady e c where
  outside : ∀ w n pp pHook, c = .setHook w n pp pHook → ∀ S,
    skipJumps e.memory n pp = some S → ∀ T ∈ e.hooked,
      Zone.Apart ⟨S, (disassembleAndSkip dis e.memory S jmpSize).dwRet⟩ (pageOf T)

/-- The code of the hook is what it was: that which has been overwritten, and the trampoline. -/
def Untouched (e e' : Engine) (T : Address) : Prop :=
  ∀ x, Within (zoneOf e.memory T).start (zoneOf e.memory T).length x ∨ Within T pageSize x →
    e'.memory x = e.memory x

section Steps

variable {dis : Disassembler} {code : Address → Prop} {steady : ℕ → Prop} {w : Surroundings}
  {e e' : Engine} {m m' m₀ : Memory} {S H T T' : Address} {skip : Skip} {len : ℕ}
  {is : List Instruction}

theorem Untouched.zoneOf (h : Untouched e e' T) (hshort : cbOverwrittenCode e.memory T ≤
    maxCodeBytes) : Mhook.zoneOf e'.memory T = Mhook.zoneOf e.memory T := by
  refine (patchOf_congr ?_ ?_ hshort).1
  · exact fun x hx => h x (.inr (hx.mono (by decide)))
  · exact fun x hx => h x (.inr (within_page_of_saved hx))

theorem HookSet.untouched (hset : HookSet w e e' S H T skip is) (hsound : e.Sound)
    (hadmits : e.Admits w S H skip) (houtside : Zone.Apart ⟨S, skip.dwRet⟩ (pageOf T'))
    (hT' : T' ∈ e.hooked) : Untouched e e' T' := by
  obtain ⟨-, -, hpages⟩ := hadmits.free T hset.allocated
  have hzones := hadmits.elsewhere T hset.allocated
  intro x hx
  rcases hx with hx | hx
  · exact hset.same hadmits.fits (fun hx' => hadmits.zones T' hT' x hx' hx) (hzones T' hT' x hx)
  · exact hset.same hadmits.fits (fun hx' => houtside x hx' hx)
      fun hx' => hpages T' (hsound.allocated T' hT') x hx' hx

theorem HookTaken.untouched (htaken : HookTaken w e e' T) (hsound : e.Sound)
    (hseparate : e.Separate) (hT : T ∈ e.hooked) (hT' : T' ∈ e.hooked) (hne : T' ≠ T) :
    Untouched e e' T' := by
  intro x hx
  apply htaken.same
  intro hx'
  rcases hx with hx | hx
  · exact hsound.zones T' hT' T hT hne x hx hx'
  · exact hseparate T hT T' hT' x hx' hx

theorem HookSet.separate (hset : HookSet w e e' S H T skip is) (hsound : e.Sound)
    (hadmits : e.Admits w S H skip) (hseparate : e.Separate)
    (houtside : ∀ T' ∈ e.hooked, Zone.Apart ⟨S, skip.dwRet⟩ (pageOf T')) : e'.Separate := by
  have hzone := (hadmits.free T hset.allocated).1
  have hzones := hadmits.elsewhere T hset.allocated
  have hold : ∀ T' ∈ e.hooked, Mhook.zoneOf e'.memory T' = Mhook.zoneOf e.memory T' :=
    fun T' hT' => (hset.others hsound hadmits hT').1
  intro T₁ h₁ T₂ h₂
  rcases List.mem_cons.mp (hset.hooked.mem_iff.mp h₁) with rfl | h₁ <;>
    rcases List.mem_cons.mp (hset.hooked.mem_iff.mp h₂) with rfl | h₂
  · rw [hset.zoneOf_new]
    exact hzone
  · rw [hset.zoneOf_new]
    exact houtside T₂ h₂
  · rw [hold T₁ h₁]
    exact hzones T₁ h₁
  · rw [hold T₁ h₁]
    exact hseparate T₁ h₁ T₂ h₂

theorem HookTaken.separate (htaken : HookTaken w e e' T) (hsound : e.Sound)
    (hseparate : e.Separate) (hT : T ∈ e.hooked) : e'.Separate := by
  have hmem : ∀ {T'}, T' ∈ e'.hooked → T' ∈ e.hooked := fun {T'} hT' =>
    htaken.hooked.mem_iff.mpr (List.mem_cons_of_mem T hT')
  intro T₁ h₁ T₂ h₂
  rw [(htaken.others hsound hT (hmem h₁)).1]
  exact hseparate T₁ (hmem h₁) T₂ (hmem h₂)

/-- A call leaves every hook alone that is in place before and after it, and gives the memory of
no trampoline to another one. -/
theorem step_untouched {c : Call} (hsound : e.Sound) (hseparate : e.Separate)
    (hallowed : Allowed dis code steady e c) (hstep : e.step dis c = some e') :
    e'.Sound ∧ e'.Separate ∧ ∀ T ∈ e.pages, T ∈ e'.pages ∧
      (T ∈ e'.hooked → T ∈ e.hooked ∧ Untouched e e' T) := by
  rcases Engine.step_cases hsound hallowed.toAdmitted hstep with
    ⟨hrefused, hadmits⟩ | ⟨w, n, pp, pHook, S, H, T, is, rfl, hS, hadmits, hset⟩ |
      ⟨T, hT, htaken⟩
  · have hhooked := hooked_eq hrefused.pHooks
    have huntouched : ∀ T ∈ e.hooked, Untouched e e' T := fun T hT x hx =>
      hrefused.untouched hsound hadmits hT hx
    refine ⟨(hrefused.keeps hsound hadmits).1, ?_, ?_⟩
    · intro T₁ h₁ T₂ h₂
      rw [hhooked] at h₁ h₂
      rw [(huntouched T₁ h₁).zoneOf (hsound.short T₁ h₁)]
      exact hseparate T₁ h₁ T₂ h₂
    · intro T hT
      rw [hrefused.pages, hhooked]
      exact ⟨hT, fun hmem => ⟨hmem, huntouched T hmem⟩⟩
  · have hout := hallowed.outside w n pp pHook rfl S hS
    refine ⟨hset.sound hsound hadmits, hset.separate hsound hadmits hseparate hout, ?_⟩
    intro T' hT'
    rw [hset.pages]
    refine ⟨List.mem_cons_of_mem T hT', fun hmem => ?_⟩
    rcases List.mem_cons.mp (hset.hooked.mem_iff.mp hmem) with rfl | hmem
    · -- the memory of the new trampoline was free
      have hapart := (hadmits.free T' hset.allocated).2.2 T' hT'
      exact absurd hapart (Zone.not_apart_self (show 0 < pageSize by decide))
    · exact ⟨hmem, hset.untouched hsound hadmits (hout T' hmem) hmem⟩
  · refine ⟨htaken.sound hsound hT, htaken.separate hsound hseparate hT, ?_⟩
    intro T' hT'
    rw [htaken.pages]
    refine ⟨hT', fun hmem => ?_⟩
    have hold : T' ∈ e.hooked := htaken.hooked.mem_iff.mpr (List.mem_cons_of_mem T hmem)
    have hne : T' ≠ T := by
      rintro rfl
      exact (List.nodup_cons.mp (htaken.hooked.nodup_iff.mp hsound.nodup)).1 hmem
    exact ⟨hold, htaken.untouched hsound hseparate hT hold hne⟩

/-- What a hook consists of lies in the code that has been overwritten and in the trampoline. -/
theorem InPlace.congr (h : InPlace m₀ m S H T len is) (hlength : len = totalLength is)
    (hshort : len < 20) (hentry : jumpLength S (entryTarget S H T) ≤ len)
    (hsame : ∀ x, Within S len x ∨ Within T pageSize x → m' x = m x) :
    InPlace m₀ m' S H T len is where
  entry := by
    rw [← h.entry]
    exact read_congr fun x hx => hsame x (.inl (hx.mono hentry))
  stub hfar := by
    have hjump := jumpLength_le (codeJumpToHookFunction T) H
    rw [← h.stub hfar]
    exact read_congr fun x hx => hsame x (.inr (hx.of_add (by unfold pageSize; omega)))
  code := by
    apply h.code.congr
    intro x hx
    rw [BitVec.add_zero] at hx
    exact hsame x (.inr (hx.of_add (by unfold pageSize; omega)))
  back := by
    rw [← h.back]
    apply read_congr
    intro x hx
    have hcode : Within (codeTrampoline T) (len + 5) x := hx.of_add (le_refl _)
    exact hsame x (.inr (hcode.of_add (by unfold pageSize; omega)))

/-- `SkipJumps` goes on from the function to the hook. -/
theorem InPlace.skipJumps (h : InPlace m₀ m S H T len is) :
    ∃ k ≤ 2, ∀ n, Mhook.skipJumps m (n + k) S = Mhook.skipJumps m n H := by
  obtain ⟨hjump, hstub⟩ := h.jumps
  by_cases hfar : far S H
  · have htarget : entryTarget S H T = codeJumpToHookFunction T := if_pos hfar
    rw [htarget] at hjump
    refine ⟨2, le_refl 2, fun n => ?_⟩
    rw [skipJumps_of_target hjump, skipJumps_of_target (hstub hfar)]
  · have htarget : entryTarget S H T = H := if_neg hfar
    rw [htarget] at hjump
    exact ⟨1, by decide, fun n => skipJumps_of_target hjump n⟩

end Steps

/-! ## Runs -/

/-- The trampoline is not given to another hook, and as long as its hook is in the table it is in
place. -/
structure Standing (m₀ : Memory) (S H T : Address) (len : ℕ) (is : List Instruction)
    (e : Engine) : Prop where
  sound : e.Sound
  separate : e.Separate
  allocated : T ∈ e.pages
  inPlace : T ∈ e.hooked → InPlace m₀ e.memory S H T len is ∧ zoneOf e.memory T = ⟨S, len⟩

section Runs

variable {dis : Disassembler} {code : Address → Prop} {steady : ℕ → Prop} {w : Surroundings}
  {e₀ e₁ e₂ e e' : Engine} {m₀ : Memory} {S H T : Address} {skip : Skip} {len : ℕ}
  {is : List Instruction}

theorem HookSet.standing (hset : HookSet w e e' S H T skip is) (hsound : e.Sound)
    (hseparate : e.Separate) (hadmits : e.Admits w S H skip)
    (houtside : ∀ T' ∈ e.hooked, Zone.Apart ⟨S, skip.dwRet⟩ (pageOf T')) :
    Standing e.memory S H T skip.dwRet is e' where
  sound := hset.sound hsound hadmits
  separate := hset.separate hsound hadmits hseparate houtside
  allocated := by
    rw [hset.pages]
    exact List.mem_cons_self
  inPlace _ := ⟨hset.installed.toInPlace, hset.zoneOf_new⟩

theorem Standing.step {c : Call} (h : Standing m₀ S H T len is e)
    (hlength : len = totalLength is) (hshort : len < 20)
    (hentry : jumpLength S (entryTarget S H T) ≤ len)
    (hallowed : Allowed dis code steady e c) (hstep : e.step dis c = some e') :
    Standing m₀ S H T len is e' := by
  obtain ⟨hsound, hseparate, hkept⟩ :=
    step_untouched h.sound h.separate hallowed hstep
  obtain ⟨hallocated, hhooked⟩ := hkept T h.allocated
  refine ⟨hsound, hseparate, hallocated, fun hT => ?_⟩
  obtain ⟨hold, huntouched⟩ := hhooked hT
  obtain ⟨hplace, hzone⟩ := h.inPlace hold
  refine ⟨?_, (huntouched.zoneOf (h.sound.short T hold)).trans hzone⟩
  apply hplace.congr hlength hshort hentry
  intro x hx
  apply huntouched
  rwa [hzone]

end Runs

end ComputerLock.Mhook
