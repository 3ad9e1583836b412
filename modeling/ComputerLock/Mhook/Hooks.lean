import ComputerLock.Library.Patches
import ComputerLock.Library.Runs
import ComputerLock.Mhook.Outcome

/-!
# Hooks that come and go

A hook is a patch of the memory that can be taken back: the trampoline remembers what was
overwritten. Whatever hooks are set and taken back, in whatever order, the code of the process
without them stays what it was.
-/

namespace ComputerLock.Mhook
open Library AddressSpace

/-- The hook with the given trampoline, as a patch. -/
def patchOf (m : Memory) (pTrampoline : Address) : Patch 64 :=
  ⟨pSystemFunction m pTrampoline,
    read m (codeUntouched pTrampoline) (cbOverwrittenCode m pTrampoline)⟩

def Engine.patches (e : Engine) : List (Patch 64) := e.hooked.map (patchOf e.memory)

/-- The memory as it would be without the hooks. -/
def Engine.unhooked (e : Engine) : Memory := Patch.original e.memory e.patches

/-! ## What a call keeps -/

section Keeping

variable {dis : Disassembler} {w : Surroundings} {e e' : Engine} {m m' : Memory}
  {S H T T' x : Address} {skip : Skip} {is : List Instruction}

theorem patchOf_apart_iff :
    (patchOf m T).Apart (patchOf m T') ↔ (zoneOf m T).Apart (zoneOf m T') := by
  simp [Patch.Apart, patchOf, Zone.Apart, zoneOf]

/-- A hook is what its trampoline says. -/
theorem patchOf_congr (hfields : ∀ x, Within T 24 x → m' x = m x)
    (hsaved : ∀ x, Within (codeUntouched T) maxCodeBytes x → m' x = m x)
    (hshort : cbOverwrittenCode m T ≤ maxCodeBytes) :
    zoneOf m' T = zoneOf m T ∧ patchOf m' T = patchOf m T := by
  have hread {o k : ℕ} (hle : o + k ≤ 24) : read m' (field T o) k = read m (field T o) k :=
    read_congr fun x hx => hfields x (hx.of_add hle)
  have hfunction : pSystemFunction m' T = pSystemFunction m T := by
    rw [pSystemFunction, pSystemFunction, pointer, pointer, hread (by decide)]
  have hnumber : cbOverwrittenCode m' T = cbOverwrittenCode m T := by
    rw [cbOverwrittenCode, cbOverwrittenCode, hread (by decide)]
  have hcode : read m' (codeUntouched T) (cbOverwrittenCode m T) =
      read m (codeUntouched T) (cbOverwrittenCode m T) :=
    read_congr fun x hx => hsaved x (hx.mono hshort)
  refine ⟨?_, ?_⟩
  · rw [zoneOf, zoneOf, hfunction, hnumber]
  · rw [patchOf, patchOf, hfunction, hnumber, hcode]

theorem within_page_of_saved (h : Within (codeUntouched T) maxCodeBytes x) :
    Within T pageSize x :=
  h.of_add (by decide)

theorem hooked_eq (h : e'.pHooks = e.pHooks) : e'.hooked = e.hooked := by
  rw [Engine.hooked, Engine.hooked, h]

/-- When the hooks that are in place are the same as before, they are still in order. -/
theorem Engine.Sound.of_same (hsound : e.Sound) (hpHooks : e'.pHooks = e.pHooks)
    (hnumber : e'.nHooksInUse = e.nHooksInUse) (hpages : e'.pages = e.pages)
    (hthreads : e'.threads.Agrees w.view.Steady e.threads)
    (hmemory : ∀ T ∈ e.hooked, ∀ x, Within T pageSize x → e'.memory x = e.memory x) :
    e'.Sound ∧ e'.patches = e.patches := by
  have hhooked := hooked_eq hpHooks
  have hsame : ∀ T ∈ e.hooked, zoneOf e'.memory T = zoneOf e.memory T ∧
      patchOf e'.memory T = patchOf e.memory T := by
    intro T hT
    apply patchOf_congr
    · exact fun x hx => hmemory T hT x (hx.mono (by decide))
    · exact fun x hx => hmemory T hT x (within_page_of_saved hx)
    · exact hsound.short T hT
  refine ⟨⟨?_, ?_, ?_, ?_, ?_, ?_, ?_, ?_, ?_, ?_⟩, ?_⟩
  · rw [hpHooks, hsound.slots]
  · rw [hnumber, hhooked, hsound.inUse]
  · rw [hhooked]
    exact hsound.nodup
  · exact ⟨hthreads.handles.trans hsound.idle.handles, hthreads.number.trans hsound.idle.number⟩
  · rw [hhooked, hpages]
    exact hsound.allocated
  · rw [hpages]
    exact hsound.pages
  · intro T hT T' hT' hne
    rw [hhooked] at hT hT'
    rw [(hsame T hT).1, (hsame T' hT').1]
    exact hsound.zones T hT T' hT' hne
  · intro T hT T' hT'
    rw [hhooked] at hT hT'
    rw [(hsame T hT).1]
    exact hsound.fields T hT T' hT'
  · intro T hT T' hT'
    rw [hhooked] at hT hT'
    rw [(hsame T hT).1]
    exact hsound.saved T hT T' hT'
  · intro T hT
    rw [hhooked] at hT
    have hzone : cbOverwrittenCode e'.memory T = cbOverwrittenCode e.memory T :=
      congrArg Zone.length (hsame T hT).1
    rw [hzone]
    exact hsound.short T hT
  · rw [Engine.patches, Engine.patches, hhooked]
    exact List.map_congr_left fun T hT => (hsame T hT).2

/-! ### Refusals -/

/-- A page that was free is nobody's. -/
theorem Refused.same (hrefused : Refused w e e')
    (hfree : ∀ T, w.space.virtualAlloc T = true → ¬ Within T pageSize x) :
    e'.memory x = e.memory x := by
  rcases hrefused.memory with hsame | ⟨T, halloc, hcommit⟩
  · rw [hsame]
  · rw [hcommit]
    exact if_neg (hfree T halloc)

/-- What a call may use leaves the code that is hooked and the trampolines alone. -/
theorem Refused.untouched (hrefused : Refused w e e') (hsound : e.Sound)
    (hadmits : e'.memory = e.memory ∨ ∃ S H skip, e.Admits w S H skip) (hT : T ∈ e.hooked)
    (hx : Within (zoneOf e.memory T).start (zoneOf e.memory T).length x ∨ Within T pageSize x) :
    e'.memory x = e.memory x := by
  rcases hadmits with hsame | ⟨S, H, skip, hadmits⟩
  · rw [hsame]
  · apply hrefused.same
    intro T' halloc hx'
    obtain ⟨-, -, hpages⟩ := hadmits.free T' halloc
    rcases hx with hx | hx
    · exact hadmits.elsewhere T' halloc T hT x hx hx'
    · exact hpages T (hsound.allocated T hT) x hx' hx

theorem Refused.keeps (hrefused : Refused w e e') (hsound : e.Sound)
    (hadmits : e'.memory = e.memory ∨ ∃ S H skip, e.Admits w S H skip) :
    e'.Sound ∧ ∀ x, (∀ T, w.space.virtualAlloc T = true → ¬ Within T pageSize x) →
      e'.unhooked x = e.unhooked x := by
  obtain ⟨hsound', hpatches⟩ := hsound.of_same hrefused.pHooks hrefused.nHooksInUse
    hrefused.pages hrefused.threads fun T hT x hx =>
      hrefused.untouched hsound hadmits hT (.inr hx)
  refine ⟨hsound', ?_⟩
  intro x hx
  rw [Engine.unhooked, Engine.unhooked, hpatches]
  exact Patch.original_congr (hrefused.same hx) _

/-! ### Hooks that are set -/

theorem HookSet.hooked (hset : HookSet w e e' S H T skip is) :
    e'.hooked.Perm (T :: e.hooked) := by
  obtain ⟨i, hi, hslots⟩ := hset.pHooks
  rw [Engine.hooked, hslots]
  exact Slots.reduceOption_set_some hi T

/-- What is neither overwritten nor in the page of the trampoline is left alone. -/
theorem HookSet.same (hset : HookSet w e e' S H T skip is)
    (fits : far S H ∨ jumpLength S H ≤ skip.dwRet) (hzone : ¬ Within S skip.dwRet x)
    (hpage : ¬ Within T pageSize x) : e'.memory x = e.memory x :=
  hset.installed.frame x (fun hx => hzone (hx.mono (hset.entry_le fits))) hpage

theorem HookSet.zoneOf_new (hset : HookSet w e e' S H T skip is) :
    zoneOf e'.memory T = ⟨S, skip.dwRet⟩ := by
  rw [zoneOf, hset.installed.function, hset.installed.number]

/-- The trampolines of the other hooks are left alone. -/
theorem HookSet.others (hset : HookSet w e e' S H T skip is) (hsound : e.Sound)
    (hadmits : e.Admits w S H skip) (hT' : T' ∈ e.hooked) :
    zoneOf e'.memory T' = zoneOf e.memory T' ∧ patchOf e'.memory T' = patchOf e.memory T' := by
  have hpage : ∀ x, Within T' pageSize x → ¬ Within T pageSize x := fun x hx hx' =>
    (hadmits.free T hset.allocated).2.2 T' (hsound.allocated T' hT') x hx' hx
  apply patchOf_congr
  · intro x hx
    exact hset.same hadmits.fits (fun hx' => hadmits.fields T' hT' x hx' hx)
      (hpage x (hx.mono (by decide)))
  · intro x hx
    exact hset.same hadmits.fits (fun hx' => hadmits.saved T' hT' x hx' hx)
      (hpage x (within_page_of_saved hx))
  · exact hsound.short T' hT'

theorem HookSet.sound (hset : HookSet w e e' S H T skip is) (hsound : e.Sound)
    (hadmits : e.Admits w S H skip) : e'.Sound := by
  have hmem : ∀ {T'}, T' ∈ e'.hooked ↔ T' = T ∨ T' ∈ e.hooked := fun {T'} => by
    rw [hset.hooked.mem_iff, List.mem_cons]
  have hfree := hadmits.free T hset.allocated
  have helsewhere := hadmits.elsewhere T hset.allocated
  have hold : ∀ T' ∈ e.hooked, zoneOf e'.memory T' = zoneOf e.memory T' := fun T' hT' =>
    (hset.others hsound hadmits hT').1
  have hshort := hset.short
  obtain ⟨i, hi, hslots⟩ := hset.pHooks
  refine ⟨?_, ?_, ?_, ?_, ?_, ?_, ?_, ?_, ?_, ?_⟩
  · rw [hslots, List.length_set, hsound.slots]
  · rw [hset.nHooksInUse, hset.hooked.length_eq, hsound.inUse, List.length_cons]
  · rw [hset.hooked.nodup_iff, List.nodup_cons]
    exact ⟨hadmits.new hsound hset.allocated, hsound.nodup⟩
  · exact ⟨hset.threads.handles.trans hsound.idle.handles,
      hset.threads.number.trans hsound.idle.number⟩
  · intro T' hT'
    rw [hset.pages]
    rcases hmem.mp hT' with rfl | hT'
    · exact List.mem_cons_self
    · exact List.mem_cons_of_mem T (hsound.allocated T' hT')
  · rw [hset.pages, List.pairwise_cons]
    exact ⟨hfree.2.2, hsound.pages⟩
  · intro T₁ h₁ T₂ h₂ hne
    rcases hmem.mp h₁ with rfl | h₁ <;> rcases hmem.mp h₂ with rfl | h₂
    · exact absurd rfl hne
    · rw [hset.zoneOf_new, hold T₂ h₂]
      exact hadmits.zones T₂ h₂
    · rw [hset.zoneOf_new, hold T₁ h₁]
      exact (hadmits.zones T₁ h₁).symm
    · rw [hold T₁ h₁, hold T₂ h₂]
      exact hsound.zones T₁ h₁ T₂ h₂ hne
  · intro T₁ h₁ T₂ h₂
    rcases hmem.mp h₁ with rfl | h₁ <;> rcases hmem.mp h₂ with rfl | h₂
    · rw [hset.zoneOf_new]
      exact hfree.1.mono (le_refl _) (show 24 ≤ pageSize by decide)
    · rw [hset.zoneOf_new]
      exact hadmits.fields T₂ h₂
    · rw [hold T₁ h₁]
      exact (helsewhere T₁ h₁).mono (le_refl _) (show 24 ≤ pageSize by decide)
    · rw [hold T₁ h₁]
      exact hsound.fields T₁ h₁ T₂ h₂
  · intro T₁ h₁ T₂ h₂
    rcases hmem.mp h₁ with rfl | h₁ <;> rcases hmem.mp h₂ with rfl | h₂
    · rw [hset.zoneOf_new]
      exact fun x hx hx' => hfree.1 x hx (within_page_of_saved hx')
    · rw [hset.zoneOf_new]
      exact hadmits.saved T₂ h₂
    · rw [hold T₁ h₁]
      exact fun x hx hx' => helsewhere T₁ h₁ x hx (within_page_of_saved hx')
    · rw [hold T₁ h₁]
      exact hsound.saved T₁ h₁ T₂ h₂
  · intro T' hT'
    rcases hmem.mp hT' with rfl | hT'
    · rw [hset.installed.number]
      unfold maxCodeBytes
      omega
    · have hzone : cbOverwrittenCode e'.memory T' = cbOverwrittenCode e.memory T' :=
        congrArg Zone.length (hold T' hT')
      rw [hzone]
      exact hsound.short T' hT'

/-- The patches of hooks that are in order are apart. -/
theorem Engine.Sound.patches_apart (hsound : e.Sound) : e.patches.Pairwise Patch.Apart := by
  rw [Engine.patches, List.pairwise_map]
  apply List.Nodup.pairwise_of_forall_ne hsound.nodup
  intro T hT T' hT' hne
  exact patchOf_apart_iff.mpr (hsound.zones T hT T' hT' hne)

theorem HookSet.unhooked (hset : HookSet w e e' S H T skip is) (hsound : e.Sound)
    (hadmits : e.Admits w S H skip) (hpage : ¬ Within T pageSize x) :
    e'.unhooked x = e.unhooked x := by
  have hpatches : (T :: e.hooked).map (patchOf e'.memory) =
      patchOf e'.memory T :: e.patches := by
    rw [List.map_cons, Engine.patches]
    exact congrArg _ (List.map_congr_left fun T' hT' => (hset.others hsound hadmits hT').2)
  have hperm : e'.patches.Perm (patchOf e'.memory T :: e.patches) := by
    rw [← hpatches]
    exact hset.hooked.map _
  have hnew : patchOf e'.memory T = ⟨S, read e.memory S skip.dwRet⟩ := by
    rw [patchOf, hset.installed.function, hset.installed.number, hset.installed.saved]
  rw [Engine.unhooked, Engine.unhooked,
    Patch.original_perm hperm (hset.sound hsound hadmits).patches_apart, hnew]
  apply Patch.original_patched
  · rw [length_read]
  · intro hzone
    refine hset.same hadmits.fits (fun hx => hzone ?_) hpage
    rwa [Patch.Covers, length_read]
  · intro q hq
    obtain ⟨T', hT', rfl⟩ := List.mem_map.mp hq
    have hzones := hadmits.zones T' hT'
    simpa [Patch.Apart, Zone.Apart, patchOf, zoneOf] using hzones

/-! ### Hooks that are taken back -/

theorem HookTaken.hooked (htaken : HookTaken w e e' T) :
    e.hooked.Perm (T :: e'.hooked) := by
  obtain ⟨i, hi, hslots⟩ := htaken.pHooks
  rw [Engine.hooked, Engine.hooked, hslots]
  exact Slots.reduceOption_set_none hi

theorem HookTaken.same (htaken : HookTaken w e e' T)
    (hzone : ¬ Within (zoneOf e.memory T).start (zoneOf e.memory T).length x) :
    e'.memory x = e.memory x := by
  rw [htaken.memory]
  apply write_of_not_within
  rwa [length_read]

theorem HookTaken.others (htaken : HookTaken w e e' T) (hsound : e.Sound) (hT : T ∈ e.hooked)
    (hT' : T' ∈ e.hooked) :
    zoneOf e'.memory T' = zoneOf e.memory T' ∧ patchOf e'.memory T' = patchOf e.memory T' := by
  apply patchOf_congr
  · exact fun x hx => htaken.same fun hx' => hsound.fields T hT T' hT' x hx' hx
  · exact fun x hx => htaken.same fun hx' => hsound.saved T hT T' hT' x hx' hx
  · exact hsound.short T' hT'

theorem HookTaken.sound (htaken : HookTaken w e e' T) (hsound : e.Sound) (hT : T ∈ e.hooked) :
    e'.Sound := by
  have hmem : ∀ {T'}, T' ∈ e'.hooked → T' ∈ e.hooked := fun {T'} hT' =>
    htaken.hooked.mem_iff.mpr (List.mem_cons_of_mem T hT')
  have hold : ∀ T' ∈ e'.hooked, zoneOf e'.memory T' = zoneOf e.memory T' := fun T' hT' =>
    (htaken.others hsound hT (hmem hT')).1
  obtain ⟨i, hi, hslots⟩ := htaken.pHooks
  refine ⟨?_, ?_, ?_, ?_, ?_, ?_, ?_, ?_, ?_, ?_⟩
  · rw [hslots, List.length_set, hsound.slots]
  · rw [htaken.nHooksInUse, hsound.inUse, htaken.hooked.length_eq, List.length_cons,
      Nat.add_sub_cancel]
  · exact (List.nodup_cons.mp (htaken.hooked.nodup_iff.mp hsound.nodup)).2
  · exact ⟨htaken.threads.handles.trans hsound.idle.handles,
      htaken.threads.number.trans hsound.idle.number⟩
  · intro T' hT'
    rw [htaken.pages]
    exact hsound.allocated T' (hmem hT')
  · rw [htaken.pages]
    exact hsound.pages
  · intro T₁ h₁ T₂ h₂ hne
    rw [hold T₁ h₁, hold T₂ h₂]
    exact hsound.zones T₁ (hmem h₁) T₂ (hmem h₂) hne
  · intro T₁ h₁ T₂ h₂
    rw [hold T₁ h₁]
    exact hsound.fields T₁ (hmem h₁) T₂ (hmem h₂)
  · intro T₁ h₁ T₂ h₂
    rw [hold T₁ h₁]
    exact hsound.saved T₁ (hmem h₁) T₂ (hmem h₂)
  · intro T' hT'
    have hzone : cbOverwrittenCode e'.memory T' = cbOverwrittenCode e.memory T' :=
      congrArg Zone.length (hold T' hT')
    rw [hzone]
    exact hsound.short T' (hmem hT')

theorem HookTaken.unhooked (htaken : HookTaken w e e' T) (hsound : e.Sound)
    (hT : T ∈ e.hooked) : e'.unhooked = e.unhooked := by
  have hpatches : e'.patches = e'.hooked.map (patchOf e.memory) :=
    List.map_congr_left fun T' hT' =>
      (htaken.others hsound hT (htaken.hooked.mem_iff.mpr (List.mem_cons_of_mem T hT'))).2
  have hperm : e.patches.Perm (patchOf e.memory T :: e'.patches) := by
    rw [hpatches, ← List.map_cons]
    exact htaken.hooked.map _
  have hapart := (hperm.pairwise_iff Patch.Apart.symm).mp hsound.patches_apart
  have hmemory : e'.memory = Patch.undo e.memory (patchOf e.memory T) := htaken.memory
  rw [Engine.unhooked, Engine.unhooked, Patch.original_perm hperm hsound.patches_apart, hmemory]
  exact Patch.original_undone (List.pairwise_cons.mp hapart).1

end Keeping

/-! ## Runs -/

inductive Call where
  | setHook (w : Surroundings) (n : ℕ) (ppSystemFunction pHook : Address)
  | unhook (w : Surroundings) (ppHookedFunction : Address)

def Call.surroundings : Call → Surroundings
  | setHook w _ _ _ => w
  | unhook w _ => w

def Engine.step (dis : Disassembler) (e : Engine) : Call → Option Engine
  | .setHook w n pp pHook => (setHook dis w n pp pHook e).map (·.2.2)
  | .unhook w p => some (Mhook.unhook w p e).2.2

/-- Functions are hooked only where nothing is hooked yet and with a jump that is not longer than
the code that is saved, memory that is handed out is free and does not lie in the code of the
process, and the given threads can be suspended again whenever they have been resumed. -/
structure Admitted (dis : Disassembler) (code : Address → Prop) (steady : ℕ → Prop)
    (e : Engine) (c : Call) : Prop where
  steady : ∀ i, steady i → c.surroundings.view.Steady i
  elsewhere : ∀ T, c.surroundings.space.virtualAlloc T = true → ∀ x, code x →
    ¬ Within T pageSize x
  admits : ∀ w n pp pHook, c = .setHook w n pp pHook → ∀ S H,
    skipJumps e.memory n pp = some S → skipJumps e.memory n pHook = some H →
    e.Admits w S H (disassembleAndSkip dis e.memory S jmpSize)

/-- What holds in every state of a run: the hooks are in order, the code without them is what it
was, and no handle is open and none of the given threads suspended that was not before. -/
structure Engine.Keeps (code : Address → Prop) (steady : ℕ → Prop) (e₀ e : Engine) : Prop where
  sound : e.Sound
  unhooked : ∀ x, code x → e.unhooked x = e₀.unhooked x
  opened : e.threads.opened = e₀.threads.opened
  count : ∀ i, steady i → e.threads.suspendCount i = e₀.threads.suspendCount i

section Runs

variable {dis : Disassembler} {code : Address → Prop} {steady : ℕ → Prop} {e₀ e e' : Engine}

/-- A call leaves everything as it was, puts a hook in place, or takes one back. -/
theorem Engine.step_cases {c : Call} (hsound : e.Sound) (hadmitted : Admitted dis code steady e c)
    (hstep : e.step dis c = some e') :
    (Refused c.surroundings e e' ∧
      (e'.memory = e.memory ∨ ∃ S H skip, e.Admits c.surroundings S H skip)) ∨
    (∃ w n pp pHook S H T is, c = .setHook w n pp pHook ∧ skipJumps e.memory n pp = some S ∧
      e.Admits w S H (disassembleAndSkip dis e.memory S jmpSize) ∧
      HookSet w e e' S H T (disassembleAndSkip dis e.memory S jmpSize) is) ∨
    ∃ T ∈ e.hooked, HookTaken c.surroundings e e' T := by
  cases c with
  | setHook w n pp pHook =>
    obtain ⟨⟨b, p, u⟩, hset, rfl⟩ := Option.map_eq_some_iff.mp hstep
    have hadmits := hadmitted.admits w n pp pHook rfl
    rcases setHook_outcome hsound (fun S H hS hH => (hadmits S H hS hH).toSituated) hset with
      ⟨-, -, hrefused⟩ | ⟨S, H, T, is, -, -, hS, hH, -, hset⟩
    · obtain ⟨S, hS, H, hH⟩ := skipJumps_of_setHook hset
      exact .inl ⟨hrefused, .inr ⟨S, H, _, hadmits S H hS hH⟩⟩
    · exact .inr (.inl ⟨w, n, pp, pHook, S, H, T, is, rfl, hS, hadmits S H hS hH, hset⟩)
  | unhook w p =>
    obtain rfl := Option.some.inj hstep
    rcases unhook_cases hsound w p with
      ⟨u, hu, hrefused, hmemory⟩ | ⟨T, u, hT, -, hu, htaken⟩
    · rw [hu]
      exact .inl ⟨hrefused, .inl hmemory⟩
    · rw [hu]
      exact .inr (.inr ⟨T, hT, htaken⟩)

theorem Engine.Keeps.step (h : Engine.Keeps code steady e₀ e) {c : Call}
    (hadmitted : Admitted dis code steady e c) (hstep : e.step dis c = some e') :
    Engine.Keeps code steady e₀ e' := by
  -- what the call leaves of the threads and of the code is left of what there was before
  have hthreads (hagrees : e'.threads.Agrees c.surroundings.view.Steady e.threads)
      (hsound : e'.Sound) (hunhooked : ∀ x, code x → e'.unhooked x = e.unhooked x) :
      Engine.Keeps code steady e₀ e' :=
    ⟨hsound, fun x hx => (hunhooked x hx).trans (h.unhooked x hx),
      hagrees.opened.trans h.opened,
      fun i hi => (hagrees.count i (hadmitted.steady i hi)).trans (h.count i hi)⟩
  rcases Engine.step_cases h.sound hadmitted hstep with
    ⟨hrefused, hadmits⟩ | ⟨w, n, pp, pHook, S, H, T, is, rfl, -, hadmits, hset⟩ | ⟨T, hT, htaken⟩
  · obtain ⟨hsound, hunhooked⟩ := hrefused.keeps h.sound hadmits
    exact hthreads hrefused.threads hsound fun x hx =>
      hunhooked x fun T halloc => hadmitted.elsewhere T halloc x hx
  · exact hthreads hset.threads (hset.sound h.sound hadmits) fun x hx =>
      hset.unhooked h.sound hadmits (hadmitted.elsewhere T hset.allocated x hx)
  · exact hthreads htaken.threads (htaken.sound h.sound hT) fun x _ =>
      congrFun (htaken.unhooked h.sound hT) x

/-- Whatever hooks are set and taken back, the code of the process without the hooks that are in
place is what it was; when none is in place, it is the code itself. -/
theorem reaches_keeps (hsound : e₀.Sound)
    (h : Runs.Reaches (Engine.step dis) (Admitted dis code steady) e₀ e) :
    Engine.Keeps code steady e₀ e ∧
      (e.hooked = [] → ∀ x, code x → e.memory x = e₀.unhooked x) := by
  have hkeeps : Engine.Keeps code steady e₀ e :=
    h.invariant (fun _ _ _ hkeeps hadmitted hstep => hkeeps.step hadmitted hstep)
      ⟨hsound, fun _ _ => rfl, rfl, fun _ _ => rfl⟩
  refine ⟨hkeeps, ?_⟩
  intro hnone x hx
  rw [← hkeeps.unhooked x hx, Engine.unhooked, Engine.patches, hnone]
  rfl

/-- A hook is set and taken back. -/
theorem reaches_keeps_mov : ∃ e,
    Engine.Keeps (fun x => 0x140000000 ≤ x.toNat) (fun _ => True) movEngine e ∧
      (e.hooked = [] → ∀ x : Address, 0x140000000 ≤ x.toNat →
        e.memory x = movEngine.unhooked x) := by
  obtain ⟨e', hset⟩ := setHook_mov
  have helsewhere (T : Address) (halloc : movSurroundings.space.virtualAlloc T = true)
      (x : Address) (hx : 0x140000000 ≤ x.toNat) : ¬ Within T pageSize x := by
    obtain rfl : T = 0xc0020000 := of_decide_eq_true halloc
    have hcases := toNat_sub_cases 0xc0020000 x
    rw [show (0xc0020000 : Address).toNat = 0xc0020000 from rfl] at hcases
    unfold Within pageSize
    omega
  have hfirst : Admitted movDisassembler (fun x => 0x140000000 ≤ x.toNat) (fun _ => True) movEngine
      (.setHook movSurroundings 2 0x140001000 0x140003000) := by
    refine ⟨fun _ _ _ => rfl, helsewhere, ?_⟩
    rintro w n pp pHook ⟨⟩
    exact movEngine_admitted
  have hsecond (e : Engine) : Admitted movDisassembler (fun x => 0x140000000 ≤ x.toNat)
      (fun _ => True) e (.unhook movSurroundings (codeTrampoline 0xc0020000)) :=
    ⟨fun _ _ _ => rfl, helsewhere, fun _ _ _ _ h => Call.noConfusion h⟩
  have hrun : Runs.Reaches (Engine.step movDisassembler)
      (Admitted movDisassembler (fun x => 0x140000000 ≤ x.toNat) fun _ => True) movEngine _ :=
    (Runs.Reaches.refl.tail hfirst (by rw [Engine.step, hset]; rfl)).tail (hsecond e') rfl
  exact ⟨_, reaches_keeps movEngine_sound hrun⟩

end Runs

end ComputerLock.Mhook
