import ComputerLock.Mhook.Engine

/-!
# What a call does

`Mhook_SetHook` either puts a hook in place or leaves everything as it was, save for a page that
was free. `Mhook_Unhook` puts the saved code back.
-/

namespace ComputerLock.Mhook
open Library AddressSpace

/-! ## Allocation -/

section Allocation

variable {e : Engine} {T : Address}

/-- As long as the table is in order, a trampoline that has been allocated gets a slot. -/
theorem trampolineAlloc_of_search {space : Space} {S : Address} {up down : ℤ}
    (hslots : e.pHooks.length = maxSupportedHooks) (hinUse : e.nHooksInUse = e.hooked.length)
    (hroom : e.nHooksInUse < maxSupportedHooks) (hsearch : search space S up down = some T) :
    ∃ i : ℕ, e.pHooks[i]? = some none ∧
      e.trampolineAlloc space S up down = (some T, { e with
        memory := commit e.memory T
        pages := T :: e.pages
        pHooks := e.pHooks.set i (some T)
        nHooksInUse := e.nHooksInUse + 1 }) := by
  have hlt : e.pHooks.reduceOption.length < e.pHooks.length := by
    rw [hslots]
    rwa [hinUse] at hroom
  obtain ⟨i, hi⟩ := Slots.firstEmpty_of_lt hlt
  refine ⟨i, Slots.firstEmpty_eq_some hi, ?_⟩
  rw [Engine.trampolineAlloc, if_pos hroom]
  simp only [hsearch, hi]

theorem trampolineAlloc_none {space : Space} {S : Address} {up down : ℤ}
    (h : ¬ e.nHooksInUse < maxSupportedHooks ∨ search space S up down = none) :
    e.trampolineAlloc space S up down = (none, e) := by
  unfold Engine.trampolineAlloc
  rcases h with hfull | hsearch
  · rw [if_neg hfull]
  · simp only [hsearch, ite_self]

/-- A slot that has just been taken is given back. -/
theorem trampolineFree_of_new {i : ℕ} (h : e.pHooks[i]? = some none) (hnew : T ∉ e.hooked) :
    ({ e with
      memory := commit e.memory T
      pages := T :: e.pages
      pHooks := e.pHooks.set i (some T)
      nHooksInUse := e.nHooksInUse + 1 } : Engine).trampolineFree T true =
      { e with memory := commit e.memory T } := by
  have hslot : Slots.slotOf (e.pHooks.set i (some T)) T = some i := Slots.slotOf_set_some h hnew
  simp [Engine.trampolineFree, hslot, Slots.set_set_none h]

theorem pSystemFunction_commit (m : Memory) (T : Address) :
    pSystemFunction (commit m T) T = 0 := by
  apply pointer_of_read
  have hzero : read (commit m T) (field T 0) 8 = read (fun _ => 0) (field T 0) 8 := by
    refine read_congr fun x hx => if_pos ?_
    have hfield : Within T pageSize x := hx.of_add (by decide)
    exact hfield
  rw [hzero]
  rfl

end Allocation

/-! ## Setting a hook -/

/-- Nothing has changed but a page that was free. -/
structure Refused (w : Surroundings) (e e' : Engine) : Prop where
  pHooks : e'.pHooks = e.pHooks
  nHooksInUse : e'.nHooksInUse = e.nHooksInUse
  pages : e'.pages = e.pages
  threads : e'.threads.Agrees w.view.Steady e.threads
  memory : e'.memory = e.memory ∨
    ∃ T, w.space.virtualAlloc T = true ∧ e'.memory = commit e.memory T

/-- The hook has been put in place, with the trampoline `T`. -/
structure HookSet (w : Surroundings) (e e' : Engine) (S H T : Address) (skip : Skip)
    (is : List Instruction) : Prop where
  located : search w.space S skip.pdata.nLimitUp skip.pdata.nLimitDown = some T
  allocated : w.space.virtualAlloc T = true
  long : jmpSize ≤ skip.dwRet
  short : skip.dwRet < 20
  entry_le : far S H ∨ jumpLength S H ≤ skip.dwRet →
    jumpLength S (entryTarget S H T) ≤ skip.dwRet
  pHooks : ∃ i : ℕ, e.pHooks[i]? = some none ∧ e'.pHooks = e.pHooks.set i (some T)
  nHooksInUse : e'.nHooksInUse = e.nHooksInUse + 1
  pages : e'.pages = T :: e.pages
  threads : e'.threads.Agrees w.view.Steady e.threads
  installed : Installed e.memory e'.memory S H T skip.dwRet is

section Setting

variable {dis : Disassembler} {w : Surroundings} {e e' : Engine} {S H T : Address} {skip : Skip}
  {is : List Instruction}

theorem resume_suspend_agrees (hidle : e.threads.Idle) (S : Address) (n : ℕ) :
    (resumeOtherThreads (e.suspend w S n).threads).Agrees w.view.Steady e.threads :=
  resumeOtherThreads_agrees hidle (suspendOtherThreads_suspended S n w.view hidle)

/-- Where memory for a trampoline is found, and why it can be reached. -/
theorem Engine.Situated.inReach (h : e.Situated w S H skip)
    (hsound : skip.Sound dis e.memory S jmpSize is)
    (hsearch : search w.space S skip.pdata.nLimitUp skip.pdata.nLimitDown = some T) :
    w.space.virtualAlloc T = true ∧ InReach S T skip.pdata.nLimitUp skip.pdata.nLimitDown := by
  have hup := hsound.up
  simp only [jmpSize] at hup
  exact search_inReach h.high ⟨hup.1, by omega⟩ hsound.down.2 h.below hsearch

/-- The jump at the entry is no longer than what has been saved when it leads to the stub, or a jump
to the hook is no longer. -/
theorem Engine.Situated.entry_le (h : e.Situated w S H skip)
    (hsound : skip.Sound dis e.memory S jmpSize is) (hlen : jmpSize ≤ skip.dwRet)
    (hreach : InReach S T skip.pdata.nLimitUp skip.pdata.nLimitDown)
    (fits : far S H ∨ jumpLength S H ≤ skip.dwRet) :
    jumpLength S (entryTarget S H T) ≤ skip.dwRet := by
  unfold entryTarget
  split_ifs with hfar
  · rw [hreach.jumpLength_stub h.high hsound.up.1 hsound.down.2]
    exact hlen
  · exact fits.resolve_left hfar

/-- What has been installed in the page found for it. -/
theorem Engine.Situated.installed (h : e.Situated w S H skip)
    (hsound : skip.Sound dis e.memory S jmpSize is)
    (hsearch : search w.space S skip.pdata.nLimitUp skip.pdata.nLimitDown = some T) :
    Installed e.memory (install (commit e.memory T) S H T skip) S H T skip.dwRet is := by
  obtain ⟨halloc, hreach⟩ := h.inReach hsound hsearch
  have hshort : skip.dwRet < 20 := hsound.short
  obtain ⟨hpage, hentry, -⟩ := h.free T halloc
  have hblock : trampolineSize ≤ pageSize := by decide
  have hback := hreach.jumpLength_back h.high hsound.up.1 hsound.down.2
    (show skip.dwRet < 0x10000 by omega)
  apply Installed.of_commit _ hsound.length hpage
  exact install_installed hsound.length hshort hsound.rips (seven_le_of_movable hsound.movable)
    hback (hpage.mono (le_refl _) hblock) (hentry.mono (le_refl _) hblock)

theorem Zone.not_apart_self {z : Zone} (hpos : 0 < z.length) : ¬ z.Apart z := fun h =>
  h z.start (within_self hpos) (within_self hpos)

/-- Memory that has just been handed out does not belong to a hook. -/
theorem Engine.Situated.new (h : e.Situated w S H skip) (hsound : e.Sound)
    (halloc : w.space.virtualAlloc T = true) : T ∉ e.hooked := fun hmem =>
  Zone.not_apart_self (z := pageOf T) (show 0 < pageSize by decide)
    ((h.free T halloc).2.2 T (hsound.allocated T hmem))

/-- With memory for a trampoline and both protections off, the hook is put in place. -/
theorem placeHook_set (pp : Address) (hsound : e.Sound) (hsituated : e.Situated w S H skip)
    (hskip : skip.Sound dis e.memory S jmpSize is) (hlen : jmpSize ≤ skip.dwRet)
    (hroom : e.nHooksInUse < maxSupportedHooks)
    (hsearch : search w.space S skip.pdata.nLimitUp skip.pdata.nLimitDown = some T)
    (hprotect : w.protectFunction = true ∧ w.protectTrampoline = true) :
    ∃ e', placeHook w pp S H skip (e.suspend w S skip.dwRet) = (true, codeTrampoline T, e') ∧
      HookSet w e e' S H T skip is := by
  have hthreads := resume_suspend_agrees (w := w) hsound.idle S skip.dwRet
  have hinstalled := hsituated.installed hskip hsearch
  obtain ⟨halloc, hreach⟩ := hsituated.inReach hskip hsearch
  obtain ⟨i, hi, hsome⟩ := trampolineAlloc_of_search (e := e.suspend w S skip.dwRet) hsound.slots
    hsound.inUse hroom hsearch
  have hfunction : pSystemFunction (install (commit e.memory T) S H T skip) T ≠ 0 := by
    rw [hinstalled.function]
    intro hzero
    have hlow := hsituated.low
    rw [hzero] at hlow
    exact absurd hlow (by decide)
  let u : Engine := { e.suspend w S skip.dwRet with
    memory := install (commit e.memory T) S H T skip
    pages := T :: e.pages
    pHooks := e.pHooks.set i (some T)
    nHooksInUse := e.nHooksInUse + 1 }
  refine ⟨u.resume, ?_, ⟨hsearch, halloc, hlen, hskip.short, hsituated.entry_le hskip hlen hreach,
    ⟨i, hi, u.resume_pHooks⟩, u.resume_nHooksInUse, u.resume_pages, hthreads, hinstalled⟩⟩
  rw [placeHook, hsome]
  simp only [hprotect, and_self, if_true]
  exact if_pos hfunction

theorem placeHook_cases (pp : Address) (hsound : e.Sound) (hsituated : e.Situated w S H skip)
    (hskip : skip.Sound dis e.memory S jmpSize is) (hlen : jmpSize ≤ skip.dwRet) :
    (∃ e', placeHook w pp S H skip (e.suspend w S skip.dwRet) = (false, pp, e') ∧
      Refused w e e') ∨
      ∃ T e', placeHook w pp S H skip (e.suspend w S skip.dwRet) = (true, codeTrampoline T, e') ∧
        HookSet w e e' S H T skip is := by
  have hthreads := resume_suspend_agrees (w := w) hsound.idle S skip.dwRet
  have hnone (h : (e.suspend w S skip.dwRet).trampolineAlloc w.space S skip.pdata.nLimitUp
      skip.pdata.nLimitDown = (none, e.suspend w S skip.dwRet)) :
      ∃ e', placeHook w pp S H skip (e.suspend w S skip.dwRet) = (false, pp, e') ∧
        Refused w e e' := by
    refine ⟨(e.suspend w S skip.dwRet).resume, ?_, ⟨rfl, rfl, rfl, hthreads, .inl rfl⟩⟩
    rw [placeHook, h]
  by_cases hroom : e.nHooksInUse < maxSupportedHooks
  · cases hsearch : search w.space S skip.pdata.nLimitUp skip.pdata.nLimitDown with
    | none => exact .inl (hnone (trampolineAlloc_none (.inr hsearch)))
    | some T =>
      by_cases hprotect : w.protectFunction = true ∧ w.protectTrampoline = true
      · exact .inr ⟨T, placeHook_set pp hsound hsituated hskip hlen hroom hsearch hprotect⟩
      · left
        have halloc := (hsituated.inReach hskip hsearch).1
        obtain ⟨i, hi, hsome⟩ := trampolineAlloc_of_search (e := e.suspend w S skip.dwRet)
          hsound.slots hsound.inUse hroom hsearch
        have hfree := trampolineFree_of_new (e := e.suspend w S skip.dwRet) hi
          (hsituated.new hsound halloc)
        refine ⟨({ e.suspend w S skip.dwRet with memory := commit e.memory T } : Engine).resume,
          ?_, ⟨rfl, rfl, rfl, hthreads, .inr ⟨T, halloc, rfl⟩⟩⟩
        rw [placeHook, hsome]
        simp only [hprotect, if_false]
        rw [if_neg (not_not_intro (pSystemFunction_commit _ T)), hfree]
        rfl
  · exact .inl (hnone (trampolineAlloc_none (.inl hroom)))

theorem skipJumps_of_setHook {n : ℕ} {pp pHook : Address} {r : Bool × Address × Engine}
    (h : setHook dis w n pp pHook e = some r) :
    ∃ S, skipJumps e.memory n pp = some S ∧ ∃ H, skipJumps e.memory n pHook = some H := by
  simp only [setHook, bind, Option.bind_eq_some_iff] at h
  obtain ⟨S, hS, H, hH, -⟩ := h
  exact ⟨S, hS, H, hH⟩

theorem setHook_of_skipJumps {n : ℕ} {pp pHook : Address} (hS : skipJumps e.memory n pp = some S)
    (hH : skipJumps e.memory n pHook = some H) :
    setHook dis w n pp pHook e =
      if jmpSize ≤ (disassembleAndSkip dis e.memory S jmpSize).dwRet then
        some (placeHook w pp S H (disassembleAndSkip dis e.memory S jmpSize)
          (e.suspend w S (disassembleAndSkip dis e.memory S jmpSize).dwRet))
      else some (false, pp, e) := by
  simp only [setHook, hS, hH, bind, Option.bind_some]
  rfl

/-- Every call either puts a hook in place or leaves everything as it was. -/
theorem setHook_outcome {n : ℕ} {pp pHook p : Address} {b : Bool} (hsound : e.Sound)
    (hsituated : ∀ S H, skipJumps e.memory n pp = some S → skipJumps e.memory n pHook = some H →
      e.Situated w S H (disassembleAndSkip dis e.memory S jmpSize))
    (h : setHook dis w n pp pHook e = some (b, p, e')) :
    (b = false ∧ p = pp ∧ Refused w e e') ∨
      ∃ S H T is, b = true ∧ p = codeTrampoline T ∧ skipJumps e.memory n pp = some S ∧
        skipJumps e.memory n pHook = some H ∧
        (disassembleAndSkip dis e.memory S jmpSize).Sound dis e.memory S jmpSize is ∧
        HookSet w e e' S H T (disassembleAndSkip dis e.memory S jmpSize) is := by
  obtain ⟨S, hS, H, hH⟩ := skipJumps_of_setHook h
  obtain ⟨is, hskip⟩ := exists_sound dis e.memory S jmpSize
  rw [setHook_of_skipJumps hS hH] at h
  have hsituated' := hsituated S H hS hH
  by_cases hlen : jmpSize ≤ (disassembleAndSkip dis e.memory S jmpSize).dwRet
  · rw [if_pos hlen] at h
    rcases placeHook_cases pp hsound hsituated' hskip hlen with
      ⟨u, hplace, hrefused⟩ | ⟨T, u, hplace, hset⟩
    · rw [hplace] at h
      cases h
      exact .inl ⟨rfl, rfl, hrefused⟩
    · rw [hplace] at h
      cases h
      exact .inr ⟨S, H, T, is, rfl, rfl, hS, hH, hskip, hset⟩
  · rw [if_neg hlen] at h
    cases h
    exact .inl ⟨rfl, rfl, rfl, rfl, rfl, .refl _ _, .inl rfl⟩

end Setting

/-! ### An example -/

/-- Before the first call. -/
def Engine.start (m : Memory) (threads : Threads) : Engine where
  memory := m
  pHooks := List.replicate maxSupportedHooks none
  nHooksInUse := 0
  threads := threads
  pages := []

theorem start_sound {threads : Threads} (hidle : threads.Idle) (m : Memory) :
    (Engine.start m threads).Sound := by
  have hnone : (Engine.start m threads).hooked = [] := List.reduceOption_replicate_none
  refine ⟨?_, ?_, ?_, hidle, ?_, List.Pairwise.nil, ?_, ?_, ?_, ?_⟩
  · exact List.length_replicate
  · rw [hnone]
    rfl
  · rw [hnone]
    exact List.nodup_nil
  all_goals rw [hnone]; simp

/-- Everything the system is asked for succeeds. -/
def movSurroundings : Surroundings := ⟨lowSpace, twoThreads, true, true⟩

def movEngine : Engine := .start movMemory .start

theorem movEngine_sound : movEngine.Sound := start_sound ⟨rfl, rfl⟩ movMemory

theorem movEngine_admits : movEngine.Admits movSurroundings 0x140001000 0x140003000
    (disassembleAndSkip movDisassembler movEngine.memory 0x140001000 jmpSize) := by
  have hnone : movEngine.hooked = [] := List.reduceOption_replicate_none
  refine ⟨⟨by decide, by decide, by decide, ?_⟩, .inr (by decide), ?_, ?_, ?_, ?_⟩
  · intro T halloc
    obtain rfl : T = 0xc0020000 := of_decide_eq_true halloc
    refine ⟨apart_of_le (by decide) (by decide), apart_of_le (by decide) (by decide), ?_⟩
    exact fun T' hT' => absurd hT' List.not_mem_nil
  all_goals
    rw [hnone]
    simp

/-- The hook is put in place. -/
theorem setHook_mov : ∃ e', setHook movDisassembler movSurroundings 2 0x140001000 0x140003000
    movEngine = some (true, codeTrampoline 0xc0020000, e') := by
  have hS : skipJumps movEngine.memory 2 0x140001000 = some 0x140001000 := rfl
  have hH : skipJumps movEngine.memory 2 0x140003000 = some 0x140003000 := rfl
  obtain ⟨is, hskip⟩ := exists_sound movDisassembler movEngine.memory 0x140001000 jmpSize
  obtain ⟨e', hplace, -⟩ := placeHook_set 0x140001000 movEngine_sound
    movEngine_admits.toSituated hskip
    (by decide) (show 0 < 64 by decide) (show search lowSpace _ _ _ = some 0xc0020000 from rfl)
    ⟨rfl, rfl⟩
  refine ⟨e', ?_⟩
  rw [setHook_of_skipJumps hS hH, if_pos (by decide), hplace]

theorem movEngine_admitted (S H : Address)
    (hS : skipJumps movEngine.memory 2 0x140001000 = some S)
    (hH : skipJumps movEngine.memory 2 0x140003000 = some H) :
    movEngine.Admits movSurroundings S H
      (disassembleAndSkip movDisassembler movEngine.memory S jmpSize) := by
  obtain rfl : 0x140001000 = S := Option.some.inj (Eq.trans rfl hS)
  obtain rfl : 0x140003000 = H := Option.some.inj (Eq.trans rfl hH)
  exact movEngine_admits

theorem movEngine_situated (S H : Address)
    (hS : skipJumps movEngine.memory 2 0x140001000 = some S)
    (hH : skipJumps movEngine.memory 2 0x140003000 = some H) :
    movEngine.Situated movSurroundings S H
      (disassembleAndSkip movDisassembler movEngine.memory S jmpSize) :=
  (movEngine_admitted S H hS hH).toSituated

/-! ## Taking a hook back -/

/-- The hook with the trampoline `T` is no longer in place. -/
structure HookTaken (w : Surroundings) (e e' : Engine) (T : Address) : Prop where
  memory : e'.memory = write e.memory (pSystemFunction e.memory T)
    (read e.memory (codeUntouched T) (cbOverwrittenCode e.memory T))
  pHooks : ∃ i : ℕ, e.pHooks[i]? = some (some T) ∧ e'.pHooks = e.pHooks.set i none
  nHooksInUse : e'.nHooksInUse = e.nHooksInUse - 1
  pages : e'.pages = e.pages
  threads : e'.threads.Agrees w.view.Steady e.threads

section Taking

variable {w : Surroundings} {e : Engine} {m : Memory} {S T p : Address} {n : ℕ}

/-- Byte after byte, the saved code is written where it came from. -/
theorem restoreCode_eq (h : Apart S n (codeUntouched T) n) (hn : n ≤ maxCodeBytes) :
    restoreCode m S T n = write m S (read m (codeUntouched T) n) := by
  induction n with
  | zero =>
    funext x
    rfl
  | succ n ih =>
    have hbefore := ih (h.mono (Nat.le_succ n) (Nat.le_succ n)) (by omega)
    have hbyte : restoreCode m S T n (codeUntouched T + BitVec.ofNat 64 n) =
        m (codeUntouched T + BitVec.ofNat 64 n) := by
      rw [hbefore]
      apply write_of_not_within
      rw [length_read]
      exact fun hx => h _ (hx.mono (Nat.le_succ n)) (within_add _ (Nat.lt_succ_self n))
    have hstep : restoreCode m S T (n + 1) =
        write (restoreCode m S T n) (S + BitVec.ofNat 64 n)
          [m (codeUntouched T + BitVec.ofNat 64 n)] := by
      rw [← hbyte]
      conv_lhs => rw [restoreCode, List.range_succ, List.foldl_append]
      rfl
    have hlength : (read m (codeUntouched T) n).length = n := length_read m _ n
    unfold maxCodeBytes at hn
    rw [hstep, hbefore, read_add, read_one, ← write_append (by simp; omega), hlength]

/-- The jump at the entry takes more than five bytes when the hook lies below the function and
only the place behind the jump is too far from it. -/
theorem near_and_long_iff {H : Address} (hS : S.toNat < 0x800000000000) :
    ¬ far S H ∧ jumpLength S H = 14 ↔
      H.toNat < S.toNat ∧ S.toNat - H.toNat ≤ nearLimit ∧ nearLimit < S.toNat + 5 - H.toNat := by
  have hfrom : (S + 5).toNat = S.toNat + 5 := by
    rw [BitVec.toNat_add, show (5 : Address).toNat = 5 from rfl]
    omega
  have hdistance := distance_cases S H
  have hdistance' := distance_cases (S + 5) H
  unfold far jumpLength nearLimit at *
  split_ifs with hnear <;> omega

/-- Taking a hook back puts everything as it was exactly when the jump was no longer than the code
that has been saved, or the bytes it took beyond were those of the jump already. -/
theorem restored_iff {dis : Disassembler} {H : Address} {skip : Skip} {is : List Instruction}
    (hsound : skip.Sound dis m S jmpSize is)
    (hback : jumpLength (codeTrampoline T + BitVec.ofNat 64 skip.dwRet)
      (S + BitVec.ofNat 64 skip.dwRet) = 5)
    (hzone : Apart S 20 T pageSize) :
    (∀ x, ¬ Within T pageSize x →
        restoreCode (install (commit m T) S H T skip) S T skip.dwRet x = m x) ↔
      ∀ i, skip.dwRet ≤ i → i < jumpLength S (entryTarget S H T) →
        (jumpCode S (entryTarget S H T))[i]? = some (m (S + BitVec.ofNat 64 i)) := by
  have hshort : skip.dwRet < 20 := hsound.short
  have hjump := jumpLength_le S (entryTarget S H T)
  have hpage : Apart S skip.dwRet T pageSize := hzone.mono (by omega) (le_refl _)
  have hblock : Apart S 20 T trampolineSize := hzone.mono (le_refl _) (by decide)
  have hinstalled : Installed m (install (commit m T) S H T skip) S H T skip.dwRet is := by
    apply Installed.of_commit _ hsound.length hpage
    exact install_installed hsound.length hshort hsound.rips (seven_le_of_movable hsound.movable)
      hback (hblock.mono (by omega) (le_refl _)) (hblock.mono (by omega) (le_refl _))
  set m' := install (commit m T) S H T skip
  have hrestore : restoreCode m' S T skip.dwRet = write m' S (read m S skip.dwRet) := by
    rw [restoreCode_eq _ (by unfold maxCodeBytes; omega), hinstalled.saved]
    exact (hblock.mono (by omega) (le_refl _)).right_of_add
      (show 88 + skip.dwRet ≤ 120 by omega)
  have hentry : ∀ i < jumpLength S (entryTarget S H T),
      (jumpCode S (entryTarget S H T))[i]? = some (m' (S + BitVec.ofNat 64 i)) := by
    intro i hi
    have hbyte : i < (read m' S (jumpLength S (entryTarget S H T))).length := by
      rwa [length_read]
    rw [← hinstalled.entry, List.getElem?_eq_getElem hbyte, getElem_read]
  have hbehind : ∀ i, skip.dwRet ≤ i → i < 20 →
      write m' S (read m S skip.dwRet) (S + BitVec.ofNat 64 i) = m' (S + BitVec.ofNat 64 i) := by
    intro i hi hlt
    apply write_of_not_within
    rw [length_read, Within, add_sub_self, BitVec.toNat_ofNat]
    omega
  rw [hrestore]
  constructor
  · intro hsame i hi hlt
    have hmem : Within S 20 (S + BitVec.ofNat 64 i) := within_add S (by omega)
    have hx := hsame _ (hzone _ hmem)
    rw [hbehind i hi (by omega)] at hx
    rw [hentry i hlt, hx]
  · intro hbytes x hx
    by_cases hsaved : Within S skip.dwRet x
    · have hback := congrFun (write_read (m := m) (a := S) (n := skip.dwRet) fun _ _ => rfl) x
      rw [← hback]
      rw [write_of_within (by rwa [length_read]), write_of_within (by rwa [length_read])]
    · rw [write_of_not_within (by rwa [length_read])]
      by_cases hlong : Within S (jumpLength S (entryTarget S H T)) x
      · have hx' : S + BitVec.ofNat 64 (x - S).toNat = x := by
          rw [BitVec.ofNat_toNat, BitVec.setWidth_eq, add_sub_add]
        have hold := hbytes (x - S).toNat (Nat.le_of_not_lt hsaved) hlong
        have hnew := hentry (x - S).toNat hlong
        rw [hx'] at hold hnew
        exact Option.some.inj (hnew.symm.trans hold)
      · exact hinstalled.frame x hlong hx

/-- A hook just within reach of the function, and out of reach of the place behind the jump. -/
theorem restored_iff_mov :
    (∀ x, ¬ Within 0xc0020000 pageSize x →
      restoreCode (install (commit movMemory 0xc0020000) 0x140001000 0xc0011002 0xc0020000
        (disassembleAndSkip movDisassembler movMemory 0x140001000 jmpSize)) 0x140001000 0xc0020000
        (disassembleAndSkip movDisassembler movMemory 0x140001000 jmpSize).dwRet x =
        movMemory x) ↔
    ∀ i, (disassembleAndSkip movDisassembler movMemory 0x140001000 jmpSize).dwRet ≤ i →
      i < jumpLength 0x140001000 (entryTarget 0x140001000 0xc0011002 0xc0020000) →
      (jumpCode 0x140001000 (entryTarget 0x140001000 0xc0011002 0xc0020000))[i]? =
        some (movMemory (0x140001000 + BitVec.ofNat 64 i)) := by
  obtain ⟨is, hsound⟩ := exists_sound movDisassembler movMemory 0x140001000 jmpSize
  exact restored_iff hsound (by decide) (apart_of_le (by decide) (by decide))

example : ¬ far 0x140001000 0xc0011002 ∧ jumpLength 0x140001000 0xc0011002 = 14 := by decide

theorem trampolineGet_eq_some (h : e.trampolineGet p = some T) :
    T ∈ e.hooked ∧ codeTrampoline T = p := by
  have hfound := List.find?_some h
  exact ⟨List.mem_of_find?_eq_some h, of_decide_eq_true hfound⟩

/-- Every call either puts the saved code of a hook back or leaves everything as it was. -/
theorem unhook_cases (hsound : e.Sound) (w : Surroundings) (p : Address) :
    (∃ e', unhook w p e = (false, p, e') ∧ Refused w e e' ∧ e'.memory = e.memory) ∨
    ∃ T e', T ∈ e.hooked ∧ codeTrampoline T = p ∧
      unhook w p e = (true, pSystemFunction e.memory T, e') ∧ HookTaken w e e' T := by
  cases hget : e.trampolineGet p with
  | none =>
    left
    refine ⟨e, ?_, ⟨rfl, rfl, rfl, .refl _ _, .inl rfl⟩, rfl⟩
    rw [unhook, hget]
  | some T =>
    obtain ⟨hmem, hp⟩ := trampolineGet_eq_some hget
    have hthreads := resume_suspend_agrees (w := w) hsound.idle (pSystemFunction e.memory T)
      (cbOverwrittenCode e.memory T)
    by_cases hprotect : w.protectFunction = true
    · right
      have hrestore : restoreCode e.memory (pSystemFunction e.memory T) T
          (cbOverwrittenCode e.memory T) = write e.memory (pSystemFunction e.memory T)
            (read e.memory (codeUntouched T) (cbOverwrittenCode e.memory T)) :=
        restoreCode_eq ((hsound.saved T hmem T hmem).mono (le_refl _) (hsound.short T hmem))
          (hsound.short T hmem)
      have hfunction : pSystemFunction (write e.memory (pSystemFunction e.memory T)
          (read e.memory (codeUntouched T) (cbOverwrittenCode e.memory T))) T =
          pSystemFunction e.memory T := by
        rw [pSystemFunction, pSystemFunction, pointer, pointer, read_write_of_apart]
        rw [length_read]
        exact (hsound.fields T hmem T hmem).symm.left_of_add (show 0 + 8 ≤ 24 by decide)
      obtain ⟨i, hi⟩ := Slots.slotOf_of_mem hmem
      have hslot : e.pHooks[i]? = some (some T) := Slots.slotOf_eq_some hi
      let u : Engine := { e.suspend w (pSystemFunction e.memory T)
          (cbOverwrittenCode e.memory T) with
        memory := write e.memory (pSystemFunction e.memory T)
          (read e.memory (codeUntouched T) (cbOverwrittenCode e.memory T))
        pHooks := e.pHooks.set i none
        nHooksInUse := e.nHooksInUse - 1 }
      have hresult : unhook w p e = (true, pSystemFunction e.memory T, u.resume) := by
        rw [unhook, hget]
        simp only [hprotect, if_true, Engine.suspend_memory, hrestore, hfunction,
          Engine.trampolineFree, Engine.suspend_pHooks, hi]
        rfl
      refine ⟨T, u.resume, hmem, hp, hresult, ?_, ⟨i, hslot, ?_⟩, ?_, ?_, hthreads⟩
      all_goals simp only [u, Engine.resume_memory, Engine.resume_pHooks,
        Engine.resume_nHooksInUse, Engine.resume_pages, Engine.suspend_pages]
    · left
      refine ⟨(e.suspend w (pSystemFunction e.memory T)
        (cbOverwrittenCode e.memory T)).resume, ?_, ⟨rfl, rfl, rfl, hthreads, .inl rfl⟩, rfl⟩
      rw [unhook, hget]
      exact if_neg hprotect

end Taking

end ComputerLock.Mhook
