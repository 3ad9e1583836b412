import Mathlib.Data.List.Perm.Basic
import ComputerLock.Mhook.Jump

/-!
# Other threads

`SuspendOtherThreads` suspends every other thread of the process before code is overwritten, and
tries to get those out that are in this code; `ResumeOtherThreads` resumes the ones that are
held. The system keeps a suspend count for each thread.
-/

namespace ComputerLock.Mhook

/-! ## One thread -/

/-- A handle, and the thread it has been opened for. -/
structure ThreadHandle where
  value : ℕ
  thread : ℕ
  deriving DecidableEq

structure Threads where
  /-- the suspend counts -/
  suspendCount : ℕ → ℕ
  /-- the handles to threads that are open -/
  opened : List ThreadHandle
  /-- `g_hThreadHandles` -/
  hThreadHandles : List (Option ThreadHandle)
  /-- `g_nThreadHandles` -/
  nThreadHandles : ℕ

namespace Threads

def openThread (t : Threads) (h : ThreadHandle) : Threads := { t with opened := h :: t.opened }

def closeHandle (t : Threads) (h : ThreadHandle) : Threads :=
  { t with opened := t.opened.erase h }

def setCount (t : Threads) (h : ThreadHandle) (n : ℕ) : Threads :=
  { t with suspendCount := Function.update t.suspendCount h.thread n }

def suspendThread (t : Threads) (h : ThreadHandle) : Threads :=
  t.setCount h (t.suspendCount h.thread + 1)

/-- The count of a thread that is not suspended stays zero. -/
def resumeThread (t : Threads) (h : ThreadHandle) : Threads :=
  t.setCount h (t.suspendCount h.thread - 1)

end Threads

/-- What the system answers while a thread is being suspended. -/
structure Look where
  openThread : Option ℕ
  suspendThread : Bool
  /-- the instruction pointer, each time the context is asked for -/
  getThreadContext : ℕ → Option Address
  /-- whether `SuspendThread` succeeds once more, which is not looked at -/
  suspendAgain : ℕ → Bool

/-- The instruction pointer is in the given range. -/
def colliding (pbCode : Address) (cbBytes : ℕ) (pIp : Address) : Prop :=
  pbCode ≤ pIp ∧ pIp < pbCode + BitVec.ofNat 64 cbBytes

instance (pbCode : Address) (cbBytes : ℕ) (pIp : Address) :
    Decidable (colliding pbCode cbBytes pIp) :=
  inferInstanceAs (Decidable (_ ∧ _))

section Suspension

variable (pbCode : Address) (cbBytes : ℕ)

/-- The loop of `SuspendOneThread`, with the number of tries that are left. -/
def lookLoop (l : Look) (h : ThreadHandle) :
    ℕ → ℕ → Threads → Option ThreadHandle × Threads
  | left, n, t =>
    match l.getThreadContext n with
    | none => (some h, t)
    | some pIp =>
      if colliding pbCode cbBytes pIp then
        match left with
        | left + 1 =>
          let t := t.resumeThread h
          lookLoop l h left (n + 1) (if l.suspendAgain n then t.suspendThread h else t)
        | 0 => (none, (t.resumeThread h).closeHandle h)
      else (some h, t)

def maxTries : ℕ := 3

def suspendOneThread (l : Look) (dwThreadId : ℕ) (t : Threads) :
    Option ThreadHandle × Threads :=
  match l.openThread with
  | none => (none, t)
  | some value =>
    let h := ⟨value, dwThreadId⟩
    let t := t.openThread h
    if l.suspendThread then lookLoop pbCode cbBytes l h maxTries 0 (t.suspendThread h)
    else (none, t.closeHandle h)

end Suspension

/-! ## All threads -/

/-- What the system answers while the threads are being suspended. -/
structure ThreadView where
  /-- the owners and identifiers of all threads, if there is a snapshot -/
  snapshot : Option (List (ℕ × ℕ))
  currentProcess : ℕ
  currentThread : ℕ
  malloc : Bool
  look : ℕ → Look

/-- The other threads of the process, as both passes over the snapshot meet them. -/
def ThreadView.others (v : ThreadView) (entries : List (ℕ × ℕ)) : List ℕ :=
  (entries.filter fun e => e.1 = v.currentProcess ∧ e.2 ≠ v.currentThread).map (·.2)

def resumeHeld (t : Threads) : Option ThreadHandle → Threads
  | none => t
  | some h => (t.resumeThread h).closeHandle h

def resumeOtherThreads (t : Threads) : Threads :=
  let t := (t.hThreadHandles.take t.nThreadHandles).foldl resumeHeld t
  { t with hThreadHandles := [], nThreadHandles := 0 }

/-- `g_hThreadHandles` while it is being filled, `nCurrentThread`, and the threads. -/
structure Filling where
  handles : List (Option ThreadHandle)
  nCurrentThread : ℕ
  threads : Threads

section Filling

variable (pbCode : Address) (cbBytes : ℕ) (v : ThreadView)

/-- A failure is written down, and overwritten by the next handle. -/
def fill (f : Filling) (dwThreadId : ℕ) : Filling :=
  let (r, threads) := suspendOneThread pbCode cbBytes (v.look dwThreadId) dwThreadId f.threads
  { handles := f.handles.set f.nCurrentThread r
    nCurrentThread := if r.isSome then f.nCurrentThread + 1 else f.nCurrentThread
    threads := threads }

/-- Room for as many handles as there are threads. -/
def beginFilling (nThreadsInProcess : ℕ) (t : Threads) : Filling :=
  ⟨List.replicate nThreadsInProcess none, 0, t⟩

def suspendOtherThreads (t : Threads) : Bool × Threads :=
  match v.snapshot with
  | none => (false, resumeOtherThreads t)
  | some entries =>
    let others := v.others entries
    if others = [] then (false, resumeOtherThreads t)
    else if v.malloc then
      let f := others.foldl (fill pbCode cbBytes v) (beginFilling others.length t)
      (true, { f.threads with
        hThreadHandles := f.handles
        nThreadHandles := f.nCurrentThread })
    else (false, resumeOtherThreads { t with hThreadHandles := [] })

end Filling

/-! ## Which threads are held -/

/-- The thread is in the code. -/
def Look.collides (l : Look) (pbCode : Address) (cbBytes n : ℕ) : Bool :=
  (l.getThreadContext n).any fun pIp => colliding pbCode cbBytes pIp

/-- At the last look the thread was outside the code, or nothing could be said; it was in the code
at every look before. -/
def Look.Out (l : Look) (pbCode : Address) (cbBytes : ℕ) : Prop :=
  ∃ n ≤ maxTries, l.collides pbCode cbBytes n = false ∧
    ∀ k < n, l.collides pbCode cbBytes k = true

instance (l : Look) (pbCode : Address) (cbBytes : ℕ) : Decidable (l.Out pbCode cbBytes) :=
  inferInstanceAs (Decidable (∃ n ≤ maxTries, _))

namespace ThreadView

/-- The handle by which a thread is held. -/
def heldOf (v : ThreadView) (pbCode : Address) (cbBytes dwThreadId : ℕ) : Option ThreadHandle :=
  if (v.look dwThreadId).suspendThread ∧ (v.look dwThreadId).Out pbCode cbBytes then
    (v.look dwThreadId).openThread.map fun value => ⟨value, dwThreadId⟩
  else none

/-- The handles to all threads that are held, in the order of the snapshot. -/
def held (v : ThreadView) (pbCode : Address) (cbBytes : ℕ) : List ThreadHandle :=
  match v.snapshot with
  | none => []
  | some entries =>
    if v.malloc then (v.others entries).filterMap (v.heldOf pbCode cbBytes) else []

/-- The thread can be suspended again whenever it has been resumed. -/
def Steady (v : ThreadView) (dwThreadId : ℕ) : Prop :=
  ∀ n, (v.look dwThreadId).suspendAgain n = true

end ThreadView

/-! ## Nothing is lost -/

/-- Nothing is held. -/
structure Threads.Idle (t : Threads) : Prop where
  handles : t.hThreadHandles = []
  number : t.nThreadHandles = 0

/-- The same handles are open, and the threads that matter are suspended as often. -/
structure Threads.Agrees (steady : ℕ → Prop) (t u : Threads) : Prop where
  opened : t.opened = u.opened
  handles : t.hThreadHandles = u.hThreadHandles
  number : t.nThreadHandles = u.nThreadHandles
  count : ∀ i, steady i → t.suspendCount i = u.suspendCount i

section Balance

variable {steady : ℕ → Prop} {t t₀ u w : Threads} {h : ThreadHandle} {l : Look}
  {pbCode : Address} {cbBytes : ℕ} {v : ThreadView}

theorem exists_of_collides {n : ℕ} (h : l.collides pbCode cbBytes n = true) :
    ∃ pIp, l.getThreadContext n = some pIp ∧ colliding pbCode cbBytes pIp := by
  unfold Look.collides at h
  cases hcontext : l.getThreadContext n with
  | none => simp [hcontext] at h
  | some pIp => exact ⟨pIp, rfl, by simpa [hcontext] using h⟩

theorem Threads.Agrees.refl (steady : ℕ → Prop) (t : Threads) : t.Agrees steady t :=
  ⟨rfl, rfl, rfl, fun _ _ => rfl⟩

theorem Threads.Agrees.trans (h₁ : t.Agrees steady u) (h₂ : u.Agrees steady w) :
    t.Agrees steady w :=
  ⟨h₁.opened.trans h₂.opened, h₁.handles.trans h₂.handles, h₁.number.trans h₂.number,
    fun i hi => (h₁.count i hi).trans (h₂.count i hi)⟩

/-- Suspending a thread and resuming it leaves its count as it was. -/
theorem resume_agrees (hagrees : t.Agrees steady (t₀.suspendThread h)) :
    (t.resumeThread h).Agrees steady t₀ := by
  refine ⟨hagrees.opened, hagrees.handles, hagrees.number, ?_⟩
  intro i hi
  have hcount := hagrees.count i hi
  by_cases hsame : i = h.thread
  · subst hsame
    simp only [Threads.resumeThread, Threads.suspendThread, Threads.setCount,
      Function.update_self] at hcount ⊢
    omega
  · simpa [Threads.resumeThread, Threads.suspendThread, Threads.setCount, hsame] using hcount

theorem suspend_agrees (hagrees : t.Agrees steady u) :
    (t.suspendThread h).Agrees steady (u.suspendThread h) := by
  refine ⟨hagrees.opened, hagrees.handles, hagrees.number, ?_⟩
  intro i hi
  have hcount := hagrees.count i hi
  by_cases hsame : i = h.thread
  · subst hsame
    simp [Threads.suspendThread, Threads.setCount, hcount]
  · simpa [Threads.suspendThread, Threads.setCount, hsame] using hcount

/-- A thread that does not matter may be suspended or not. -/
theorem agrees_suspend_of_not_steady (hnot : ¬ steady h.thread) :
    t.Agrees steady (t.suspendThread h) := by
  refine ⟨rfl, rfl, rfl, ?_⟩
  intro i hi
  have hne : i ≠ h.thread := fun hsame => hnot (hsame ▸ hi)
  simp [Threads.suspendThread, Threads.setCount, hne]

theorem close_agrees (hagrees : t.Agrees steady (t₀.openThread h)) :
    (t.closeHandle h).Agrees steady t₀ := by
  refine ⟨?_, hagrees.handles, hagrees.number, hagrees.count⟩
  simp [Threads.closeHandle, hagrees.opened, Threads.openThread]

/-- A thread that is not in the code is not looked at again. -/
theorem lookLoop_of_not_collides (left : ℕ) {n : ℕ} (hnot : ¬ l.collides pbCode cbBytes n = true) :
    lookLoop pbCode cbBytes l h left n t = (some h, t) := by
  cases hcontext : l.getThreadContext n with
  | none => cases left <;> simp only [lookLoop, hcontext]
  | some pIp =>
    have houtside : ¬ colliding pbCode cbBytes pIp := by
      simpa [Look.collides, hcontext] using hnot
    cases left <;> simp only [lookLoop, hcontext, houtside, if_false]

/-- Either the thread was last seen outside the code, and is held once more than before, or it was
in the code at every look, and nothing has changed. -/
theorem lookLoop_cases (pbCode : Address) (cbBytes : ℕ)
    (hsteady : steady h.thread → ∀ n, l.suspendAgain n = true) {left n : ℕ}
    (hn : n + left = maxTries) (hbefore : ∀ k < n, l.collides pbCode cbBytes k = true)
    (hagrees : t.Agrees steady ((t₀.openThread h).suspendThread h)) :
    (l.Out pbCode cbBytes ∧ (lookLoop pbCode cbBytes l h left n t).1 = some h ∧
      (lookLoop pbCode cbBytes l h left n t).2.Agrees steady
        ((t₀.openThread h).suspendThread h)) ∨
    (¬ l.Out pbCode cbBytes ∧ (lookLoop pbCode cbBytes l h left n t).1 = none ∧
      (lookLoop pbCode cbBytes l h left n t).2.Agrees steady t₀) := by
  induction left generalizing n t with
  | zero =>
    by_cases hcollides : l.collides pbCode cbBytes n = true
    · obtain ⟨pIp, hcontext, hcolliding⟩ := exists_of_collides hcollides
      simp only [lookLoop, hcontext, hcolliding, if_true]
      refine .inr ⟨?_, trivial, close_agrees (resume_agrees hagrees)⟩
      rintro ⟨k, hk, hout, -⟩
      have hall : l.collides pbCode cbBytes k = true := by
        rcases Nat.lt_or_eq_of_le (show k ≤ n by omega) with hlt | rfl
        · exact hbefore k hlt
        · exact hcollides
      exact absurd (hall.symm.trans hout) Bool.noConfusion
    · rw [lookLoop_of_not_collides 0 hcollides]
      exact .inl ⟨⟨n, by omega, by simpa using hcollides, hbefore⟩, rfl, hagrees⟩
  | succ left ih =>
    by_cases hcollides : l.collides pbCode cbBytes n = true
    · obtain ⟨pIp, hcontext, hcolliding⟩ := exists_of_collides hcollides
      simp only [lookLoop, hcontext, hcolliding, if_true]
      apply ih (by omega)
      · intro k hk
        rcases Nat.lt_succ_iff_lt_or_eq.mp hk with hlt | rfl
        · exact hbefore k hlt
        · exact hcollides
      · have hresumed := resume_agrees hagrees
        by_cases hagain : l.suspendAgain n = true
        · rw [if_pos hagain]
          exact suspend_agrees hresumed
        · rw [if_neg hagain]
          exact hresumed.trans (agrees_suspend_of_not_steady fun hs => hagain (hsteady hs n))
    · rw [lookLoop_of_not_collides (left + 1) hcollides]
      exact .inl ⟨⟨n, by omega, by simpa using hcollides, hbefore⟩, rfl, hagrees⟩

theorem suspendOneThread_cases (pbCode : Address) (cbBytes dwThreadId : ℕ) (t : Threads) :
    (∃ h, v.heldOf pbCode cbBytes dwThreadId = some h ∧
      (suspendOneThread pbCode cbBytes (v.look dwThreadId) dwThreadId t).1 = some h ∧
      (suspendOneThread pbCode cbBytes (v.look dwThreadId) dwThreadId t).2.Agrees v.Steady
        ((t.openThread h).suspendThread h)) ∨
    (v.heldOf pbCode cbBytes dwThreadId = none ∧
      (suspendOneThread pbCode cbBytes (v.look dwThreadId) dwThreadId t).1 = none ∧
      (suspendOneThread pbCode cbBytes (v.look dwThreadId) dwThreadId t).2.Agrees v.Steady t) := by
  rw [suspendOneThread, ThreadView.heldOf]
  cases (v.look dwThreadId).openThread with
  | none => exact .inr ⟨by simp, rfl, .refl v.Steady t⟩
  | some value =>
    by_cases hsuspend : (v.look dwThreadId).suspendThread = true
    · simp only [hsuspend, if_true, true_and]
      have hsteady : v.Steady dwThreadId → ∀ n, (v.look dwThreadId).suspendAgain n = true := id
      have hloop := lookLoop_cases (h := ⟨value, dwThreadId⟩) pbCode cbBytes hsteady
        (Nat.zero_add maxTries) (fun k hk => absurd hk (Nat.not_lt_zero k))
        (.refl v.Steady ((t.openThread _).suspendThread _))
      rcases hloop with ⟨hout, hsome, hheld⟩ | ⟨hnot, hnone, hsame⟩
      · exact .inl ⟨_, if_pos hout, hsome, hheld⟩
      · exact .inr ⟨if_neg hnot, hnone, hsame⟩
    · simp only [hsuspend, Bool.false_eq_true, if_false, false_and]
      exact .inr ⟨trivial, trivial, close_agrees (.refl v.Steady _)⟩

/-! ### Filling the table -/

/-- What the table holds after some threads have been visited: the handles `hs`, and room for the
others. -/
structure Filling.Holds (v : ThreadView) (t : Threads) (f : Filling) (hs : List ThreadHandle) :
    Prop where
  taken : f.handles.take f.nCurrentThread = hs.map some
  number : f.nCurrentThread = hs.length
  opened : f.threads.opened = hs.reverse ++ t.opened
  count : ∀ i, v.Steady i →
    f.threads.suspendCount i = t.suspendCount i + hs.countP (·.thread = i)

variable {f : Filling} {hs : List ThreadHandle}

theorem length_fill (dwThreadId : ℕ) :
    (fill pbCode cbBytes v f dwThreadId).handles.length = f.handles.length :=
  List.length_set

theorem fill_none {t' : Threads}
    (h : suspendOneThread pbCode cbBytes (v.look n) n f.threads = (none, t')) :
    fill pbCode cbBytes v f n = ⟨f.handles.set f.nCurrentThread none, f.nCurrentThread, t'⟩ := by
  simp [fill, h]

theorem fill_some {t' : Threads}
    (hsome : suspendOneThread pbCode cbBytes (v.look n) n f.threads = (some h, t')) :
    fill pbCode cbBytes v f n =
      ⟨f.handles.set f.nCurrentThread (some h), f.nCurrentThread + 1, t'⟩ := by
  simp [fill, hsome]

/-- There is room for the handle, and it is added to the others. -/
theorem fill_holds (pbCode : Address) (cbBytes n : ℕ) (hholds : f.Holds v t hs)
    (hroom : hs.length < f.handles.length) :
    (fill pbCode cbBytes v f n).Holds v t (hs ++ (v.heldOf pbCode cbBytes n).toList) := by
  have hindex : f.nCurrentThread < f.handles.length := by
    rw [hholds.number]
    exact hroom
  have hcases := suspendOneThread_cases (v := v) pbCode cbBytes n f.threads
  rcases hone : suspendOneThread pbCode cbBytes (v.look n) n f.threads with ⟨r, t'⟩
  rw [hone] at hcases
  rcases hcases with ⟨h, hheld, rfl, hagrees⟩ | ⟨hheld, rfl, hagrees⟩
  · have hopened : t'.opened = h :: f.threads.opened := hagrees.opened
    rw [fill_some hone, hheld, Option.toList_some]
    refine ⟨?_, ?_, ?_, ?_⟩
    · rw [List.take_succ_eq_append_getElem (by rwa [List.length_set]),
        List.take_set_of_le (le_refl _), hholds.taken]
      simp
    · simp [hholds.number]
    · simp [hopened, hholds.opened]
    · intro i hi
      have hcount := hholds.count i hi
      rw [hagrees.count i hi, List.countP_append]
      by_cases hsame : i = h.thread
      · subst hsame
        simp [Threads.suspendThread, Threads.setCount, Threads.openThread, hcount]
        omega
      · have hne : ¬ h.thread = i := Ne.symm hsame
        simp [Threads.suspendThread, Threads.setCount, Threads.openThread, hsame, hne, hcount]
  · rw [fill_none hone, hheld, Option.toList_none, List.append_nil]
    refine ⟨?_, hholds.number, ?_, ?_⟩
    · rw [List.take_set_of_le (le_refl _)]
      exact hholds.taken
    · rw [hagrees.opened, hholds.opened]
    · intro i hi
      rw [hagrees.count i hi, hholds.count i hi]

theorem length_heldOf_le (v : ThreadView) (pbCode : Address) (cbBytes n : ℕ) :
    (v.heldOf pbCode cbBytes n).toList.length ≤ 1 := by
  cases v.heldOf pbCode cbBytes n <;> simp

/-- No thread more is held than visited, so there is room for every one of them. -/
theorem fillAll_holds (pbCode : Address) (cbBytes : ℕ) (ids : List ℕ) (hholds : f.Holds v t hs)
    (hroom : hs.length + ids.length ≤ f.handles.length) :
    (ids.foldl (fill pbCode cbBytes v) f).Holds v t
      (hs ++ ids.filterMap (v.heldOf pbCode cbBytes)) := by
  induction ids generalizing f hs with
  | nil => simpa using hholds
  | cons n ids ih =>
    rw [List.length_cons] at hroom
    have hle := length_heldOf_le v pbCode cbBytes n
    have hroom' : (hs ++ (v.heldOf pbCode cbBytes n).toList).length + ids.length ≤
        (fill pbCode cbBytes v f n).handles.length := by
      rw [length_fill, List.length_append]
      omega
    have hnext := ih (fill_holds pbCode cbBytes n hholds (by omega)) hroom'
    have hsum : (n :: ids).filterMap (v.heldOf pbCode cbBytes) =
        (v.heldOf pbCode cbBytes n).toList ++ ids.filterMap (v.heldOf pbCode cbBytes) := by
      rw [List.filterMap_cons]
      cases v.heldOf pbCode cbBytes n <;> rfl
    rwa [hsum, ← List.append_assoc]

theorem beginFilling_holds (v : ThreadView) (n : ℕ) (t : Threads) :
    (beginFilling n t).Holds v t [] :=
  ⟨rfl, rfl, rfl, fun _ _ => rfl⟩

/-- While threads remain to be visited, the next handle has a place in the table. -/
theorem nCurrentThread_lt {others ids rest : List ℕ} {i : ℕ} (h : others = ids ++ i :: rest)
    (pbCode : Address) (cbBytes : ℕ) (v : ThreadView) (t : Threads) :
    (ids.foldl (fill pbCode cbBytes v) (beginFilling others.length t)).nCurrentThread <
      others.length := by
  have hlength : others.length = ids.length + (rest.length + 1) := by simp [h]
  have hroom : ids.length ≤ (beginFilling others.length t).handles.length := by
    simp [beginFilling, hlength]
  have hholds := fillAll_holds pbCode cbBytes ids (beginFilling_holds v others.length t)
    (by simpa using hroom)
  have hle := List.length_filterMap_le (v.heldOf pbCode cbBytes) ids
  rw [hholds.number, List.nil_append]
  omega

/-! ### Resuming -/

theorem resumeHeld_all (L P : List ThreadHandle) (hperm : P.Perm hs)
    (hopened : t.opened = P ++ L) :
    ((hs.map some).foldl resumeHeld t).opened = L ∧
      ∀ i, ((hs.map some).foldl resumeHeld t).suspendCount i =
        t.suspendCount i - hs.countP (·.thread = i) := by
  induction hs generalizing t P with
  | nil =>
    obtain rfl := hperm.eq_nil
    exact ⟨hopened, fun i => by simp⟩
  | cons h hs ih =>
    have hmem : h ∈ P := hperm.mem_iff.mpr (by simp)
    have hopened' : (resumeHeld t (some h)).opened = P.erase h ++ L := by
      simp only [resumeHeld, Threads.closeHandle, Threads.resumeThread, Threads.setCount, hopened]
      exact List.erase_append_left L hmem
    have hrest : (P.erase h).Perm hs := by
      have := hperm.erase h
      rwa [List.erase_cons_head] at this
    obtain ⟨hall, hcount⟩ := ih (P.erase h) hrest hopened'
    refine ⟨hall, ?_⟩
    intro i
    rw [List.map_cons, List.foldl_cons, hcount i, List.countP_cons]
    by_cases hsame : i = h.thread
    · subst hsame
      simp [resumeHeld, Threads.closeHandle, Threads.resumeThread, Threads.setCount]
      omega
    · have hne : ¬ h.thread = i := Ne.symm hsame
      simp [resumeHeld, Threads.closeHandle, Threads.resumeThread, Threads.setCount, hsame, hne]

/-- The table leads from what was before to what is now, and back. -/
structure Threads.Suspended (v : ThreadView) (t u : Threads) (hs : List ThreadHandle) : Prop where
  held : u.hThreadHandles.take u.nThreadHandles = hs.map some
  opened : u.opened = hs.reverse ++ t.opened
  count : ∀ i, v.Steady i → u.suspendCount i = t.suspendCount i + hs.countP (·.thread = i)

theorem resumeOtherThreads_agrees (hidle : t.Idle) (h : Threads.Suspended v t u hs) :
    (resumeOtherThreads u).Agrees v.Steady t := by
  obtain ⟨hopened, hcount⟩ := resumeHeld_all t.opened hs.reverse hs.reverse_perm h.opened
  rw [← h.held] at hopened hcount
  refine ⟨hopened, hidle.handles.symm, hidle.number.symm, ?_⟩
  intro i hi
  have hall := hcount i
  rw [h.count i hi, Nat.add_sub_cancel] at hall
  exact hall

theorem resumeOtherThreads_of_idle (hidle : t.Idle) : resumeOtherThreads t = t := by
  obtain ⟨suspendCount, opened, handles, number⟩ := t
  obtain ⟨rfl, rfl⟩ := hidle
  rfl

theorem suspended_self (hidle : t.Idle) : Threads.Suspended v t t [] := by
  refine ⟨?_, rfl, fun i _ => rfl⟩
  rw [hidle.handles]
  exact List.take_nil

theorem suspendOtherThreads_suspended (pbCode : Address) (cbBytes : ℕ) (v : ThreadView)
    (hidle : t.Idle) : Threads.Suspended v t (suspendOtherThreads pbCode cbBytes v t).2
      (v.held pbCode cbBytes) := by
  rw [suspendOtherThreads, ThreadView.held]
  cases v.snapshot with
  | none =>
    dsimp only
    rw [resumeOtherThreads_of_idle hidle]
    exact suspended_self hidle
  | some entries =>
    dsimp only
    split_ifs with hnone hmalloc hmalloc
    · rw [resumeOtherThreads_of_idle hidle, hnone]
      exact suspended_self hidle
    · rw [resumeOtherThreads_of_idle hidle]
      exact suspended_self hidle
    · have hholds := fillAll_holds pbCode cbBytes (v.others entries)
        (beginFilling_holds v (v.others entries).length t) (by simp [beginFilling])
      rw [List.nil_append] at hholds
      exact ⟨hholds.taken, hholds.opened, hholds.count⟩
    · have hnull : { t with hThreadHandles := [] } = t := by
        rw [← hidle.handles]
      rw [hnull, resumeOtherThreads_of_idle hidle]
      exact suspended_self hidle

theorem out_of_mem_held (hmem : h ∈ v.held pbCode cbBytes) :
    (v.look h.thread).Out pbCode cbBytes := by
  unfold ThreadView.held at hmem
  split at hmem
  · cases hmem
  · split_ifs at hmem
    · obtain ⟨i, -, hi⟩ := List.mem_filterMap.mp hmem
      unfold ThreadView.heldOf at hi
      split_ifs at hi with hout
      obtain ⟨value, -, rfl⟩ := Option.map_eq_some_iff.mp hi
      exact hout.2
    · cases hmem

/-- What the table holds is a handle to each other thread of the process that could be opened and
suspended and was last seen outside the code, as far as this could be seen; each thread has been
suspended once for each handle, no handle has been stored outside the table, and resuming leaves
everything as it was. -/
theorem suspendOtherThreads_balanced (pbCode : Address) (cbBytes : ℕ) (v : ThreadView)
    (hidle : t.Idle) :
    Threads.Suspended v t (suspendOtherThreads pbCode cbBytes v t).2 (v.held pbCode cbBytes) ∧
      (∀ h ∈ v.held pbCode cbBytes, (v.look h.thread).Out pbCode cbBytes) ∧
      (∀ entries, v.snapshot = some entries → ∀ ids i rest,
        v.others entries = ids ++ i :: rest →
          (ids.foldl (fill pbCode cbBytes v)
            (beginFilling (v.others entries).length t)).nCurrentThread <
            (v.others entries).length) ∧
      (resumeOtherThreads (suspendOtherThreads pbCode cbBytes v t).2).Agrees v.Steady t := by
  have hsuspended := suspendOtherThreads_suspended pbCode cbBytes v hidle
  refine ⟨hsuspended, fun _ => out_of_mem_held, ?_, resumeOtherThreads_agrees hidle hsuspended⟩
  intro entries _ ids i rest h
  exact nCurrentThread_lt h pbCode cbBytes v t

/-- Two other threads, one of which is in the code when it is looked at first. -/
def twoThreads : ThreadView where
  snapshot := some [(7, 1), (7, 2), (8, 4), (7, 3)]
  currentProcess := 7
  currentThread := 1
  malloc := true
  look n := {
    openThread := some n
    suspendThread := true
    getThreadContext := fun k => if n = 2 ∧ k = 0 then some 0x140001002 else some 0x140002000
    suspendAgain := fun _ => true }

/-- No thread is suspended, and no handle open. -/
def Threads.start : Threads := ⟨fun _ => 0, [], [], 0⟩

theorem suspendOtherThreads_balanced_two : twoThreads.held 0x140001000 7 = [⟨2, 2⟩, ⟨3, 3⟩] ∧
    Threads.Suspended twoThreads .start (suspendOtherThreads 0x140001000 7 twoThreads .start).2
      (twoThreads.held 0x140001000 7) ∧
    (resumeOtherThreads (suspendOtherThreads 0x140001000 7 twoThreads .start).2).Agrees
      twoThreads.Steady .start :=
  have h := suspendOtherThreads_balanced 0x140001000 7 twoThreads (t := .start) ⟨rfl, rfl⟩
  ⟨by decide, h.1, h.2.2.2⟩

end Balance

end ComputerLock.Mhook
