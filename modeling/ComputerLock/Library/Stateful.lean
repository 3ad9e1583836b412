import Mathlib.Data.List.Basic
import Mathlib.Tactic.SplitIfs

/-!
# Programs with state

A program in `EStateM ε σ` may fail, and leaves a state whether it fails or not. A program
about a part of the state runs on the whole, and a loop whose body keeps an invariant ends
as its first bad turn says.
-/

namespace Library.Stateful

variable {ε σ τ α β : Type}

/-- Run a program on the part of the state that `get` reads and `put` replaces. -/
def zoom (get : σ → τ) (put : τ → σ → σ) (x : EStateM ε τ α) : EStateM ε σ α := fun s =>
  match x.run (get s) with
  | .ok a t => .ok a (put t s)
  | .error e t => .error e (put t s)

def ofExcept : Except ε α → EStateM ε σ α
  | .ok a => pure a
  | .error e => throw e

/-- The state a program leaves, failing or not. -/
def final (x : EStateM ε σ α) (s : σ) : σ :=
  match x.run s with
  | .ok _ t => t
  | .error _ t => t

/-- Whether a program fails. -/
def failed (x : EStateM ε σ α) (s : σ) : Bool :=
  match x.run s with
  | .ok _ _ => false
  | .error _ _ => true

@[simp] theorem run_throw (e : ε) (s : σ) :
    (throw e : EStateM ε σ α).run s = .error e s := rfl

@[simp] theorem run_ofExcept_ok (a : α) (s : σ) :
    (ofExcept (.ok a : Except ε α) : EStateM ε σ α).run s = .ok a s := rfl

@[simp] theorem run_ofExcept_error (e : ε) (s : σ) :
    (ofExcept (.error e : Except ε α) : EStateM ε σ α).run s = .error e s := rfl

@[simp] theorem run_zoom (get : σ → τ) (put : τ → σ → σ) (x : EStateM ε τ α) (s : σ) :
    (zoom get put x).run s =
      match x.run (get s) with
      | .ok a t => .ok a (put t s)
      | .error e t => .error e (put t s) := rfl

theorem final_zoom (get : σ → τ) (put : τ → σ → σ) (x : EStateM ε τ α) (s : σ) :
    final (zoom get put x) s = put (final x (get s)) s := by
  rw [final, final, run_zoom]
  cases x.run (get s) <;> rfl

theorem failed_zoom (get : σ → τ) (put : τ → σ → σ) (x : EStateM ε τ α) (s : σ) :
    failed (zoom get put x) s = failed x (get s) := by
  rw [failed, failed, run_zoom]
  cases x.run (get s) <;> rfl

theorem final_bind_ok {x : EStateM ε σ α} {f : α → EStateM ε σ β} {s t : σ} {a : α}
    (h : x.run s = .ok a t) : final (x >>= f) s = final (f a) t := by
  rw [final, final, EStateM.run_bind, h]

theorem final_bind_error {x : EStateM ε σ α} {f : α → EStateM ε σ β} {s t : σ} {e : ε}
    (h : x.run s = .error e t) : final (x >>= f) s = t := by
  rw [final, EStateM.run_bind, h]

/-! ## Invariants -/

section Invariants

variable {P : σ → Prop}

/-- A program keeps an invariant, failing or not. -/
def Keeps (P : σ → Prop) (x : EStateM ε σ α) : Prop := ∀ s, P s → P (final x s)

theorem Keeps.bind {x : EStateM ε σ α} {f : α → EStateM ε σ β} (hx : Keeps P x)
    (hf : ∀ a, Keeps P (f a)) : Keeps P (x >>= f) := by
  intro s hs
  have hstep := hx s hs
  cases hrun : x.run s with
  | ok a t =>
    rw [final_bind_ok hrun]
    rw [final, hrun] at hstep
    exact hf a t hstep
  | error e t =>
    rw [final_bind_error hrun]
    rwa [final, hrun] at hstep

theorem keeps_pure (a : α) : Keeps P (pure a : EStateM ε σ α) := fun _ hs => hs

theorem keeps_throw (e : ε) : Keeps P (throw e : EStateM ε σ α) := fun _ hs => hs

theorem keeps_get : Keeps P (get : EStateM ε σ σ) := fun _ hs => hs

theorem keeps_modify {g : σ → σ} (h : ∀ s, P s → P (g s)) :
    Keeps P (modify g : EStateM ε σ PUnit) := h

theorem keeps_ofExcept (x : Except ε α) : Keeps P (ofExcept x : EStateM ε σ α) := by
  cases x <;> exact fun _ hs => hs

end Invariants

/-! ## Loops -/

section Loops

variable {f : α → EStateM ε σ PUnit} {P : σ → Prop} {as : List α} {s : σ}

theorem run_forM_cons_ok {a : α} {t : σ} (h : (f a).run s = .ok () t) :
    ((a :: as).forM f).run s = (as.forM f).run t := by
  rw [List.forM_eq_forM, List.forM_cons, EStateM.run_bind, h]

theorem run_forM_cons_error {a : α} {e : ε} {t : σ} (h : (f a).run s = .error e t) :
    ((a :: as).forM f).run s = .error e t := by
  rw [List.forM_eq_forM, List.forM_cons, EStateM.run_bind, h]

/-- A loop whose turns keep an invariant returns, and the invariant holds then. -/
theorem forM_keeps (keep : ∀ a ∈ as, ∀ s, P s → ∃ t, (f a).run s = .ok () t ∧ P t) (hs : P s) :
    ∃ t, (as.forM f).run s = .ok () t ∧ P t := by
  induction as generalizing s with
  | nil => exact ⟨s, rfl, hs⟩
  | cons a as ih =>
    obtain ⟨t, hrun, ht⟩ := keep a (by simp) s hs
    obtain ⟨u, hrest, hu⟩ := ih (fun b hb => keep b (by simp [hb])) ht
    exact ⟨u, (run_forM_cons_ok hrun).trans hrest, hu⟩

/-- A loop that returns has come through good turns only. -/
theorem forM_ok_imp {good : α → Prop} {t : σ}
    (keep : ∀ a ∈ as, ∀ s, P s → good a → ∃ t, (f a).run s = .ok () t ∧ P t)
    (returned : ∀ a ∈ as, ∀ s t, (f a).run s = .ok () t → good a)
    (hs : P s) (hrun : (as.forM f).run s = .ok () t) : ∀ a ∈ as, good a := by
  induction as generalizing s with
  | nil => simp
  | cons a as ih =>
    cases hstep : (f a).run s with
    | error e u =>
      rw [run_forM_cons_error hstep] at hrun
      cases hrun
    | ok _ u =>
      have ha := returned a (by simp) s u hstep
      obtain ⟨u', hkept, hu⟩ := keep a (by simp) s hs ha
      cases hstep.symm.trans hkept
      rw [run_forM_cons_ok hstep] at hrun
      exact List.forall_mem_cons.mpr ⟨ha, ih (fun b hb => keep b (by simp [hb]))
        (fun b hb => returned b (by simp [hb])) hu hrun⟩

/-- A loop fails as one of its turns does. -/
theorem exists_of_run_forM_error {e : ε} {t : σ} (h : (as.forM f).run s = .error e t) :
    ∃ a ∈ as, ∃ u, (f a).run u = .error e t := by
  induction as generalizing s with
  | nil => cases h
  | cons a as ih =>
    cases hstep : (f a).run s with
    | ok _ u =>
      rw [run_forM_cons_ok hstep] at h
      obtain ⟨b, hb, hfail⟩ := ih h
      exact ⟨b, by simp [hb], hfail⟩
    | error e' u =>
      rw [run_forM_cons_error hstep] at h
      exact ⟨a, by simp, s, hstep.trans h⟩

end Loops

/-! ## Logged loops -/

section Logs

variable {bad : α → Prop} [DecidablePred bad]

/-- What a loop begins that its first bad turn ends. -/
def upTo (bad : α → Prop) [DecidablePred bad] : List α → List α
  | [] => []
  | a :: as => a :: if bad a then [] else upTo bad as

theorem upTo_isPrefix (as : List α) : upTo bad as <+: as := by
  induction as with
  | nil => simp [upTo]
  | cons a as ih =>
    rw [upTo, List.prefix_cons_inj]
    split_ifs
    · exact List.nil_prefix
    · exact ih

/-- A loop begins all its turns when none but the last is bad. -/
theorem upTo_concat_eq_self_iff {as : List α} {b : α} :
    upTo bad (as ++ [b]) = as ++ [b] ↔ ∀ a ∈ as, ¬ bad a := by
  induction as with
  | nil => simp [upTo]
  | cons a as ih =>
    rw [List.cons_append, upTo, List.cons.injEq, List.forall_mem_cons, ← ih]
    by_cases h : bad a <;> simp [h]

/-- A turn that is not bad goes on, and every turn puts its mark on the log. -/
structure Logs (f : α → EStateM ε σ PUnit) (log : σ → List β) (bad : α → Prop)
    (mark : α → β) (a : α) : Prop where
  logged : ∀ s, log (final (f a) s) = log s ++ [mark a]
  failed_iff : ∀ s, failed (f a) s = true ↔ bad a

theorem final_forM_log {f : α → EStateM ε σ PUnit} {log : σ → List β} {mark : α → β}
    {as : List α} (turns : ∀ a ∈ as, Logs f log bad mark a) (s : σ) :
    log (final (as.forM f) s) = log s ++ (upTo bad as).map mark := by
  induction as generalizing s with
  | nil => simp [upTo, final]
  | cons a as ih =>
    obtain ⟨logged, failed_iff⟩ := turns a (by simp)
    have hlog := logged s
    have hbad := failed_iff s
    cases hstep : (f a).run s with
    | ok _ t =>
      simp only [final, failed, hstep] at hlog hbad
      have hgood : ¬ bad a := by simpa using hbad
      have hrest := ih (fun b hb => turns b (by simp [hb])) t
      rw [final, run_forM_cons_ok hstep, ← final, hrest, hlog, upTo, if_neg hgood]
      simp
    | error e t =>
      simp only [final, failed, hstep] at hlog hbad
      have hthrown : bad a := by simpa using hbad
      rw [final, run_forM_cons_error hstep, upTo, if_pos hthrown]
      simpa using hlog

end Logs

/-! ## Loops on a part of the state -/

section Parts

variable {get : σ → τ}

/-- Seen through `get`, one program does what the other does. -/
structure Simulates (get : σ → τ) (x : EStateM ε σ PUnit) (y : EStateM ε τ PUnit) : Prop where
  final_eq : ∀ s, get (final x s) = final y (get s)
  failed_eq : ∀ s, failed x s = failed y (get s)

theorem final_forM_simulates {f : α → EStateM ε σ PUnit} {g : β → EStateM ε τ PUnit}
    {h : α → β} {as : List α} (turns : ∀ a ∈ as, Simulates get (f a) (g (h a))) (s : σ) :
    get (final (as.forM f) s) = final ((as.map h).forM g) (get s) := by
  induction as generalizing s with
  | nil => rfl
  | cons a as ih =>
    obtain ⟨final_eq, failed_eq⟩ := turns a (by simp)
    have hfinal := final_eq s
    have hfailed := failed_eq s
    have hrest := ih fun b hb => turns b (by simp [hb])
    rw [List.map_cons]
    cases hf : (f a).run s with
    | ok _ t =>
      cases hg : (g (h a)).run (get s) with
      | ok _ u =>
        simp only [final, hf, hg] at hfinal
        rw [final, final, run_forM_cons_ok hf, run_forM_cons_ok hg, ← hfinal]
        exact hrest t
      | error _ u => simp [failed, hf, hg] at hfailed
    | error _ t =>
      cases hg : (g (h a)).run (get s) with
      | ok _ u => simp [failed, hf, hg] at hfailed
      | error _ u =>
        simp only [final, hf, hg] at hfinal
        rwa [final, final, run_forM_cons_error hf, run_forM_cons_error hg]

end Parts

end Library.Stateful
