import Mathlib.Data.List.Pairwise
import Mathlib.Data.List.Perm.Basic
import ComputerLock.Library.AddressSpace

/-!
# Patches that can be taken back

A patch changes a block of a memory and remembers what was there. As long as the blocks are
apart, patches can be taken back in any order, and the memory without them does not depend on it.
-/

namespace Library.AddressSpace

variable {w : ℕ}

structure Patch (w : ℕ) where
  start : BitVec w
  saved : List UInt8

namespace Patch

/-- The address lies in the block that has been changed. -/
def Covers (p : Patch w) (x : BitVec w) : Prop := Within p.start p.saved.length x

def Apart (p q : Patch w) : Prop :=
  AddressSpace.Apart p.start p.saved.length q.start q.saved.length

variable {m m' : Memory w} {p q : Patch w} {ps qs : List (Patch w)} {x : BitVec w}

theorem Apart.symm (h : p.Apart q) : q.Apart p := AddressSpace.Apart.symm h

def undo (m : Memory w) (p : Patch w) : Memory w := write m p.start p.saved

/-- The memory without the patches. -/
def original (m : Memory w) (ps : List (Patch w)) : Memory w := ps.foldr (fun p m => undo m p) m

@[simp] theorem original_nil (m : Memory w) : original m [] = m := rfl

@[simp] theorem original_cons (m : Memory w) (p : Patch w) (ps : List (Patch w)) :
    original m (p :: ps) = undo (original m ps) p := rfl

theorem undo_of_not_covers (h : ¬ p.Covers x) : undo m p x = m x := write_of_not_within h

/-- What a patch remembers does not depend on the memory. -/
theorem undo_of_covers (h : p.Covers x) : undo m p x = undo m' p x := by
  rw [undo, undo, write_of_within h, write_of_within h]

theorem original_of_not_covers (h : ∀ p ∈ ps, ¬ p.Covers x) : original m ps x = m x := by
  induction ps with
  | nil => rfl
  | cons p ps ih =>
    rw [original_cons, undo_of_not_covers (h p (by simp))]
    exact ih fun q hq => h q (by simp [hq])

/-- Where two memories agree, they agree without the patches. -/
theorem original_congr (h : m x = m' x) (ps : List (Patch w)) :
    original m ps x = original m' ps x := by
  induction ps with
  | nil => exact h
  | cons p ps ih =>
    by_cases hp : p.Covers x
    · exact undo_of_covers hp
    · rw [original_cons, original_cons, undo_of_not_covers hp, undo_of_not_covers hp, ih]

theorem undo_comm (h : p.Apart q) : undo (undo m p) q = undo (undo m q) p := by
  funext x
  by_cases hp : p.Covers x
  · rw [undo_of_not_covers (h x hp)]
    exact undo_of_covers hp
  · rw [undo_of_not_covers (m := undo m q) hp]
    by_cases hq : q.Covers x
    · exact undo_of_covers hq
    · rw [undo_of_not_covers hq, undo_of_not_covers hq, undo_of_not_covers hp]

/-- The order does not matter. -/
theorem original_perm (h : ps.Perm qs) (hapart : ps.Pairwise Apart) :
    original m ps = original m qs := by
  induction h with
  | nil => rfl
  | cons p _ ih => rw [original_cons, original_cons, ih hapart.of_cons]
  | swap p q _ =>
    have hpq : q.Apart p := (List.pairwise_cons.mp hapart).1 p (by simp)
    exact undo_comm hpq.symm
  | trans h₁ _ ih₁ ih₂ =>
    have hmiddle := h₁.pairwise_iff Apart.symm |>.mp hapart
    exact (ih₁ hapart).trans (ih₂ hmiddle)

/-- A patch that remembers what was there and changes nothing else is invisible. -/
theorem original_patched (hsaved : p.saved = read m p.start p.saved.length)
    (hsame : ¬ p.Covers x → m' x = m x) (hapart : ∀ q ∈ ps, p.Apart q) :
    original m' (p :: ps) x = original m ps x := by
  by_cases hp : p.Covers x
  · have hnone : ∀ q ∈ ps, ¬ q.Covers x := fun q hq => hapart q hq x hp
    have hback : undo m p = m := by
      rw [undo, hsaved]
      exact write_read fun _ _ => rfl
    rw [original_of_not_covers hnone, original_cons, undo_of_covers hp, hback]
  · rw [original_cons, undo_of_not_covers hp]
    exact original_congr (hsame hp) ps

/-- Taking a patch back leaves the others. -/
theorem original_undone (hapart : ∀ q ∈ ps, p.Apart q) :
    original (undo m p) ps = original m (p :: ps) := by
  induction ps with
  | nil => rfl
  | cons q ps ih =>
    have hrest := ih fun r hr => hapart r (by simp [hr])
    rw [original_cons, hrest, original_cons, original_cons, original_cons,
      undo_comm (hapart q (by simp))]

end Patch

end Library.AddressSpace
