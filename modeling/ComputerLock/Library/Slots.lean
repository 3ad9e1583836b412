import Mathlib.Data.List.Nodup
import Mathlib.Data.List.ReduceOption

/-!
# Tables of slots

A table has a fixed number of slots, each empty or taken; `List.reduceOption` gives its entries.
An entry goes to the first empty slot, and the slot it was found in is emptied when it is removed.
-/

namespace Library.Slots

variable {α : Type*} {l : List (Option α)} {i : ℕ} {a : α}

def firstEmpty (l : List (Option α)) : Option ℕ := l.findIdx? (·.isNone)

def slotOf [DecidableEq α] (l : List (Option α)) (a : α) : Option ℕ := l.findIdx? (· = some a)

/-- Taking an empty slot adds an entry. -/
theorem reduceOption_set_some (h : l[i]? = some none) (a : α) :
    (l.set i (some a)).reduceOption.Perm (a :: l.reduceOption) := by
  induction l generalizing i with
  | nil => simp at h
  | cons o l ih =>
    cases i with
    | zero =>
      obtain rfl : o = none := by simpa using h
      rw [List.set_cons_zero, List.reduceOption_cons_of_some, List.reduceOption_cons_of_none]
    | succ i =>
      have hrest := ih (by simpa using h)
      cases o with
      | none => simpa only [List.set_cons_succ, List.reduceOption_cons_of_none] using hrest
      | some b =>
        simp only [List.set_cons_succ, List.reduceOption_cons_of_some]
        exact (hrest.cons b).trans (List.Perm.swap a b _)

theorem set_set_none (h : l[i]? = some none) (a : α) : (l.set i (some a)).set i none = l := by
  rw [List.set_set]
  obtain ⟨hi, hnone⟩ := List.getElem?_eq_some_iff.mp h
  rw [← hnone, List.set_getElem_self]

/-- Emptying a slot removes its entry. -/
theorem reduceOption_set_none (h : l[i]? = some (some a)) :
    l.reduceOption.Perm (a :: (l.set i none).reduceOption) := by
  obtain ⟨hi, hsome⟩ := List.getElem?_eq_some_iff.mp h
  have hempty : (l.set i none)[i]? = some none := by simp [hi]
  have hback : (l.set i none).set i (some a) = l := by
    rw [List.set_set, ← hsome, List.set_getElem_self]
  have hperm := reduceOption_set_some hempty a
  rwa [hback] at hperm

theorem firstEmpty_eq_some (h : firstEmpty l = some i) : l[i]? = some none := by
  obtain ⟨hi, hnone, -⟩ := List.findIdx?_eq_some_iff_getElem.mp h
  rw [List.getElem?_eq_getElem hi, Option.isNone_iff_eq_none.mp hnone]

/-- As long as there are fewer entries than slots, one is empty. -/
theorem firstEmpty_of_lt (h : l.reduceOption.length < l.length) : ∃ i, firstEmpty l = some i := by
  rw [← Option.isSome_iff_exists]
  by_contra hnone
  have hall : ∀ o ∈ l, o.isSome := by
    rw [Option.not_isSome_iff_eq_none, firstEmpty, List.findIdx?_eq_none_iff] at hnone
    intro o ho
    simpa using hnone o ho
  simpa using hall none (List.reduceOption_length_lt_iff.mp h)

section Search

variable [DecidableEq α]

theorem slotOf_eq_some (h : slotOf l a = some i) : l[i]? = some (some a) := by
  obtain ⟨hi, hfound, -⟩ := List.findIdx?_eq_some_iff_getElem.mp h
  rw [List.getElem?_eq_getElem hi, of_decide_eq_true hfound]

theorem slotOf_of_mem (h : a ∈ l.reduceOption) : ∃ i, slotOf l a = some i := by
  rw [← Option.isSome_iff_exists, slotOf, List.findIdx?_isSome, List.any_eq_true]
  exact ⟨some a, List.reduceOption_mem_iff.mp h, by simp⟩

/-- An entry that is new is found where it was put. -/
theorem slotOf_set_some (h : l[i]? = some none) (hnew : a ∉ l.reduceOption) :
    slotOf (l.set i (some a)) a = some i := by
  obtain ⟨hi, -⟩ := List.getElem?_eq_some_iff.mp h
  rw [slotOf, List.findIdx?_eq_some_iff_getElem]
  refine ⟨by rwa [List.length_set], by simp, ?_⟩
  intro j hji
  have hj : j < l.length := by omega
  have hother : l[j] ≠ some a := fun hsome =>
    hnew (List.reduceOption_mem_iff.mpr (hsome ▸ List.getElem_mem hj))
  simp [List.getElem_set_ne (Nat.ne_of_gt hji), hother]

end Search

end Library.Slots
