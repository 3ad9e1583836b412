import Mathlib.Data.List.Basic
import ComputerLock.Library.Delimited

/-!
# Length-prefixed messages

A message starts with a header that ends at the first delimiter and names the number of
symbols behind that delimiter. A reader of the concatenated stream trusts the headers,
so it finds the messages again exactly when each header counts right.
-/

namespace Library.Framing

variable {α : Type*} [DecidableEq α] {d : α} {size : List α → ℕ}

/-- The header of `m` counts the symbols after its first delimiter. -/
def Framed (d : α) (size : List α → ℕ) (m : List α) : Prop :=
  d ∈ m ∧ size (m.takeWhile (· ≠ d)) = ((m.dropWhile (· ≠ d)).drop 1).length

instance (m : List α) : Decidable (Framed d size m) := inferInstanceAs (Decidable (_ ∧ _))

/-- Read one message: the header up to the delimiter, then as many symbols as it says. -/
def readFrame (d : α) (size : List α → ℕ) (s : List α) : Option (List α × List α) :=
  let header := s.takeWhile (· ≠ d)
  let rest := (s.dropWhile (· ≠ d)).drop 1
  if d ∈ s ∧ size header ≤ rest.length then
    some (header ++ d :: rest.take (size header), rest.drop (size header))
  else none

/-- Read up to `n` messages. -/
def readFrames (d : α) (size : List α → ℕ) : ℕ → List α → List (List α)
  | 0, _ => []
  | n + 1, s => match readFrame d size s with
    | none => []
    | some (m, rest) => m :: readFrames d size n rest

/-- Cut a stream into messages; each has at least its delimiter. -/
def cut (d : α) (size : List α → ℕ) (s : List α) : List (List α) := readFrames d size s.length s

theorem framed_append_cons {header body : List α} (h : d ∉ header) :
    Framed d size (header ++ d :: body) ↔ size header = body.length := by
  simp only [Framed, Delimited.takeWhile_append_cons h, Delimited.dropWhile_append_cons h,
    List.drop_one, List.tail_cons]
  simp

theorem Framed.exists_parts {m : List α} (h : Framed d size m) :
    ∃ header body, m = header ++ d :: body ∧ d ∉ header ∧ size header = body.length := by
  obtain ⟨header, body, rfl, hd⟩ := Delimited.exists_append_cons h.1
  exact ⟨header, body, rfl, hd, (framed_append_cons hd).mp h⟩

theorem readFrame_append {m : List α} (h : Framed d size m) (s : List α) :
    readFrame d size (m ++ s) = some (m, s) := by
  obtain ⟨header, body, rfl, hd, hsize⟩ := h.exists_parts
  rw [List.append_assoc, List.cons_append]
  simp only [readFrame, Delimited.takeWhile_append_cons hd, Delimited.dropWhile_append_cons hd,
    List.drop_one, List.tail_cons, hsize]
  simp

theorem readFrames_flatten {ms : List (List α)} (h : ∀ m ∈ ms, Framed d size m) {n : ℕ}
    (hn : ms.length ≤ n) : readFrames d size n ms.flatten = ms := by
  induction ms generalizing n with
  | nil => cases n <;> simp [readFrames, readFrame]
  | cons m ms ih =>
    obtain ⟨n, rfl⟩ : ∃ k, n = k + 1 := ⟨n - 1, by simp at hn; omega⟩
    rw [List.flatten_cons, readFrames, readFrame_append (h m (by simp))]
    exact congrArg (m :: ·) (ih (fun m hm => h m (by simp [hm])) (by simpa using hn))

theorem length_le_flatten {ms : List (List α)} (h : ∀ m ∈ ms, Framed d size m) :
    ms.length ≤ ms.flatten.length := by
  induction ms with
  | nil => simp
  | cons m ms ih =>
    have hpos := List.length_pos_of_mem (h m (by simp)).1
    have := ih fun m hm => h m (by simp [hm])
    simp only [List.length_cons, List.flatten_cons, List.length_append]
    omega

/-- A stream of messages whose headers count right is cut back into exactly these. -/
theorem cut_flatten {ms : List (List α)} (h : ∀ m ∈ ms, Framed d size m) :
    cut d size ms.flatten = ms :=
  readFrames_flatten h (length_le_flatten h)

end Library.Framing
