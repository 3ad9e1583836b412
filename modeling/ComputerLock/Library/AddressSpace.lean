import Mathlib.Algebra.Ring.Nat
import Mathlib.Data.List.GetD

/-!
# Address spaces

A memory holds a byte at every address of a fixed width, and addresses wrap around. A block is
given by its first address and its length; two blocks are apart when they share no address.
What is written to a block is read back from it and changes no byte of a block apart from it.
-/

namespace Library.AddressSpace

variable {w : ℕ}

abbrev Memory (w : ℕ) := BitVec w → UInt8

/-! ## Blocks -/

/-- The address is one of the `n` from `a` on. -/
def Within (a : BitVec w) (n : ℕ) (x : BitVec w) : Prop := (x - a).toNat < n

instance (a : BitVec w) (n : ℕ) (x : BitVec w) : Decidable (Within a n x) :=
  inferInstanceAs (Decidable (_ < _))

def Apart (a : BitVec w) (n : ℕ) (b : BitVec w) (k : ℕ) : Prop :=
  ∀ x, Within a n x → ¬ Within b k x

section Blocks

variable {a b x : BitVec w} {n k : ℕ}

/-- The distance from one address to another, upwards and around. -/
theorem toNat_sub_cases (a x : BitVec w) :
    a.toNat ≤ x.toNat ∧ (x - a).toNat = x.toNat - a.toNat ∨
      x.toNat < a.toNat ∧ (x - a).toNat = 2 ^ w - a.toNat + x.toNat := by
  have ha := a.isLt
  have hx := x.isLt
  rw [BitVec.toNat_sub]
  rcases Nat.lt_or_ge x.toNat a.toNat with h | h
  · right
    exact ⟨h, Nat.mod_eq_of_lt (by omega)⟩
  · left
    have hsum : 2 ^ w - a.toNat + x.toNat = x.toNat - a.toNat + 2 ^ w := by omega
    rw [hsum, Nat.add_mod_right]
    exact ⟨h, Nat.mod_eq_of_lt (by omega)⟩

theorem add_sub_add (a x : BitVec w) : a + (x - a) = x := by
  rw [BitVec.add_comm, BitVec.sub_add_cancel]

theorem add_sub_self (a x : BitVec w) : a + x - a = x := by
  rw [BitVec.add_comm, BitVec.add_sub_cancel]

theorem Within.mono (h : Within a n x) (hle : n ≤ k) : Within a k x :=
  Nat.lt_of_lt_of_le h hle

theorem within_add (a : BitVec w) {i : ℕ} (h : i < n) : Within a n (a + BitVec.ofNat w i) := by
  rw [Within, add_sub_self, BitVec.toNat_ofNat]
  exact Nat.lt_of_le_of_lt (Nat.mod_le _ _) h

theorem within_self (h : 0 < n) : Within a n a := by
  rw [Within, BitVec.sub_self]
  exact h

/-- A block that begins inside another and does not go beyond it lies in it. -/
theorem Within.of_add {i : ℕ} (h : Within (a + BitVec.ofNat w i) n x) (hle : i + n ≤ k) :
    Within a k x := by
  have hsum : x - a = BitVec.ofNat w i + (x - (a + BitVec.ofNat w i)) := by
    rw [← BitVec.sub_sub, BitVec.add_comm, BitVec.sub_add_cancel]
  have hmod := Nat.mod_le i (2 ^ w)
  have hwrap := Nat.mod_le (i % 2 ^ w + (x - (a + BitVec.ofNat w i)).toNat) (2 ^ w)
  unfold Within at h ⊢
  rw [hsum, BitVec.toNat_add, BitVec.toNat_ofNat]
  omega

theorem Apart.symm (h : Apart a n b k) : Apart b k a n := fun x hb ha => h x ha hb

theorem Apart.mono {n' k' : ℕ} (h : Apart a n b k) (hn : n' ≤ n) (hk : k' ≤ k) :
    Apart a n' b k' := fun x ha hb => h x (ha.mono hn) (hb.mono hk)

theorem Apart.left_of_add {i n' : ℕ} (h : Apart a n b k) (hle : i + n' ≤ n) :
    Apart (a + BitVec.ofNat w i) n' b k := fun x ha => h x (ha.of_add hle)

theorem Apart.right_of_add {i k' : ℕ} (h : Apart a n b k) (hle : i + k' ≤ k) :
    Apart a n (b + BitVec.ofNat w i) k' := (h.symm.left_of_add hle).symm

/-- Blocks are apart when each ends before the other begins. -/
theorem apart_of_le (hn : n ≤ (b - a).toNat) (hk : k ≤ (a - b).toNat) : Apart a n b k := by
  intro x ha hb
  have hbound := x.isLt
  have hxa := toNat_sub_cases a x
  have hxb := toNat_sub_cases b x
  have hba := toNat_sub_cases a b
  have hab := toNat_sub_cases b a
  unfold Within at ha hb
  omega

/-- Two blocks of the same memory, one behind the other. -/
theorem apart_add {i : ℕ} (hi : n ≤ i) (hk : i + k ≤ 2 ^ w) :
    Apart a n (a + BitVec.ofNat w i) k := by
  intro x ha hb
  have hsum : x - a = BitVec.ofNat w i + (x - (a + BitVec.ofNat w i)) := by
    rw [← BitVec.sub_sub, BitVec.add_comm, BitVec.sub_add_cancel]
  unfold Within at ha hb
  rw [hsum, BitVec.toNat_add, BitVec.toNat_ofNat] at ha
  have hmod : i % 2 ^ w = i := Nat.mod_eq_of_lt (by omega)
  rw [hmod, Nat.mod_eq_of_lt (by omega)] at ha
  omega

theorem apart_add_add {i j : ℕ} (hi : i + n ≤ j) (hk : j + k ≤ 2 ^ w) :
    Apart (a + BitVec.ofNat w i) n (a + BitVec.ofNat w j) k := by
  have hj : a + BitVec.ofNat w j = a + BitVec.ofNat w i + BitVec.ofNat w (j - i) := by
    rw [BitVec.add_assoc, ← BitVec.ofNat_add, Nat.add_sub_cancel' (by omega)]
  rw [hj]
  exact apart_add (by omega) (by omega)

end Blocks

/-! ## Reading and writing -/

def read (m : Memory w) (a : BitVec w) (n : ℕ) : List UInt8 :=
  (List.range n).map fun i => m (a + BitVec.ofNat w i)

def write (m : Memory w) (a : BitVec w) (bs : List UInt8) : Memory w :=
  fun x => bs.getD (x - a).toNat (m x)

section ReadWrite

variable {m m' : Memory w} {a b x : BitVec w} {n k : ℕ} {bs cs : List UInt8}

@[simp] theorem length_read (m : Memory w) (a : BitVec w) (n : ℕ) : (read m a n).length = n := by
  simp [read]

theorem getElem_read {i : ℕ} (h : i < (read m a n).length) :
    (read m a n)[i] = m (a + BitVec.ofNat w i) := by
  simp [read]

theorem read_congr (h : ∀ x, Within a n x → m x = m' x) : read m a n = read m' a n := by
  apply List.map_congr_left
  intro i hi
  exact h _ (within_add a (List.mem_range.mp hi))

theorem read_add (m : Memory w) (a : BitVec w) (n k : ℕ) :
    read m a (n + k) = read m a n ++ read m (a + BitVec.ofNat w n) k := by
  simp only [read, List.range_add, List.map_append, List.map_map]
  congr 1
  apply List.map_congr_left
  intro i _
  simp [BitVec.ofNat_add, BitVec.add_assoc]

theorem read_one (m : Memory w) (a : BitVec w) : read m a 1 = [m a] := by
  simp [read]

theorem read_succ (m : Memory w) (a : BitVec w) (n : ℕ) :
    read m a (n + 1) = m a :: read m (a + BitVec.ofNat w 1) n := by
  have h := read_add m a 1 n
  rw [Nat.add_comm 1 n] at h
  rw [h]
  simp [read]

theorem write_of_not_within (h : ¬ Within a bs.length x) : write m a bs x = m x := by
  rw [write, List.getD_eq_default _ _ (Nat.le_of_not_lt h)]

theorem write_of_within (h : Within a bs.length x) :
    write m a bs x = bs.get ⟨(x - a).toNat, h⟩ :=
  List.getD_eq_getElem _ _ h

theorem write_add {i : ℕ} (h : i < bs.length) (hi : i < 2 ^ w) :
    write m a bs (a + BitVec.ofNat w i) = bs[i] := by
  have htoNat : (a + BitVec.ofNat w i - a).toNat = i := by
    rw [add_sub_self, BitVec.toNat_ofNat]
    exact Nat.mod_eq_of_lt hi
  rw [write, htoNat]
  exact List.getD_eq_getElem _ _ h

theorem write_self {b : UInt8} : write m a (b :: bs) a = b := by
  simp [write]

/-- Writing one block behind the other. -/
theorem write_append (h : bs.length + cs.length ≤ 2 ^ w) :
    write (write m a bs) (a + BitVec.ofNat w bs.length) cs = write m a (bs ++ cs) := by
  funext x
  have hdistance : x - (a + BitVec.ofNat w bs.length) = x - a - BitVec.ofNat w bs.length :=
    (BitVec.sub_sub _ _ _).symm
  have hx := (x - a).isLt
  have hcases := toNat_sub_cases (BitVec.ofNat w bs.length) (x - a)
  rw [BitVec.toNat_ofNat] at hcases
  simp only [write, hdistance]
  rcases Nat.lt_or_ge (x - a).toNat bs.length with hlt | hge
  · have hbehind : cs.length ≤ (x - a - BitVec.ofNat w bs.length).toNat := by
      rcases Nat.lt_or_ge bs.length (2 ^ w) with hfit | hfull
      · rw [Nat.mod_eq_of_lt hfit] at hcases
        omega
      · omega
    rw [List.getD_eq_default _ _ hbehind, List.getD_append _ _ _ _ hlt]
  · rw [Nat.mod_eq_of_lt (by omega)] at hcases
    have hoffset : (x - a - BitVec.ofNat w bs.length).toNat = (x - a).toNat - bs.length := by
      omega
    rw [List.getD_append_right _ _ _ _ hge, hoffset, List.getD_eq_default bs _ hge]

theorem read_write_self (h : bs.length ≤ 2 ^ w) : read (write m a bs) a bs.length = bs := by
  apply List.ext_getElem
  · simp
  · intro i hi hbs
    rw [getElem_read, write_add hbs (by omega)]

theorem read_write_of_apart (h : Apart b k a bs.length) :
    read (write m a bs) b k = read m b k :=
  read_congr fun x hx => write_of_not_within (h x hx)

/-- What has been written to the middle of a block. -/
theorem read_write_middle {i : ℕ} (hle : i + bs.length ≤ n) (hn : n ≤ 2 ^ w) :
    read (write m (a + BitVec.ofNat w i) bs) a n =
      (read m a n).take i ++ bs ++ (read m a n).drop (i + bs.length) := by
  obtain ⟨r, rfl⟩ := Nat.exists_eq_add_of_le hle
  have hbefore : read (write m (a + BitVec.ofNat w i) bs) a i = read m a i :=
    read_write_of_apart (apart_add (Nat.le_refl i) (by omega))
  have hself : read (write m (a + BitVec.ofNat w i) bs) (a + BitVec.ofNat w i) bs.length = bs :=
    read_write_self (by omega)
  have hbehind : read (write m (a + BitVec.ofNat w i) bs)
      (a + BitVec.ofNat w (i + bs.length)) r = read m (a + BitVec.ofNat w (i + bs.length)) r :=
    read_write_of_apart (apart_add_add (Nat.le_refl _) hn).symm
  rw [read_add, read_add _ a i, hbefore, hself, hbehind, read_add m a (i + bs.length) r,
    read_add m a i bs.length, List.drop_left' (by simp)]
  simp

/-- Writing to a block what another memory holds there, which agrees outside the block. -/
theorem write_read (h : ∀ x, ¬ Within a n x → m x = m' x) :
    write m a (read m' a n) = m' := by
  funext x
  by_cases hx : Within a n x
  · have hx' : Within a (read m' a n).length x := by rwa [length_read]
    have hback : a + BitVec.ofNat w (x - a).toNat = x := by
      rw [BitVec.ofNat_toNat, BitVec.setWidth_eq, add_sub_add]
    rw [write_of_within hx', List.get_eq_getElem, getElem_read, hback]
  · have hx' : ¬ Within a (read m' a n).length x := by rwa [length_read]
    rw [write_of_not_within hx', h x hx]

end ReadWrite

end Library.AddressSpace
