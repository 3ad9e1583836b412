import ComputerLock.Library.Stateful
import ComputerLock.Drive.Notification

/-!
# Walking over the notifications

After a successful call `MonitorDrive` visits the records in the buffer one by one. It puts a
zero unit behind the name of each and deletes the file of each added one. The declaration of
`pwszFileName` inside the loop hides the one before it, and comes after the path has been put
together: every path ends in the name of the first record.
-/

namespace ComputerLock.Drive
open Library Common

/-! ## The walk -/

/-- `wcscpy_s` into an array: the string and its terminator have to fit. -/
def wcscpyS (size : ℕ) (src : WString) : Except Fault WString :=
  if src.length < size then .ok src else .error .invalidParameter

/-- `wcsncat_s` into an array that holds a string. -/
def wcsncatS (size : ℕ) (dest src : WString) (count : ℕ) : Except Fault WString :=
  if dest.length + (src.take count).length < size then .ok (dest ++ src.take count)
  else .error .invalidParameter

def fullFilePath (driveLetter fileName : WString) : Except Fault WString := do
  let path ← wcscpyS maxPath driveLetter
  wcsncatS maxPath path fileName maxPath

/-- A call of `DeleteFile`, made when `pStrFileNotifyInfo` points to a record. -/
structure Deletion where
  record : ℕ
  path : WString
  deriving DecidableEq

/-- The write of a zero unit. -/
structure Write where
  position : ℕ
  before : Bytes
  after : Bytes
  /-- how many records have been visited -/
  visited : ℕ

/-- The buffer, and what the walk has done. -/
structure Walk where
  buffer : Bytes
  /-- where `pStrFileNotifyInfo` has pointed -/
  visited : List ℕ
  writes : List Write
  deleted : List Deletion

namespace Walk

def start (buffer : Bytes) : Walk := ⟨buffer, [], [], []⟩

def moved (w : Walk) (off : ℕ) : Walk := { w with visited := w.visited ++ [off] }

/-- A write outside the buffer changes nothing in it. -/
def written (w : Walk) (p : ℕ) : Walk :=
  { w with
    buffer := LittleEndian.overwrite w.buffer p [0, 0]
    writes := w.writes ++
      [⟨p, w.buffer, LittleEndian.overwrite w.buffer p [0, 0], w.visited.length⟩] }

end Walk

def moveTo (off : ℕ) : EStateM Fault Walk Unit := modify (·.moved off)

def dword (off : ℕ) : EStateM Fault Walk ℕ := do
  match LittleEndian.read 4 (← get).buffer off with
  | some n => return n
  | none => throw (.badIndex off bufferLength)

def putNul (p : ℕ) : EStateM Fault Walk Unit := do
  modify (·.written p)
  if bufferLength < p + 2 then
    throw (.badIndex p bufferLength)

/-- `pwszFileName[FileNameLength / 2] = '\0'` -/
def terminate (off : ℕ) : EStateM Fault Walk Unit := do
  let fileNameLength ← dword (off + fileNameLengthOffset)
  putNul (off + fileNameOffset + 2 * (fileNameLength / 2))

/-- The outer `pwszFileName`. -/
def firstName : EStateM Fault Walk WString := do
  match LittleEndian.readString (← get).buffer fileNameOffset with
  | some s => return s
  | none => throw (.badIndex bufferLength bufferLength)

def deleteAdded (driveLetter : WString) (off : ℕ) : EStateM Fault Walk Unit := do
  let path ← Stateful.ofExcept (fullFilePath driveLetter (← firstName))
  if (← dword (off + actionOffset)) = fileActionAdded then
    modify fun w => { w with deleted := w.deleted ++ [⟨off, path⟩] }

/-- The order in which the source treats the first record. -/
def firstRecord (driveLetter : WString) : EStateM Fault Walk Unit := do
  moveTo 0
  terminate 0
  deleteAdded driveLetter 0

/-- The body of the inner `while`. -/
def nextRecord (driveLetter : WString) (off : ℕ) : EStateM Fault Walk Unit := do
  moveTo off
  deleteAdded driveLetter off
  terminate off

/-- The inner `while`; each turn moves on by a byte or more, so as many turns as the buffer has
bytes suffice. -/
def walkLoop (driveLetter : WString) : ℕ → ℕ → EStateM Fault Walk Unit
  | 0, _ => return
  | n + 1, off => do
    let next ← dword off
    if next ≠ noMoreEntries then
      nextRecord driveLetter (off + next)
      walkLoop driveLetter n (off + next)

/-- What follows a successful call. -/
def walk (driveLetter : WString) : EStateM Fault Walk Unit := do
  firstRecord driveLetter
  walkLoop driveLetter bufferLength 0

/-! ## One record -/

/-- The records a walk gets to: where a name ends at the next record, the zero unit behind it
makes that record the last one. -/
def reached : List Record → List Record
  | [] => []
  | [r] => [r]
  | r :: s :: rest => if r.padding = [] then [r, s] else r :: reached (s :: rest)

/-- What is left of the chain behind a record once its name has been terminated. -/
def remaining (r : Record) (rest : List Record) : List Record :=
  if r.padding = [] then rest.take 1 else rest

theorem reached_cons (r : Record) (rest : List Record) :
    reached (r :: rest) = r :: reached (remaining r rest) := by
  cases rest with
  | nil => simp [reached, remaining]
  | cons s rest =>
    by_cases h : r.padding = [] <;> simp [reached, remaining, h]

namespace Walk

/-- A record has been visited: its file has been deleted under the given path when it was
added, and its name has been terminated. -/
def visit (path : WString) (w : Walk) (x : ℕ × Record) : Walk :=
  { (w.moved x.1).written (x.1 + x.2.nameEnd) with
    deleted := if x.2.Added then w.deleted ++ [⟨x.1, path⟩] else w.deleted }

end Walk

theorem fullFilePath_eq {driveLetter fileName : WString}
    (h : driveLetter.length + fileName.length < maxPath) :
    fullFilePath driveLetter fileName = .ok (driveLetter ++ fileName) := by
  have htake : fileName.take maxPath = fileName := List.take_of_length_le (by omega)
  have hdrive : driveLetter.length < maxPath := by omega
  rw [fullFilePath, wcscpyS, if_pos hdrive]
  show wcsncatS maxPath driveLetter fileName maxPath = _
  rw [wcsncatS, htake, if_pos h]

theorem fullFilePath_eq_error {driveLetter fileName : WString}
    (h : ¬ driveLetter.length + fileName.length < maxPath) :
    fullFilePath driveLetter fileName = .error .invalidParameter := by
  unfold fullFilePath wcscpyS
  split_ifs with hdrive
  · have htake : ¬ driveLetter.length + (fileName.take maxPath).length < maxPath := by
      simp only [List.length_take, maxPath] at *
      omega
    exact if_neg htake
  · rfl

section Steps

variable {w : Walk} {off next : ℕ} {r : Record} {driveLetter name : WString}

theorem run_dword {n : ℕ} (h : LittleEndian.read 4 w.buffer off = some n) :
    (dword off).run w = .ok n w := by
  simp [dword, h]

theorem run_terminate (h : HeaderAt w.buffer off next r) :
    (terminate off).run w =
      if bufferLength < off + r.nameEnd + 2 then
        .error (.badIndex (off + r.nameEnd) bufferLength) (w.written (off + r.nameEnd))
      else .ok () (w.written (off + r.nameEnd)) := by
  have hp : off + fileNameOffset + 2 * (r.fileNameLength / 2) = off + r.nameEnd := by
    simp only [Record.nameEnd, Record.fileNameLength]
    omega
  rw [terminate, EStateM.run_bind, run_dword h.length_eq]
  simp only [hp, putNul]
  split_ifs <;> rfl

theorem run_firstName (h : LittleEndian.readString w.buffer fileNameOffset = some name) :
    firstName.run w = .ok name w := by
  simp [firstName, h]

theorem run_deleteAdded (h : HeaderAt w.buffer off next r)
    (hname : LittleEndian.readString w.buffer fileNameOffset = some name)
    (fits : driveLetter.length + name.length < maxPath) :
    (deleteAdded driveLetter off).run w = .ok ()
      { w with deleted :=
          if r.Added then w.deleted ++ [⟨off, driveLetter ++ name⟩] else w.deleted } := by
  rw [deleteAdded, EStateM.run_bind, run_firstName hname]
  simp only [fullFilePath_eq fits, EStateM.run_bind, Stateful.run_ofExcept_ok,
    run_dword h.action_eq]
  by_cases hadded : r.Added
  · rw [if_pos hadded]
    rw [Record.Added] at hadded
    rw [if_pos hadded]
    rfl
  · rw [if_neg hadded]
    rw [Record.Added] at hadded
    rw [if_neg hadded]
    rfl

theorem run_deleteAdded_of_not_fits
    (hname : LittleEndian.readString w.buffer fileNameOffset = some name)
    (fits : ¬ driveLetter.length + name.length < maxPath) :
    (deleteAdded driveLetter off).run w = .error .invalidParameter w := by
  rw [deleteAdded, EStateM.run_bind, run_firstName hname]
  simp only [fullFilePath_eq_error fits, EStateM.run_bind, Stateful.run_ofExcept_error]

theorem run_nextRecord (h : HeaderAt w.buffer off next r)
    (hname : LittleEndian.readString w.buffer fileNameOffset = some name)
    (fits : driveLetter.length + name.length < maxPath) :
    (nextRecord driveLetter off).run w =
      if bufferLength < off + r.nameEnd + 2 then
        .error (.badIndex (off + r.nameEnd) bufferLength) (w.visit (driveLetter ++ name) (off, r))
      else .ok () (w.visit (driveLetter ++ name) (off, r)) := by
  have hmove : (moveTo off).run w = .ok () (w.moved off) := rfl
  have hhead : HeaderAt (w.moved off).buffer off next r := h
  rw [nextRecord, EStateM.run_bind, hmove]
  simp only [EStateM.run_bind, run_deleteAdded hhead hname fits]
  rw [run_terminate (by exact h)]
  rfl

end Steps

/-! ## Enough turns -/

def Whole (w : Walk) : Prop := w.buffer.length = bufferLength

theorem keeps_dword (off : ℕ) : Stateful.Keeps Whole (dword off) := by
  refine Stateful.keeps_get.bind fun w => ?_
  split
  · exact Stateful.keeps_pure _
  · exact Stateful.keeps_throw _

theorem keeps_firstName : Stateful.Keeps Whole firstName := by
  refine Stateful.keeps_get.bind fun w => ?_
  split
  · exact Stateful.keeps_pure _
  · exact Stateful.keeps_throw _

theorem keeps_terminate (off : ℕ) : Stateful.Keeps Whole (terminate off) := by
  have hwritten : ∀ p w, Whole w → Whole (w.written p) := by
    intro p w hw
    simpa [Whole, Walk.written] using hw
  refine (keeps_dword _).bind fun n => (Stateful.keeps_modify (hwritten _)).bind fun _ => ?_
  split
  · exact Stateful.keeps_throw _
  · exact Stateful.keeps_pure _

theorem keeps_deleteAdded (driveLetter : WString) (off : ℕ) :
    Stateful.Keeps Whole (deleteAdded driveLetter off) := by
  refine keeps_firstName.bind fun name => (Stateful.keeps_ofExcept _).bind fun path =>
    (keeps_dword _).bind fun action => ?_
  split
  · exact Stateful.keeps_modify fun w hw => hw
  · exact Stateful.keeps_pure _

theorem keeps_nextRecord (driveLetter : WString) (off : ℕ) :
    Stateful.Keeps Whole (nextRecord driveLetter off) := by
  have hmove : Stateful.Keeps Whole (moveTo off) := Stateful.keeps_modify fun w hw => hw
  exact hmove.bind fun _ => (keeps_deleteAdded driveLetter off).bind fun _ => keeps_terminate off

/-- One turn more makes no difference: every turn moves on, and behind the buffer nothing can be
read. -/
theorem walkLoop_enough {driveLetter : WString} {n off : ℕ} {w : Walk} (hw : Whole w)
    (hn : bufferLength ≤ n + off) :
    (walkLoop driveLetter (n + 2) off).run w = (walkLoop driveLetter (n + 1) off).run w := by
  induction n generalizing off w with
  | zero =>
    have hout : LittleEndian.read 4 w.buffer off = none := if_neg (by rw [hw]; omega)
    have hthrow : (dword off).run w = .error (.badIndex off bufferLength) w := by
      simp [dword, hout]
    rw [walkLoop, walkLoop, EStateM.run_bind, EStateM.run_bind, hthrow]
  | succ n ih =>
    cases hread : LittleEndian.read 4 w.buffer off with
    | none =>
      have hthrow : (dword off).run w = .error (.badIndex off bufferLength) w := by
        simp [dword, hread]
      rw [walkLoop, walkLoop, EStateM.run_bind, EStateM.run_bind, hthrow]
    | some next =>
      rw [walkLoop, walkLoop, EStateM.run_bind, EStateM.run_bind, run_dword hread]
      by_cases hnext : next ≠ noMoreEntries
      · simp only [if_pos hnext, EStateM.run_bind]
        have hkept := keeps_nextRecord driveLetter (off + next) w hw
        cases hturn : (nextRecord driveLetter (off + next)).run w with
        | error e w' => rfl
        | ok a w' =>
          rw [Stateful.final, hturn] at hkept
          have hpos : 0 < next := Nat.pos_of_ne_zero hnext
          exact ih hkept (by omega)
      · simp only [if_neg hnext]

/-! ## The chain -/

/-- The records start at multiples of four bytes. -/
def Aligned (off : ℕ) (rs : List Record) : Prop := ∀ x ∈ located off rs, 4 ∣ x.1

/-- A zero unit ends the name behind the header of the first record. -/
def Terminated (mem : Bytes) (name : WString) : Prop :=
  LittleEndian.slice mem fileNameOffset (2 * name.length + 2) = LittleEndian.units name ++ [0, 0]

section Chains

variable {mem : Bytes} {off : ℕ} {r : Record} {rest : List Record}

theorem Aligned.tail (h : Aligned off (r :: rest)) : Aligned (off + r.size) rest := fun x hx =>
  h x (List.mem_cons_of_mem _ hx)

theorem Aligned.remains (h : Aligned off rest) : Aligned off (remaining r rest) := by
  unfold remaining
  split_ifs
  · cases rest with
    | nil => exact h
    | cons s rest => exact fun x hx => h x (by grind [located])
  · exact h

/-- Padding in front of an aligned record has no byte or at least two. -/
theorem Aligned.padding (h : Aligned off (r :: rest)) (hrest : rest ≠ []) :
    r.padding = [] ∨ off + r.nameEnd + 2 ≤ off + r.size := by
  obtain ⟨s, rest, rfl⟩ := List.exists_cons_of_ne_nil hrest
  have hoff : 4 ∣ off := h (off, r) (by simp [located])
  have hnext : 4 ∣ off + r.size := h (off + r.size, s) (by simp [located])
  rw [← List.length_eq_zero_iff]
  simp only [Record.size, Record.nameEnd, Record.fileNameLength, fileNameOffset] at *
  omega

theorem Chain.add_size_lt (h : Chain mem off (r :: rest)) (hrest : rest ≠ []) :
    off + r.size + fileNameOffset ≤ mem.length := by
  obtain ⟨s, rest, rfl⟩ := List.exists_cons_of_ne_nil hrest
  exact h.2.1.lt_length

theorem nextEntryOffset_lt (h : Chain mem off (r :: rest)) (hlen : mem.length ≤ 2 ^ 16) :
    nextEntryOffset r rest < 2 ^ 16 := by
  unfold nextEntryOffset
  split_ifs with hrest
  · decide
  · have := h.add_size_lt hrest
    simp only [fileNameOffset] at this
    omega

/-- Overwriting the lower half of the distance to the next record leaves none. -/
theorem HeaderAt.overwrite_next {next : ℕ} (h : HeaderAt mem off next r) (hnext : next < 2 ^ 16) :
    HeaderAt (LittleEndian.overwrite mem off [0, 0]) off noMoreEntries r := by
  have hle : off + 4 ≤ mem.length := by
    have := h.lt_length
    simp only [fileNameOffset] at this
    omega
  have hvalue := h.next_eq
  rw [LittleEndian.read, if_pos hle, LittleEndian.slice_add mem off 2 2,
    LittleEndian.value_append] at hvalue
  have hupper : LittleEndian.value (LittleEndian.slice mem (off + 2) 2) = 0 := by
    have hlen : (LittleEndian.slice mem off 2).length = 2 := by
      simp [LittleEndian.slice]
      omega
    rw [hlen] at hvalue
    have := Option.some.inj hvalue
    omega
  have hself : LittleEndian.slice (LittleEndian.overwrite mem off [0, 0]) off 2 = [0, 0] :=
    LittleEndian.slice_overwrite_self [0, 0] (by simp; omega)
  have hnext : LittleEndian.slice (LittleEndian.overwrite mem off [0, 0]) (off + 2) 2 =
      LittleEndian.slice mem (off + 2) 2 :=
    LittleEndian.slice_overwrite_of_disjoint (.inr le_rfl)
  have hzero : LittleEndian.slice (LittleEndian.overwrite mem off [0, 0]) off 4 =
      [0, 0] ++ LittleEndian.slice mem (off + 2) 2 := by
    rw [LittleEndian.slice_add _ off 2 2, hself, hnext]
  refine ⟨?_, ?_, ?_⟩
  · rw [LittleEndian.read, LittleEndian.length_overwrite, if_pos hle, hzero,
      LittleEndian.value_append, hupper]
    rfl
  · rw [LittleEndian.read_overwrite_of_disjoint (.inr (by simp [actionOffset]))]
    exact h.action_eq
  · rw [LittleEndian.read_overwrite_of_disjoint (.inr (by simp [fileNameLengthOffset]))]
    exact h.length_eq

/-- Behind a record whose name has been terminated there remains a chain. -/
theorem Chain.terminated (h : Chain mem off (r :: rest)) (aligned : Aligned off (r :: rest))
    (hlen : mem.length ≤ 2 ^ 16) :
    Chain (LittleEndian.overwrite mem (off + r.nameEnd) [0, 0]) off (r :: remaining r rest) := by
  have hend : off + fileNameOffset ≤ off + r.nameEnd := by
    simp only [Record.nameEnd]
    omega
  have hsame : nextEntryOffset r (remaining r rest) = nextEntryOffset r rest := by
    unfold nextEntryOffset remaining
    cases rest <;> split_ifs <;> grind
  refine ⟨hsame ▸ h.1.overwrite (.inl hend), ?_⟩
  unfold remaining
  cases rest with
  | nil => split_ifs <;> trivial
  | cons s rest =>
    split_ifs with hpadding
    · have hnext : off + r.nameEnd = off + r.size := by simp [Record.size, hpadding]
      rw [hnext]
      exact ⟨h.2.1.overwrite_next (nextEntryOffset_lt h.2 hlen), trivial⟩
    · have hapart := (aligned.padding (by simp)).resolve_left hpadding
      exact h.2.overwrite hapart

end Chains

/-! ## Runs of the walk -/

theorem length_visit (path : WString) (w : Walk) (x : ℕ × Record) :
    (w.visit path x).buffer.length = w.buffer.length := by
  simp [Walk.visit, Walk.written, Walk.moved]

theorem Terminated.overwrite {mem : Bytes} {name : WString} {p : ℕ} (h : Terminated mem name)
    (hp : fileNameOffset + 2 * name.length + 2 ≤ p) :
    Terminated (LittleEndian.overwrite mem p [0, 0]) name := by
  rw [Terminated, LittleEndian.slice_overwrite_of_disjoint (.inl (by omega))]
  exact h

theorem nameEnd_le (r : Record) : r.nameEnd ≤ r.size := by
  simp only [Record.size]
  omega

theorem length_remaining_le (r : Record) (rest : List Record) :
    (remaining r rest).length ≤ rest.length := by
  unfold remaining
  split_ifs
  · exact List.length_take_le' ..
  · exact le_rfl

theorem Aligned.terminated {off : ℕ} {r : Record} {rest : List Record}
    (h : Aligned off (r :: rest)) : Aligned off (r :: remaining r rest) := by
  intro x hx
  rcases List.mem_cons.mp hx with rfl | hx
  · exact h _ (by simp [located])
  · exact h.tail.remains x hx

/-- The first terminator ends the first name. -/
theorem NameAt.terminated {mem : Bytes} {r : Record} (h : NameAt mem r.fileName)
    (hroom : r.nameEnd + 2 ≤ mem.length) :
    Terminated (LittleEndian.overwrite mem (0 + r.nameEnd) [0, 0]) r.fileName := by
  have hend : fileNameOffset + 2 * r.fileName.length = 0 + r.nameEnd := by
    simp [Record.nameEnd, Record.fileNameLength]
  rw [Terminated, LittleEndian.slice_add, hend,
    LittleEndian.slice_overwrite_of_disjoint (.inl hend.le), h]
  exact congrArg _ (LittleEndian.slice_overwrite_self [0, 0] (by simpa using hroom))

section Loop

variable {driveLetter name : WString}

/-- The loop visits the records that remain reachable behind the current one. -/
theorem final_walkLoop (fits : driveLetter.length + name.length < maxPath) (free : 0 ∉ name)
    {n off : ℕ} {r : Record} {rest : List Record} {w : Walk}
    (hn : rest.length ≤ n) (hlen : w.buffer.length = bufferLength)
    (chain : Chain w.buffer off (r :: rest)) (aligned : Aligned off (r :: rest))
    (hname : Terminated w.buffer name)
    (hoff : fileNameOffset + 2 * name.length ≤ off + r.size) :
    Stateful.final (walkLoop driveLetter n off) w =
      (located (off + r.size) (reached rest)).foldl (Walk.visit (driveLetter ++ name)) w := by
  induction n generalizing off r rest w with
  | zero =>
    obtain rfl := List.length_eq_zero_iff.mp (Nat.le_zero.mp hn)
    rfl
  | succ n ih =>
    rw [walkLoop, Stateful.final_bind_ok (run_dword chain.1.next_eq)]
    cases rest with
    | nil => rfl
    | cons s rest =>
      have hnext : nextEntryOffset r (s :: rest) = r.size := if_neg (by simp)
      have hne : r.size ≠ noMoreEntries := Nat.ne_of_gt r.size_pos
      rw [hnext, if_pos hne]
      have hread := LittleEndian.readString_of_slice free hname
      have hturn := run_nextRecord chain.2.1 hread fits
      have hpos : fileNameOffset + 2 * name.length + 2 ≤ off + r.size + s.nameEnd := by
        simp only [Record.nameEnd, fileNameOffset] at *
        omega
      rw [reached_cons, located, List.foldl_cons]
      split_ifs at hturn with hroom
      · -- only the last name can reach the end of the buffer
        obtain rfl : rest = [] := by
          by_contra hrest
          have := chain.2.add_size_lt hrest
          have := nameEnd_le s
          simp only [fileNameOffset] at *
          omega
        rw [Stateful.final_bind_error hturn]
        simp [remaining, reached, located]
      · rw [Stateful.final_bind_ok hturn]
        have hchain : Chain (w.visit (driveLetter ++ name) (off + r.size, s)).buffer (off + r.size)
            (s :: remaining s rest) := chain.2.terminated aligned.tail (by rw [hlen]; decide)
        refine ih ?_ ?_ hchain ?_ (hname.overwrite hpos) (by omega)
        · have := length_remaining_le s rest
          simp only [List.length_cons] at hn
          omega
        · simpa [hlen] using length_visit (driveLetter ++ name) w (off + r.size, s)
        · exact aligned.tail.terminated

/-- The whole walk: as far as the chain reaches, in order, always with the first name. -/
theorem final_walk {r : Record} {rest : List Record} {w : Walk}
    (fits : driveLetter.length + r.fileName.length < maxPath)
    (hlen : w.buffer.length = bufferLength) (hn : rest.length ≤ bufferLength)
    (chain : Chain w.buffer 0 (r :: rest)) (aligned : Aligned 0 (r :: rest))
    (hname : NameAt w.buffer r.fileName) :
    Stateful.final (walk driveLetter) w =
      (located 0 (reached (r :: rest))).foldl (Walk.visit (driveLetter ++ r.fileName)) w := by
  have hroom : ¬ bufferLength < 0 + r.nameEnd + 2 := by
    simp only [Record.nameEnd, Record.fileNameLength, fileNameOffset, maxPath, bufferLength] at *
    omega
  have hend : r.nameEnd + 2 ≤ w.buffer.length := by omega
  have hterminated : Terminated ((w.moved 0).written (0 + r.nameEnd)).buffer r.fileName :=
    hname.terminated hend
  have hfirst : (firstRecord driveLetter).run w =
      .ok () (w.visit (driveLetter ++ r.fileName) (0, r)) := by
    have hmove : (moveTo 0).run w = .ok () (w.moved 0) := rfl
    have hhead : HeaderAt (w.moved 0).buffer 0 _ r := chain.1
    have hterm := run_terminate hhead
    rw [if_neg hroom] at hterm
    have hwritten : HeaderAt ((w.moved 0).written (0 + r.nameEnd)).buffer 0 _ r :=
      chain.1.overwrite (.inl (by simp [Record.nameEnd]))
    rw [firstRecord, EStateM.run_bind, hmove]
    simp only [EStateM.run_bind, hterm]
    rw [run_deleteAdded hwritten (LittleEndian.readString_of_slice r.nul_free hterminated) fits]
    rfl
  have hchain : Chain (w.visit (driveLetter ++ r.fileName) (0, r)).buffer 0
      (r :: remaining r rest) := chain.terminated aligned (by rw [hlen]; decide)
  rw [walk, Stateful.final_bind_ok hfirst, reached_cons, located, List.foldl_cons]
  refine final_walkLoop fits r.nul_free ?_ ?_ hchain aligned.terminated ?_ ?_
  · exact (length_remaining_le r rest).trans hn
  · simpa [hlen] using length_visit (driveLetter ++ r.fileName) w (0, r)
  · exact hterminated
  · have := nameEnd_le r
    simp only [Record.nameEnd, Record.fileNameLength] at this
    omega

/-- A path that does not fit ends the process at the first record. -/
theorem run_walk_of_not_fits {r : Record} {rest : List Record} {w : Walk}
    (fits : ¬ driveLetter.length + r.fileName.length < maxPath)
    (hlen : w.buffer.length = bufferLength) (chain : Chain w.buffer 0 (r :: rest))
    (hname : NameAt w.buffer r.fileName) :
    ∃ e, (walk driveLetter).run w = .error e ((w.moved 0).written (0 + r.nameEnd)) := by
  have hmove : (moveTo 0).run w = .ok () (w.moved 0) := rfl
  have hhead : HeaderAt (w.moved 0).buffer 0 _ r := chain.1
  have hterm := run_terminate hhead
  have hfirst : ∃ e, (firstRecord driveLetter).run w =
      .error e ((w.moved 0).written (0 + r.nameEnd)) := by
    rw [firstRecord, EStateM.run_bind, hmove]
    simp only [EStateM.run_bind, hterm]
    split_ifs with hroom
    · exact ⟨_, rfl⟩
    · have hterminated : Terminated ((w.moved 0).written (0 + r.nameEnd)).buffer r.fileName :=
        hname.terminated (by omega)
      have hread := LittleEndian.readString_of_slice r.nul_free hterminated
      exact ⟨_, run_deleteAdded_of_not_fits hread fits⟩
  obtain ⟨e, hfirst⟩ := hfirst
  exact ⟨e, by rw [walk, EStateM.run_bind, hfirst]⟩

end Loop
end ComputerLock.Drive
