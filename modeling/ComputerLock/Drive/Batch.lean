import ComputerLock.Drive.Walk

/-!
# What a walk does to a batch

The files deleted, the bytes written and the records visited in the walk over one batch.
-/

namespace ComputerLock.Drive
open Library Common

/-- The records a walk does not get to. -/
def hidden : List Record → List Record
  | [] => []
  | [_] => []
  | r :: s :: rest => if r.padding = [] then rest else hidden (s :: rest)

theorem reached_append_hidden (rs : List Record) : reached rs ++ hidden rs = rs := by
  fun_induction reached rs <;> grind [hidden]

theorem reached_eq_self_iff {rs : List Record} : reached rs = rs ↔ hidden rs = [] := by
  have := reached_append_hidden rs
  constructor
  · intro h
    rw [h] at this
    simpa using this
  · intro h
    simpa [h] using this

/-! ## What a run of visits leaves -/

section Visits

variable {path : WString} {w : Walk} {xs : List (ℕ × Record)}

theorem foldl_visit_visited :
    (xs.foldl (Walk.visit path) w).visited = w.visited ++ xs.map Prod.fst := by
  induction xs generalizing w with
  | nil => simp
  | cons x xs ih =>
    rw [List.foldl_cons, ih]
    simp [Walk.visit, Walk.written, Walk.moved]

theorem foldl_visit_deleted :
    (xs.foldl (Walk.visit path) w).deleted =
      w.deleted ++ (xs.filter fun x => x.2.Added).map fun x => ⟨x.1, path⟩ := by
  induction xs generalizing w with
  | nil => simp
  | cons x xs ih =>
    rw [List.foldl_cons, ih]
    by_cases h : x.2.Added <;> simp [Walk.visit, h]

theorem foldl_visit_position :
    (xs.foldl (Walk.visit path) w).writes.map Write.position =
      w.writes.map Write.position ++ xs.map fun x => x.1 + x.2.nameEnd := by
  induction xs generalizing w with
  | nil => simp
  | cons x xs ih =>
    rw [List.foldl_cons, ih]
    simp [Walk.visit, Walk.written, Walk.moved]

theorem map_snd_located (off : ℕ) (rs : List Record) : (located off rs).map Prod.snd = rs := by
  induction rs generalizing off with
  | nil => rfl
  | cons r rs ih => simp [located, ih]

end Visits

theorem length_le_layOut (rs : List Record) : rs.length ≤ (layOut rs).length := by
  induction rs with
  | nil => exact le_rfl
  | cons r rs ih =>
    have := r.size_pos
    simp only [layOut, List.length_cons, List.length_append, Record.length_bytes]
    omega

namespace Batch

variable {driveLetter : WString} {b : Batch} {buffer : Bytes}

theorem length_rest_le (b : Batch) : b.rest.length ≤ bufferLength := by
  have := (length_le_layOut b.records).trans b.fits
  simp only [records, List.length_cons] at this
  omega

theorem final_walk (fits : driveLetter.length + b.first.fileName.length < maxPath)
    (hlen : buffer.length = bufferLength) :
    Stateful.final (walk driveLetter) (Walk.start (b.fill buffer)) =
      (located 0 (reached b.records)).foldl (Walk.visit (driveLetter ++ b.first.fileName))
        (Walk.start (b.fill buffer)) :=
  Drive.final_walk fits (b.length_fill hlen) b.length_rest_le (b.chain_fill buffer) b.aligned
    (b.nameAt_fill buffer)

theorem final_walk_of_not_fits (fits : ¬ driveLetter.length + b.first.fileName.length < maxPath)
    (hlen : buffer.length = bufferLength) :
    Stateful.final (walk driveLetter) (Walk.start (b.fill buffer)) =
      ((Walk.start (b.fill buffer)).moved 0).written (0 + b.first.nameEnd) := by
  obtain ⟨e, hrun⟩ := run_walk_of_not_fits fits (b.length_fill hlen) (b.chain_fill buffer)
    (b.nameAt_fill buffer) (w := Walk.start (b.fill buffer))
  rw [Stateful.final, hrun]

/-! ## The files deleted -/

/-- The paths of the added files. -/
def addedPaths (driveLetter : WString) (b : Batch) : List WString :=
  (b.records.filter fun r => r.Added).map fun r => driveLetter ++ r.fileName

/-- Whatever the buffer held before, the walk deletes the added files and no others. -/
def DeletesAdded (driveLetter : WString) (b : Batch) : Prop :=
  ∀ buffer, buffer.length = bufferLength →
    (Stateful.final (walk driveLetter) (Walk.start (b.fill buffer))).deleted.map Deletion.path =
      b.addedPaths driveLetter

/-- Every added record has the name of the first one, and none is hidden from the walk. -/
structure AddedOnce (b : Batch) : Prop where
  one_name : ∀ r ∈ b.records, r.Added → r.fileName = b.first.fileName
  not_hidden : ∀ r ∈ hidden b.records, ¬ r.Added

theorem deleted_paths (fits : driveLetter.length + b.first.fileName.length < maxPath)
    (hlen : buffer.length = bufferLength) :
    (Stateful.final (walk driveLetter) (Walk.start (b.fill buffer))).deleted.map Deletion.path =
      ((reached b.records).filter fun r => r.Added).map
        fun _ => driveLetter ++ b.first.fileName := by
  rw [final_walk fits hlen, foldl_visit_deleted]
  conv_rhs => rw [← map_snd_located 0 (reached b.records)]
  simp [Walk.start, List.filter_map, Function.comp_def]

theorem addedPaths_eq (driveLetter : WString) (b : Batch) :
    b.addedPaths driveLetter =
      (((reached b.records).filter fun r => r.Added).map fun r => driveLetter ++ r.fileName) ++
        ((hidden b.records).filter fun r => r.Added).map fun r => driveLetter ++ r.fileName := by
  rw [addedPaths, ← List.map_append, ← List.filter_append, reached_append_hidden]

theorem DeletesAdded.addedOnce (fits : driveLetter.length + b.first.fileName.length < maxPath)
    (h : b.DeletesAdded driveLetter) : b.AddedOnce := by
  have hlen : (List.replicate bufferLength (0 : UInt8)).length = bufferLength :=
    List.length_replicate
  have heq := h _ hlen
  rw [deleted_paths fits hlen, addedPaths_eq] at heq
  have hnone : (hidden b.records).filter (fun r => r.Added) = [] := by
    have := congrArg List.length heq
    rw [← List.length_eq_zero_iff]
    simp only [List.length_map, List.length_append] at this
    omega
  have hhidden : ∀ r ∈ hidden b.records, ¬ r.Added := by
    simpa [List.filter_eq_nil_iff] using hnone
  refine ⟨?_, hhidden⟩
  intro r hr hadded
  rw [hnone, List.map_nil, List.append_nil] at heq
  rw [← reached_append_hidden b.records] at hr
  have hreached : r ∈ reached b.records :=
    (List.mem_append.mp hr).resolve_right fun hr => hhidden r hr hadded
  have hmem : r ∈ (reached b.records).filter fun r => r.Added := by simp [hreached, hadded]
  exact (List.append_cancel_left (List.map_inj_left.mp heq r hmem)).symm

theorem AddedOnce.deletesAdded (fits : driveLetter.length + b.first.fileName.length < maxPath)
    (h : b.AddedOnce) : b.DeletesAdded driveLetter := by
  intro buffer hlen
  have hnone : (hidden b.records).filter (fun r => r.Added) = [] := by
    simpa [List.filter_eq_nil_iff] using h.not_hidden
  rw [deleted_paths fits hlen, addedPaths_eq, hnone, List.map_nil, List.append_nil]
  apply List.map_congr_left
  intro r hr
  obtain ⟨hr, hadded⟩ := List.mem_filter.mp hr
  have hmem : r ∈ b.records := reached_append_hidden b.records ▸ List.mem_append_left _ hr
  rw [h.one_name r hmem (by simpa using hadded)]

/-- When all paths fit, a walk deletes the added files exactly when they all have the first
record's name and none of them is hidden. -/
theorem deletesAdded_iff
    (fits : ∀ r ∈ b.records, driveLetter.length + r.fileName.length < maxPath) :
    b.DeletesAdded driveLetter ↔ b.AddedOnce :=
  have first := fits b.first (by simp [records])
  ⟨DeletesAdded.addedOnce first, AddedOnce.deletesAdded first⟩

end Batch

/-- A record of a file whose name is one unit. -/
def oneUnit (action : UInt32) (u : UInt16) (hu : u ≠ 0) : Record where
  action := action
  fileName := [u]
  padding := [0, 0]
  nul_free := by simpa using hu.symm

/-- The file `a` is added. -/
def addedA : Batch where
  first := oneUnit 1 97 (by decide)
  rest := []
  aligned := by decide
  fits := by decide

/-- The file `b` is modified. -/
def modifiedB : Batch where
  first := oneUnit 3 98 (by decide)
  rest := []
  aligned := by decide
  fits := by decide

/-- The file `a` is added, `b` is modified, and `a` is added again. -/
def addedAgain : Batch where
  first := oneUnit 1 97 (by decide)
  rest := [oneUnit 3 98 (by decide), oneUnit 1 97 (by decide)]
  aligned := by decide
  fits := by decide

theorem deletesAdded_addedAgain : addedAgain.DeletesAdded [67, 58, 92] ∧
    addedAgain.addedPaths [67, 58, 92] = [[67, 58, 92, 97], [67, 58, 92, 97]] := by
  have fits : ∀ r ∈ addedAgain.records, [67, 58, 92].length + r.fileName.length < maxPath := by
    decide
  exact ⟨(Batch.deletesAdded_iff fits).mpr ⟨by decide, by decide⟩, by decide⟩

/-- The files `a` and `b` are added. -/
def addedAB : Batch where
  first := oneUnit 1 97 (by decide)
  rest := [oneUnit 1 98 (by decide)]
  aligned := by decide
  fits := by decide

/-- The file `a` is deleted twice, and `b` not at all. -/
theorem not_always_deletesAdded :
    ¬ ∀ driveLetter (b : Batch),
      (∀ r ∈ b.records, driveLetter.length + r.fileName.length < maxPath) →
        b.DeletesAdded driveLetter := by
  intro h
  have fits : ∀ r ∈ addedAB.records, [67, 58, 92].length + r.fileName.length < maxPath := by
    decide
  have first := fits addedAB.first (by simp [Batch.records])
  have once := (h [67, 58, 92] addedAB fits).addedOnce first
  have same := once.one_name (oneUnit 1 98 (by decide)) (by simp [addedAB, Batch.records]) rfl
  exact absurd same (by decide)

theorem length_located (off : ℕ) (rs : List Record) : (located off rs).length = rs.length := by
  rw [← List.length_map (f := Prod.snd), map_snd_located]

/-! ## The records visited -/

/-- Where the last name ends. -/
def lastNameEnd (off : ℕ) : List Record → ℕ
  | [] => off
  | [r] => off + r.nameEnd
  | r :: s :: rest => lastNameEnd (off + r.size) (s :: rest)

theorem nameEnd_le_lastNameEnd {off : ℕ} {rs : List Record} {x : ℕ × Record}
    (h : x ∈ located off rs) : x.1 + x.2.nameEnd ≤ lastNameEnd off rs := by
  fun_induction lastNameEnd off rs generalizing x with
  | case1 off => simp [located] at h
  | case2 off r =>
    obtain rfl := List.mem_singleton.mp h
    exact le_rfl
  | case3 off r s rest ih =>
    rcases List.mem_cons.mp h with rfl | h
    · have hs := ih (x := (off + r.size, s)) (by simp [located])
      have := nameEnd_le r
      simp only at hs ⊢
      omega
    · exact ih h

theorem exists_lastNameEnd (off : ℕ) {rs : List Record} (h : rs ≠ []) :
    ∃ x ∈ located off rs, x.1 + x.2.nameEnd = lastNameEnd off rs := by
  fun_induction lastNameEnd off rs with
  | case1 off => exact absurd rfl h
  | case2 off r => exact ⟨(off, r), by simp [located], rfl⟩
  | case3 off r s rest ih =>
    obtain ⟨x, hx, heq⟩ := ih (by simp)
    exact ⟨x, List.mem_cons_of_mem _ hx, heq⟩

namespace Write

/-- The write changes neither header nor name of the given records. -/
def Spares (x : Write) (unvisited : List (ℕ × Record)) : Prop :=
  ∀ y ∈ unvisited, LittleEndian.slice x.after y.1 y.2.nameEnd =
    LittleEndian.slice x.before y.1 y.2.nameEnd

end Write

/-- The terminator of a record spares all records behind it, unless it meets the distance
that one but the last of them starts with. -/
theorem spares_terminator {mem : Bytes} {off : ℕ} {r : Record} {rest : List Record}
    (chain : Chain mem off (r :: rest)) (aligned : Aligned off (r :: rest))
    (hidden_nil : hidden (r :: rest) = []) (visited : ℕ) :
    Write.Spares ⟨off + r.nameEnd, mem,
      LittleEndian.overwrite mem (off + r.nameEnd) [0, 0], visited⟩
      (located (off + r.size) rest) := by
  intro y hy
  have hle := le_of_mem_located hy
  have hrest : rest ≠ [] := by
    rintro rfl
    simp [located] at hy
  rcases aligned.padding hrest with hpadding | hapart
  · obtain ⟨s, rest, rfl⟩ := List.exists_cons_of_ne_nil hrest
    obtain rfl : rest = [] := by simpa [hidden, hpadding] using hidden_nil
    have hnext : off + r.nameEnd = off + r.size := by simp [Record.size, hpadding]
    have hzero : LittleEndian.slice mem (off + r.nameEnd) 2 = [0, 0] := by
      have hnone := chain.2.1.next_eq
      unfold LittleEndian.read at hnone
      split_ifs at hnone with hroom
      have hvalue := Option.some.inj hnone
      rw [LittleEndian.slice_add mem _ 2 2, LittleEndian.value_append] at hvalue
      have hlow : LittleEndian.value (LittleEndian.slice mem (off + r.size) 2) = 0 := by
        simp only [nextEntryOffset, noMoreEntries, if_true] at hvalue
        omega
      have hlen : (LittleEndian.slice mem (off + r.size) 2).length = 2 := by
        simp [LittleEndian.slice]
        omega
      have := LittleEndian.eq_replicate_of_value_eq_zero hlow
      rw [hlen] at this
      rw [hnext]
      exact this
    exact congrArg (LittleEndian.slice · _ _) (LittleEndian.overwrite_eq_self hzero)
  · exact LittleEndian.slice_overwrite_of_disjoint (.inr (by simp; omega))

theorem hidden_tail {r : Record} {rest : List Record} (h : hidden (r :: rest) = []) :
    hidden rest = [] ∧ remaining r rest = rest := by
  cases rest with
  | nil => simp [hidden, remaining]
  | cons s rest =>
    by_cases hpadding : r.padding = []
    · obtain rfl : rest = [] := by simpa [hidden, hpadding] using h
      simp [hidden, remaining]
    · simpa [hidden, remaining, hpadding] using h

/-- Along a chain without hidden records every write spares what has not been visited. -/
theorem foldl_visit_spares {path : WString} {all : List (ℕ × Record)} {off : ℕ}
    {rs : List Record} {w : Walk} (hlen : w.buffer.length = bufferLength)
    (chain : Chain w.buffer off rs) (aligned : Aligned off rs) (hidden_nil : hidden rs = [])
    (unvisited : all.drop w.visited.length = located off rs)
    (spared : ∀ x ∈ w.writes, x.Spares (all.drop x.visited)) :
    ∀ x ∈ ((located off rs).foldl (Walk.visit path) w).writes, x.Spares (all.drop x.visited) := by
  induction rs generalizing off w with
  | nil => simpa [located] using spared
  | cons r rest ih =>
    obtain ⟨hhidden, hremaining⟩ := hidden_tail hidden_nil
    have hchain := chain.terminated aligned (by rw [hlen]; decide)
    rw [hremaining] at hchain
    have hdrop : all.drop (w.visited.length + 1) = located (off + r.size) rest := by
      rw [← List.drop_drop, unvisited, located, List.drop_one, List.tail_cons]
    rw [located, List.foldl_cons]
    refine ih ?_ hchain.2 aligned.tail hhidden ?_ ?_
    · simpa [hlen] using length_visit path w (off, r)
    · simpa [Walk.visit, Walk.written, Walk.moved] using hdrop
    · intro x hx
      rcases List.mem_append.mp hx with hx | hx
      · exact spared x hx
      · obtain rfl := List.mem_singleton.mp hx
        have := spares_terminator chain aligned hidden_nil (w.visited.length + 1)
        rw [← hdrop] at this
        simpa [Walk.moved] using this

namespace Batch

variable {driveLetter : WString} {b : Batch} {buffer : Bytes}

/-- The walk visits every record once and in order; every write lies in the buffer and spares the
records not yet visited. -/
structure Unharmed (driveLetter : WString) (b : Batch) : Prop where
  visited : ∀ buffer, buffer.length = bufferLength →
    (Stateful.final (walk driveLetter) (Walk.start (b.fill buffer))).visited =
      (located 0 b.records).map Prod.fst
  writes : ∀ buffer, buffer.length = bufferLength →
    ∀ x ∈ (Stateful.final (walk driveLetter) (Walk.start (b.fill buffer))).writes,
      x.position + 2 ≤ bufferLength ∧ x.Spares ((located 0 b.records).drop x.visited)

/-- The first path fits, or there is no second record; none is hidden; and the last terminator
lies in the buffer. -/
structure Spacious (driveLetter : WString) (b : Batch) : Prop where
  first_fits : b.rest = [] ∨ driveLetter.length + b.first.fileName.length < maxPath
  none_hidden : hidden b.records = []
  room : lastNameEnd 0 b.records + 2 ≤ bufferLength

theorem Unharmed.spacious (h : b.Unharmed driveLetter) : b.Spacious driveLetter := by
  have hlen : (List.replicate bufferLength (0 : UInt8)).length = bufferLength :=
    List.length_replicate
  have hvisited := h.visited _ hlen
  have hposition : ∀ p ∈ (Stateful.final (walk driveLetter)
      (Walk.start (b.fill (List.replicate bufferLength 0)))).writes.map Write.position,
      p + 2 ≤ bufferLength := by
    intro p hp
    obtain ⟨x, hx, rfl⟩ := List.mem_map.mp hp
    exact (h.writes _ hlen x hx).1
  by_cases fits : driveLetter.length + b.first.fileName.length < maxPath
  · rw [final_walk fits hlen, foldl_visit_visited] at hvisited
    rw [final_walk fits hlen, foldl_visit_position] at hposition
    have hcount := congrArg List.length hvisited
    simp only [Walk.start, List.nil_append, List.length_map] at hcount
    have hall : reached b.records = b.records := by
      have happend := congrArg List.length (reached_append_hidden b.records)
      simp only [length_located, List.length_append] at hcount happend
      rw [reached_eq_self_iff, ← List.length_eq_zero_iff]
      omega
    refine ⟨.inr fits, reached_eq_self_iff.mp hall, ?_⟩
    have nonempty : b.records ≠ [] := by simp [records]
    obtain ⟨x, hx, heq⟩ := exists_lastNameEnd 0 nonempty
    rw [← heq]
    exact hposition _ (List.mem_append_right _ (List.mem_map.mpr ⟨x, hall.symm ▸ hx, rfl⟩))
  · rw [final_walk_of_not_fits fits hlen] at hvisited hposition
    have hrest : b.rest = [] := by
      have := congrArg List.length hvisited
      simpa [Walk.written, Walk.moved, Walk.start, length_located, records] using this
    have hrecords : b.records = [b.first] := by rw [records, hrest]
    refine ⟨.inl hrest, by rw [hrecords]; rfl, ?_⟩
    rw [hrecords]
    exact hposition _ (by simp [Walk.written, Walk.moved, Walk.start, lastNameEnd])

theorem Spacious.final_eq (h : b.Spacious driveLetter)
    (fits : driveLetter.length + b.first.fileName.length < maxPath)
    (hlen : buffer.length = bufferLength) :
    Stateful.final (walk driveLetter) (Walk.start (b.fill buffer)) =
      (located 0 b.records).foldl (Walk.visit (driveLetter ++ b.first.fileName))
        (Walk.start (b.fill buffer)) := by
  rw [final_walk fits hlen, reached_eq_self_iff.mpr h.none_hidden]

theorem Spacious.position_le (h : b.Spacious driveLetter) {p : ℕ}
    (hp : p ∈ (located 0 b.records).map fun x => x.1 + x.2.nameEnd) : p + 2 ≤ bufferLength := by
  obtain ⟨x, hx, rfl⟩ := List.mem_map.mp hp
  have := nameEnd_le_lastNameEnd hx
  have := h.room
  omega

theorem Spacious.unharmed (h : b.Spacious driveLetter) : b.Unharmed driveLetter := by
  by_cases fits : driveLetter.length + b.first.fileName.length < maxPath
  · refine ⟨?_, ?_⟩
    · intro buffer hlen
      rw [h.final_eq fits hlen, foldl_visit_visited]
      rfl
    · intro buffer hlen x hx
      rw [h.final_eq fits hlen] at hx
      have hmem := List.mem_map_of_mem (f := Write.position) hx
      rw [foldl_visit_position] at hmem
      refine ⟨h.position_le hmem, ?_⟩
      exact foldl_visit_spares (b.length_fill hlen) (b.chain_fill buffer) b.aligned h.none_hidden
        rfl (by simp [Walk.start]) x hx
  · have hrecords : b.records = [b.first] := by
      rw [records, h.first_fits.resolve_right fits]
    refine ⟨?_, ?_⟩
    · intro buffer hlen
      rw [final_walk_of_not_fits fits hlen, hrecords]
      rfl
    · intro buffer hlen x hx
      rw [final_walk_of_not_fits fits hlen] at hx
      obtain rfl := List.mem_singleton.mp hx
      refine ⟨h.position_le (by simp [hrecords, located]), ?_⟩
      simp [Write.Spares, hrecords, located, Walk.moved, Walk.start]

theorem unharmed_iff (driveLetter : WString) (b : Batch) :
    b.Unharmed driveLetter ↔ b.Spacious driveLetter :=
  ⟨Unharmed.spacious, Spacious.unharmed⟩

end Batch

/-- The files `ab`, `a` and `a` are added; the name of the first record ends at the second. -/
def tight : Batch where
  first := ⟨1, [97, 98], [], by decide⟩
  rest := [oneUnit 1 97 (by decide), oneUnit 1 97 (by decide)]
  aligned := by decide
  fits := by decide

/-- The third record is never visited. -/
theorem not_always_unharmed : ¬ ∀ driveLetter (b : Batch), b.Unharmed driveLetter := by
  intro h
  have hhidden := (h [67, 58, 92] tight).spacious.none_hidden
  exact absurd hhidden (by simp [tight, Batch.records, hidden])

end ComputerLock.Drive
