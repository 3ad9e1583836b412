import Mathlib.Data.List.Nodup
import ComputerLock.Library.Runs
import ComputerLock.Drive.Batch

/-!
# Monitoring a drive

`MonitorDrive` waits for changes and walks over the buffer, again and again. It does not look at
the number of bytes returned. When more has changed than the buffer can hold, the call succeeds
with no bytes, the buffer still holds the chain of the last batch, and the walk visits it anew.
-/

namespace ComputerLock.Drive
open Library Common

/-! ## A second walk -/

theorem reached_reached (rs : List Record) : reached (reached rs) = reached rs := by
  fun_induction reached rs with
  | case1 => rfl
  | case2 r => rfl
  | case3 r s rest h => simp [reached, h]
  | case4 r s rest h ih =>
    cases hrest : reached (s :: rest) with
    | nil => rfl
    | cons t ts =>
      rw [hrest] at ih
      simp [reached, h, ih]

theorem reached_eq_nil_iff {rs : List Record} : reached rs = [] ↔ rs = [] := by
  fun_cases reached rs with
  | case3 r s rest h => simp
  | case4 r s rest h => simp
  | _ => simp

theorem length_reached_le (rs : List Record) : (reached rs).length ≤ rs.length := by
  have := congrArg List.length (reached_append_hidden rs)
  rw [List.length_append] at this
  omega

theorem mem_located_append {off : ℕ} {rs rs' : List Record} {x : ℕ × Record}
    (h : x ∈ located off rs) : x ∈ located off (rs ++ rs') := by
  induction rs generalizing off with
  | nil => simp [located] at h
  | cons r rs ih =>
    rcases List.mem_cons.mp h with rfl | h
    · simp [located]
    · exact List.mem_cons_of_mem _ (ih h)

theorem Aligned.reached {off : ℕ} {rs : List Record} (h : Aligned off rs) :
    Aligned off (reached rs) := fun x hx =>
  h x (reached_append_hidden rs ▸ mem_located_append hx)

/-- Different records start at different positions. -/
theorem nodup_located (off : ℕ) (rs : List Record) : ((located off rs).map Prod.fst).Nodup := by
  induction rs generalizing off with
  | nil => simp [located]
  | cons r rs ih =>
    rw [located, List.map_cons, List.nodup_cons]
    refine ⟨?_, ih _⟩
    intro hmem
    obtain ⟨x, hx, heq⟩ := List.mem_map.mp hmem
    have := le_of_mem_located hx
    have := r.size_pos
    simp only at heq
    omega

theorem filter_added_eq_nil {off : ℕ} {rs : List Record} (h : ∀ r ∈ rs, ¬ r.Added) :
    (located off rs).filter (fun x => x.2.Added) = [] := by
  rw [List.filter_eq_nil_iff]
  intro x hx
  have hmem := List.mem_map_of_mem (f := Prod.snd) hx
  rw [map_snd_located] at hmem
  simpa using h x.2 hmem

/-- The first name of a chain is the first to end. -/
theorem nameEnd_le_of_mem_located {off : ℕ} {r : Record} {rest : List Record} {x : ℕ × Record}
    (h : x ∈ located off (r :: rest)) : off + r.nameEnd ≤ x.1 + x.2.nameEnd := by
  rcases List.mem_cons.mp h with rfl | h
  · exact le_rfl
  · have := le_of_mem_located h
    have := nameEnd_le r
    omega

section Visits

variable {path : WString} {w : Walk} {xs : List (ℕ × Record)}

/-- What no terminator destroys is left by a run of visits. -/
theorem foldl_visit_keeps {P : Bytes → Prop} (h : P w.buffer)
    (kept : ∀ x ∈ xs, ∀ mem, P mem → P (LittleEndian.overwrite mem (x.1 + x.2.nameEnd) [0, 0])) :
    P (xs.foldl (Walk.visit path) w).buffer := by
  induction xs generalizing w with
  | nil => exact h
  | cons x xs ih =>
    have first : P (w.visit path x).buffer := kept x (by simp) w.buffer h
    apply ih first
    intro y hy
    exact kept y (List.mem_cons_of_mem _ hy)

theorem length_foldl_visit :
    (xs.foldl (Walk.visit path) w).buffer.length = w.buffer.length := by
  apply foldl_visit_keeps (P := fun mem => mem.length = w.buffer.length) rfl
  intro x _ mem hmem
  simpa using hmem

/-- What lies before all terminators stays as it is. -/
theorem slice_foldl_visit {p n : ℕ} (apart : ∀ x ∈ xs, p + n ≤ x.1 + x.2.nameEnd) :
    LittleEndian.slice (xs.foldl (Walk.visit path) w).buffer p n =
      LittleEndian.slice w.buffer p n := by
  apply foldl_visit_keeps
    (P := fun mem => LittleEndian.slice mem p n = LittleEndian.slice w.buffer p n) rfl
  intro x hx mem hmem
  exact (LittleEndian.slice_overwrite_of_disjoint (.inl (apart x hx))).trans hmem

theorem HeaderAt.foldl_visit {off next : ℕ} {r : Record} (h : HeaderAt w.buffer off next r)
    (apart : ∀ x ∈ xs, off + fileNameOffset ≤ x.1 + x.2.nameEnd) :
    HeaderAt (xs.foldl (Walk.visit path) w).buffer off next r := by
  apply foldl_visit_keeps (P := fun mem => HeaderAt mem off next r) h
  intro x hx mem hmem
  exact hmem.overwrite (.inl (apart x hx))

/-- A walk leaves the chain of the records it has visited. -/
theorem chain_foldl_visit {n off : ℕ} {rs : List Record} (hn : rs.length ≤ n)
    (hlen : w.buffer.length = bufferLength) (chain : Chain w.buffer off rs)
    (aligned : Aligned off rs) :
    Chain ((located off (reached rs)).foldl (Walk.visit path) w).buffer off (reached rs) := by
  induction n generalizing off rs w with
  | zero =>
    obtain rfl := List.length_eq_zero_iff.mp (Nat.le_zero.mp hn)
    trivial
  | succ n ih =>
    cases rs with
    | nil => trivial
    | cons r rest =>
      have hchain : Chain (w.visit path (off, r)).buffer off (r :: remaining r rest) :=
        chain.terminated aligned (by rw [hlen]; decide)
      have hnext : nextEntryOffset r (reached (remaining r rest)) =
          nextEntryOffset r (remaining r rest) := by
        simp only [nextEntryOffset, reached_eq_nil_iff]
      rw [reached_cons, located, List.foldl_cons]
      refine ⟨?_, ?_⟩
      · rw [hnext]
        apply hchain.1.foldl_visit
        intro x hx
        have := le_of_mem_located hx
        have := r.size_pos
        simp only [Record.nameEnd] at *
        omega
      · refine ih ?_ ?_ hchain.2 aligned.tail.remains
        · have := length_remaining_le r rest
          simp only [List.length_cons] at hn
          omega
        · rw [length_visit]
          exact hlen

end Visits

/-! ## The loop -/

/-- What a call of `ReadDirectoryChangesW` brings. -/
inductive Outcome where
  | failed
  | reported (b : Batch)
  /-- success, without a byte returned -/
  | overflowed

/-- A call of `DeleteFile`, with the call of `ReadDirectoryChangesW` it follows and the one that
reported the record. -/
structure Act where
  call : ℕ
  report : Option ℕ
  deletion : Deletion

structure Monitor where
  buffer : Bytes
  /-- the calls of `ReadDirectoryChangesW` so far -/
  calls : ℕ
  /-- the last batch, with the call that reported it -/
  report : Option (ℕ × Batch)
  acts : List Act
  /-- whether a walk has ended the process -/
  ended : Bool

namespace Monitor

/-- The buffer is not initialised. -/
def start (buffer : Bytes) : Monitor := ⟨buffer, 0, none, [], false⟩

def receive (s : Monitor) (b : Batch) : Monitor :=
  { s with
    buffer := b.fill s.buffer
    report := some (s.calls, b) }

/-- The rest of a turn of the loop. -/
def walked (driveLetter : WString) (s : Monitor) : Monitor :=
  { s with
    buffer := (Stateful.final (walk driveLetter) (Walk.start s.buffer)).buffer
    calls := s.calls + 1
    acts := s.acts ++ (Stateful.final (walk driveLetter) (Walk.start s.buffer)).deleted.map
      fun d => ⟨s.calls, s.report.map Prod.fst, d⟩
    ended := Stateful.failed (walk driveLetter) (Walk.start s.buffer) }

/-- A turn of the loop of `MonitorDrive`. -/
def step (driveLetter : WString) (s : Monitor) (o : Outcome) : Option Monitor :=
  if s.ended then none
  else match o with
    | .failed => some { s with calls := s.calls + 1 }
    | .reported b => some ((s.receive b).walked driveLetter)
    | .overflowed => some (s.walked driveLetter)

theorem step_reported {driveLetter : WString} {s : Monitor} {b : Batch}
    (running : s.ended = false) :
    step driveLetter s (.reported b) = some ((s.receive b).walked driveLetter) := by
  simp [step, running]

theorem step_overflowed {driveLetter : WString} {s : Monitor} (running : s.ended = false) :
    step driveLetter s .overflowed = some (s.walked driveLetter) := by
  simp [step, running]

/-- Files are deleted only after the call that reported them, and no record twice. -/
structure ActsOnce (s : Monitor) : Prop where
  current : ∀ x ∈ s.acts, x.report = some x.call
  nodup : (s.acts.map fun x => (x.report, x.deletion.record)).Nodup

/-- No overflow before the first batch, nor after one with an added record in the walk's reach. -/
def NoReplay (s : Monitor) : Outcome → Prop
  | .overflowed => ∃ k b, s.report = some (k, b) ∧ ∀ r ∈ reached b.records, ¬ r.Added
  | _ => True

/-- The buffer holds what the last walk has left of the last batch, and the next call has not
led to anything. -/
structure Sound (driveLetter : WString) (s : Monitor) : Prop where
  length_eq : s.buffer.length = bufferLength
  left : ∀ k b, s.report = some (k, b) → s.ended = false →
    driveLetter.length + b.first.fileName.length < maxPath ∧
      Chain s.buffer 0 (reached b.records) ∧ NameAt s.buffer b.first.fileName
  report_past : ∀ k b, s.report = some (k, b) → k < s.calls
  past : ∀ x ∈ s.acts, x.call < s.calls
  once : s.ActsOnce

section Steps

variable {driveLetter : WString} {s : Monitor}

theorem start_sound {buffer : Bytes} (hlen : buffer.length = bufferLength) :
    (start buffer).Sound driveLetter where
  length_eq := hlen
  left := by simp [start]
  report_past := by simp [start]
  past := by simp [start]
  once := ⟨by simp [start], by simp [start]⟩

/-- New deletions of different records, in a call that reported them, are no repetitions. -/
theorem ActsOnce.append (h : s.ActsOnce) (past : ∀ x ∈ s.acts, x.call < s.calls)
    (ds : List Deletion) (nodup : (ds.map Deletion.record).Nodup) {t : Monitor}
    (ht : t.acts = s.acts ++ ds.map fun d => ⟨s.calls, some s.calls, d⟩) : t.ActsOnce := by
  refine ⟨?_, ?_⟩
  · intro x hx
    rw [ht] at hx
    rcases List.mem_append.mp hx with hx | hx
    · exact h.current x hx
    · obtain ⟨d, -, rfl⟩ := List.mem_map.mp hx
      rfl
  · have hnew : ((ds.map fun d => (⟨s.calls, some s.calls, d⟩ : Act)).map
        fun x => (x.report, x.deletion.record)).Nodup := by
      have hpair : Function.Injective fun n : ℕ => (some s.calls, n) := by
        intro m n h
        simpa using h
      simpa [List.map_map, Function.comp_def] using nodup.map hpair
    rw [ht, List.map_append]
    apply List.Nodup.append h.nodup hnew
    intro y hold hnew
    obtain ⟨x, hx, rfl⟩ := List.mem_map.mp hold
    obtain ⟨z, hz, heq⟩ := List.mem_map.mp hnew
    obtain ⟨d, -, rfl⟩ := List.mem_map.mp hz
    have hcall := past x hx
    have hreport := congrArg Prod.fst heq
    simp only [h.current x hx] at hreport
    have := Option.some.inj hreport
    omega

/-- A walk over a chain with the first record of the last batch: either the batch is new or
nothing in the walk's reach was added. -/
theorem walked_sound {k : ℕ} {b : Batch} {rest : List Record} (once : s.ActsOnce)
    (past : ∀ x ∈ s.acts, x.call < s.calls) (hlen : s.buffer.length = bufferLength)
    (hreport : s.report = some (k, b)) (hk : k ≤ s.calls)
    (hreached : reached (b.first :: rest) = reached b.records)
    (hcount : rest.length ≤ bufferLength)
    (fits : driveLetter.length + b.first.fileName.length < maxPath)
    (chain : Chain s.buffer 0 (b.first :: rest)) (aligned : Aligned 0 (b.first :: rest))
    (hname : NameAt s.buffer b.first.fileName)
    (new : k = s.calls ∨ ∀ r ∈ reached b.records, ¬ r.Added) :
    (s.walked driveLetter).Sound driveLetter := by
  have hfinal := final_walk (w := Walk.start s.buffer) fits hlen hcount chain aligned hname
  have hdeleted := congrArg Walk.deleted hfinal
  rw [foldl_visit_deleted] at hdeleted
  have hbuffer := congrArg Walk.buffer hfinal
  have hlast : ∀ k' b', (s.walked driveLetter).report = some (k', b') → k = k' ∧ b = b' :=
    fun k' b' h => by simpa using hreport.symm.trans h
  refine ⟨?_, ?_, ?_, ?_, ?_⟩
  · simp only [walked, hbuffer, length_foldl_visit]
    exact hlen
  · intro k' b' h _
    obtain ⟨rfl, rfl⟩ := hlast k' b' h
    refine ⟨fits, ?_, ?_⟩
    · rw [← hreached]
      simp only [walked, hbuffer]
      exact chain_foldl_visit (w := Walk.start s.buffer) le_rfl hlen chain aligned
    · simp only [walked, hbuffer, NameAt]
      rw [reached_cons, slice_foldl_visit]
      · exact hname
      · intro x hx
        have := nameEnd_le_of_mem_located hx
        simp only [Record.nameEnd, Record.fileNameLength] at *
        omega
  · intro k' b' h
    obtain ⟨rfl, rfl⟩ := hlast k' b' h
    exact Nat.lt_succ_of_le hk
  · intro x hx
    rcases List.mem_append.mp hx with hx | hx
    · exact (past x hx).trans (Nat.lt_succ_self _)
    · obtain ⟨d, -, rfl⟩ := List.mem_map.mp hx
      exact Nat.lt_succ_self _
  · rcases new with rfl | none_added
    · refine once.append past ((Stateful.final (walk driveLetter)
        (Walk.start s.buffer)).deleted) ?_ ?_
      · have hsub := (List.filter_sublist (p := fun x => x.2.Added)
          (l := located 0 (reached (b.first :: rest)))).map Prod.fst
        rw [hdeleted]
        simpa [Walk.start, Function.comp_def] using (nodup_located _ _).sublist hsub
      · simp [walked, hreport]
    · have hnone : (Stateful.final (walk driveLetter) (Walk.start s.buffer)).deleted = [] := by
        rw [hdeleted, hreached, filter_added_eq_nil none_added]
        rfl
      apply once.append past [] (by simp)
      simp [walked, hnone]

theorem walked_receive_sound (h : s.Sound driveLetter) (b : Batch) :
    ((s.receive b).walked driveLetter).Sound driveLetter := by
  have hlen := b.length_fill h.length_eq
  by_cases fits : driveLetter.length + b.first.fileName.length < maxPath
  · exact walked_sound (s := s.receive b) ⟨h.once.current, h.once.nodup⟩ h.past hlen rfl le_rfl
      rfl b.length_rest_le fits (b.chain_fill s.buffer) b.aligned (b.nameAt_fill s.buffer)
      (.inl rfl)
  · -- the process ends at the first record, and has deleted nothing
    have hfinal := Batch.final_walk_of_not_fits fits h.length_eq
    obtain ⟨e, hrun⟩ := run_walk_of_not_fits (w := Walk.start (b.fill s.buffer)) fits hlen
      (b.chain_fill s.buffer) (b.nameAt_fill s.buffer)
    have hended : ((s.receive b).walked driveLetter).ended = true := by
      simp only [walked, receive, Stateful.failed, hrun]
    have hacts : ((s.receive b).walked driveLetter).acts = s.acts := by
      simp only [walked, receive, hfinal]
      exact List.append_nil _
    refine ⟨?_, ?_, ?_, ?_, ?_⟩
    · simp only [walked, receive, hfinal]
      exact (LittleEndian.length_overwrite ..).trans hlen
    · intro _ _ _ running
      rw [hended] at running
      cases running
    · intro k b' hlast
      obtain ⟨rfl, rfl⟩ : s.calls = k ∧ b = b' := by simpa [walked, receive] using hlast
      exact Nat.lt_succ_self _
    · intro x hx
      rw [hacts] at hx
      exact (h.past x hx).trans (Nat.lt_succ_self _)
    · exact ⟨by rw [hacts]; exact h.once.current, by rw [hacts]; exact h.once.nodup⟩

/-- While the process runs, the buffer holds a chain that can be walked over again. -/
theorem Sound.replay (h : s.Sound driveLetter) (running : s.ended = false) {k : ℕ} {b : Batch}
    (hreport : s.report = some (k, b)) :
    ∃ rest, rest.length ≤ bufferLength ∧ reached b.records = b.first :: rest ∧
      Chain s.buffer 0 (b.first :: rest) ∧ Aligned 0 (b.first :: rest) := by
  have hrecords : reached b.records = b.first :: reached (remaining b.first b.rest) :=
    reached_cons b.first b.rest
  have hcount := (length_reached_le (remaining b.first b.rest)).trans
    ((length_remaining_le b.first b.rest).trans b.length_rest_le)
  have aligned : Aligned 0 (reached b.records) := Aligned.reached b.aligned
  have chain := (h.left k b hreport running).2.1
  exact ⟨_, hcount, hrecords, hrecords ▸ chain, hrecords ▸ aligned⟩

theorem walked_replay_sound (h : s.Sound driveLetter) (running : s.ended = false)
    (noReplay : s.NoReplay .overflowed) : (s.walked driveLetter).Sound driveLetter := by
  obtain ⟨k, b, hreport, none_added⟩ := noReplay
  obtain ⟨rest, hcount, hrecords, chain, aligned⟩ := h.replay running hreport
  obtain ⟨fits, -, hname⟩ := h.left k b hreport running
  have hsame : reached (b.first :: rest) = reached b.records := by
    rw [← hrecords, reached_reached]
  exact walked_sound h.once h.past h.length_eq hreport (h.report_past k b hreport).le hsame hcount
    fits chain aligned hname (.inr none_added)

/-- An overflow after an added record in the walk's reach deletes its file once more. -/
theorem not_actsOnce_of_replay (h : s.Sound driveLetter) (running : s.ended = false) {k : ℕ}
    {b : Batch} (hreport : s.report = some (k, b)) {r : Record} (hr : r ∈ reached b.records)
    (added : r.Added) : ¬ (s.walked driveLetter).ActsOnce := by
  intro once
  obtain ⟨rest, hcount, hrecords, chain, aligned⟩ := h.replay running hreport
  obtain ⟨fits, -, hname⟩ := h.left k b hreport running
  have hfinal := final_walk (w := Walk.start s.buffer) fits h.length_eq hcount chain aligned hname
  have hdeleted := congrArg Walk.deleted hfinal
  rw [foldl_visit_deleted, ← hrecords, reached_reached] at hdeleted
  rw [← map_snd_located 0 (reached b.records)] at hr
  obtain ⟨x, hx, rfl⟩ := List.mem_map.mp hr
  have hagain : (⟨x.1, driveLetter ++ b.first.fileName⟩ : Deletion) ∈
      (Stateful.final (walk driveLetter) (Walk.start s.buffer)).deleted := by
    rw [hdeleted]
    exact List.mem_append_right _ (List.mem_map.mpr ⟨x, by simp [hx, added], rfl⟩)
  have hcurrent := once.current _ (List.mem_append_right _ (List.mem_map_of_mem hagain))
  have hlt := h.report_past k b hreport
  simp only [hreport, Option.map_some, Option.some.injEq] at hcurrent
  omega

theorem step_sound {o : Outcome} {t : Monitor} (h : s.Sound driveLetter)
    (noReplay : s.NoReplay o) (moved : step driveLetter s o = some t) : t.Sound driveLetter := by
  unfold step at moved
  split_ifs at moved with running
  cases o with
  | failed =>
    obtain rfl := Option.some.inj moved
    exact ⟨h.length_eq, h.left, fun k b hk => (h.report_past k b hk).trans (Nat.lt_succ_self _),
      fun x hx => (h.past x hx).trans (Nat.lt_succ_self _), h.once.current, h.once.nodup⟩
  | reported b =>
    obtain rfl := Option.some.inj moved
    exact walked_receive_sound h b
  | overflowed =>
    obtain rfl := Option.some.inj moved
    exact walked_replay_sound h (by simpa using running) noReplay

/-- As long as no overflow follows an added record, nothing is acted on twice. -/
theorem actsOnce_of_reaches {buffer : Bytes} (hlen : buffer.length = bufferLength)
    (h : Runs.Reaches (step driveLetter) NoReplay (start buffer) s) : s.ActsOnce :=
  (h.invariant (fun _ _ _ sound noReplay moved => step_sound sound noReplay moved)
    (start_sound hlen)).once

end Steps

end Monitor

/-- A buffer to start with. -/
def zeros : Bytes := List.replicate bufferLength 0

/-- A call has failed, and `a` has been added twice. -/
def addedTwice : Monitor :=
  ({ Monitor.start zeros with calls := 1 }.receive addedAgain).walked [67, 58, 92]

/-- Then `b` has been modified, and nothing of that batch is deleted. -/
def modified : Monitor := (addedTwice.receive modifiedB).walked [67, 58, 92]

theorem addedTwice_running : addedTwice.ended = false := by decide +kernel

theorem modified_running : modified.ended = false := by decide +kernel

/-- The overflow after the modification does no harm: the walk finds the record of `b` again. -/
theorem actsOnce_modified :
    (modified.walked [67, 58, 92]).acts.map Act.call = [1, 1] ∧
      (modified.walked [67, 58, 92]).ActsOnce := by
  have hadded : Runs.Reaches (Monitor.step [67, 58, 92]) Monitor.NoReplay (Monitor.start zeros)
      addedTwice :=
    Runs.Reaches.refl.tail (a := .failed) trivial rfl
      |>.tail (a := .reported addedAgain) trivial rfl
  have hmodified : Runs.Reaches (Monitor.step [67, 58, 92]) Monitor.NoReplay
      (Monitor.start zeros) modified :=
    hadded.tail (a := .reported modifiedB) (by trivial) (Monitor.step_reported addedTwice_running)
  have noReplay : modified.NoReplay .overflowed := ⟨2, modifiedB, rfl, by decide⟩
  have hlen : zeros.length = bufferLength := List.length_replicate
  exact ⟨by decide +kernel, Monitor.actsOnce_of_reaches hlen
    (hmodified.tail noReplay (Monitor.step_overflowed modified_running))⟩

/-- The file `a` is added, and deleted; a burst of changes follows, and it is deleted again. -/
theorem not_always_actsOnce :
    ¬ ∀ driveLetter buffer s, buffer.length = bufferLength →
      Runs.Reaches (Monitor.step driveLetter) (fun _ _ => True) (Monitor.start buffer) s →
        s.ActsOnce := by
  intro h
  have hlen : zeros.length = bufferLength := List.length_replicate
  have sound : (((Monitor.start zeros).receive addedA).walked [67, 58, 92]).Sound [67, 58, 92] :=
    Monitor.walked_receive_sound (Monitor.start_sound hlen) addedA
  have running : (((Monitor.start zeros).receive addedA).walked [67, 58, 92]).ended = false := by
    decide +kernel
  have added : addedA.first.Added := rfl
  refine Monitor.not_actsOnce_of_replay sound running rfl (r := addedA.first)
    (by simp [addedA, Batch.records, reached]) added (h [67, 58, 92] zeros _ hlen ?_)
  exact (Runs.Reaches.refl.tail (a := .reported addedA) trivial rfl).tail (a := .overflowed)
    trivial (Monitor.step_overflowed running)

end ComputerLock.Drive
