import ComputerLock.Client.Synchronisation

/-!
# In which order settings are stored

The settings on disk have a version: that of the frames the server has sent, in the order in
which it has sent them, or none of them. A poll that takes a frame stores a later version than
the one before it, and so does one on a new connection.
-/

namespace ComputerLock.Client
open Library Common

theorem Frame.bytes_ne_nil (f : Frame) : f.bytes ≠ [] := by
  simp [Frame.bytes, Response.bytes]

/-- How many bytes are taken tells how many frames are. -/
theorem eq_of_length_bytes {before before' after after' : List Frame}
    (h : before ++ after = before' ++ after')
    (hlen : (before.flatMap Frame.bytes).length = (before'.flatMap Frame.bytes).length) :
    before = before' := by
  have hnone : ∀ more : List Frame, (more.flatMap Frame.bytes).length = 0 → more = [] := by
    intro more hmore
    have hall := List.flatMap_eq_nil_iff.mp (List.length_eq_zero_iff.mp hmore)
    exact List.eq_nil_iff_forall_not_mem.mpr fun f hf => f.bytes_ne_nil (hall f hf)
  rcases List.append_eq_append_iff.mp h with ⟨more, rfl, -⟩ | ⟨more, rfl, -⟩ <;>
    rw [List.flatMap_append, List.length_append] at hlen <;>
    rw [hnone more (by omega), List.append_nil]

/-- The settings files as the version has them: those of the `n`-th frame, counted from one. -/
def version (disk : Disk) (sent : List Frame) : ℕ → Option Disk
  | 0 => some disk
  | n + 1 => sent[n]?.map fun f =>
    storeSettings f.processes f.filePaths f.fileExtensions disk

/-- The two disks have the same settings. -/
def SameSettings (disk disk' : Disk) : Prop :=
  disk .processes = disk' .processes ∧ disk .filePaths = disk' .filePaths ∧
  disk .fileExtensions = disk' .fileExtensions

theorem SameSettings.eq {disk disk' : Disk} (h : SameSettings disk disk') {g : SettingsFile}
    (hg : g ≠ .admin) : disk g = disk' g := by
  obtain ⟨hprocesses, hpaths, hextensions⟩ := h
  cases g with
  | admin => exact absurd rfl hg
  | processes => exact hprocesses
  | filePaths => exact hpaths
  | fileExtensions => exact hextensions

/-- A version stays what it is while the server sends more. -/
theorem version_append {disk d : Disk} {sent : List Frame} {n : ℕ}
    (h : version disk sent n = some d) (more : List Frame) :
    version disk (sent ++ more) n = some d := by
  cases n with
  | zero => exact h
  | succ n =>
    obtain ⟨f, hf, rfl⟩ := Option.map_eq_some_iff.mp h
    obtain ⟨hlt, -⟩ := List.getElem?_eq_some_iff.mp hf
    rw [version, List.getElem?_append_left hlt, hf]
    rfl

namespace Session

/-- What the connection still has to deliver is later than this version. -/
def Pending (n : ℕ) (s : Session) : Prop :=
  ∃ before after, s.connection = before ++ after ∧
    s.position = (before.flatMap Frame.bytes).length ∧
    s.connection <:+ s.sent ∧ n + after.length ≤ s.sent.length

/-- The files hold this version, and everything to come is later. -/
structure Current (disk : Disk) (n : ℕ) (s : Session) : Prop where
  holds : ∃ d, version disk s.sent n = some d ∧ SameSettings s.loop.disk d
  pending : s.Pending n

section Steps

variable {disk : Disk} {n n' : ℕ} {s s' : Session} {x : Exchange}

theorem current_start (l : Loop) : (start l).Current l.disk 0 :=
  ⟨⟨l.disk, rfl, rfl, rfl, rfl⟩, [], [], rfl, rfl, List.suffix_rfl, le_rfl⟩

theorem Pending.mono (h : s.Pending n) (hle : n' ≤ n) : s.Pending n' := by
  obtain ⟨before, after, hconnection, hposition, hsuffix, hlater⟩ := h
  exact ⟨before, after, hconnection, hposition, hsuffix, by omega⟩

/-- The files stay, and more is sent. -/
theorem Current.holds_append (h : s.Current disk n) (hsent : s'.sent = s.sent ++ x.frames)
    (hdisk : s'.loop.disk = s.loop.disk) :
    ∃ d, version disk s'.sent n = some d ∧ SameSettings s'.loop.disk d := by
  obtain ⟨d, hversion, hsame⟩ := h.holds
  rw [hsent, hdisk]
  exact ⟨d, version_append hversion _, hsame⟩

/-- A failed `send` leaves the files alone, and the old connection delivers nothing more. -/
theorem Current.step_error (h : s.Current disk n) (hsend : x.cycle.result = socketError)
    (hstep : s.step x = some s') : s'.Current disk n := by
  obtain ⟨hloop, hsent, -, -⟩ := step_cases hstep
  have hdisk : s'.loop.disk = s.loop.disk := by rw [hloop, Loop.final_cycle_disk_of_error hsend]
  refine ⟨h.holds_append hsent hdisk, [], [], ?_⟩
  obtain ⟨before, after, -, -, -, hlater⟩ := h.pending
  unfold step at hstep
  split_ifs at hstep
  obtain rfl := Option.some.inj hstep
  refine ⟨rfl, rfl, List.nil_suffix, ?_⟩
  simp only [exchanged, List.length_append, List.length_nil]
  omega

/-- A turn that polls goes on in the stream of the connection. -/
theorem step_poll (hsend : x.cycle.result ≠ socketError) (hstep : s.step x = some s') :
    s'.connection = s.connection ++ x.frames ∧
      s'.position = s.position + (took x.cycle.poll.turns).length := by
  unfold step at hstep
  split_ifs at hstep
  obtain rfl := Option.some.inj hstep
  exact ⟨rfl, rfl⟩

/-- A poll takes nothing, or the next frame, which is a later version. -/
theorem Pending.poll (h : s.Pending n) (hsend : x.cycle.result ≠ socketError)
    (boundary : s.AtBoundary x) (hstep : s.step x = some s') :
    took x.cycle.poll.turns = [] ∧ s'.Pending n ∨
      ∃ f k, took x.cycle.poll.turns = f.bytes ∧ n ≤ k ∧ s'.sent[k]? = some f ∧
        s'.Pending (k + 1) := by
  obtain ⟨-, hsent, -, htaken⟩ := step_cases hstep
  obtain ⟨hconnection, hposition⟩ := step_poll hsend hstep
  obtain ⟨before, after, hparts, hat, ⟨dropped, hdropped⟩, hlater⟩ := h
  have hsuffix : s'.connection <:+ s'.sent := by
    rw [hconnection, hsent, ← hdropped, List.append_assoc]
    exact List.suffix_append ..
  have hcount : dropped.length + (before.length + after.length) = s.sent.length := by
    rw [← hdropped, hparts, List.length_append, List.length_append]
  rcases boundary hsend with hnil | ⟨before', f, after', hframes, hat', hlen⟩
  · refine .inl ⟨hnil, before, after ++ x.frames, ?_, ?_, hsuffix, ?_⟩
    · rw [hconnection, hparts, List.append_assoc]
    · rw [hposition, hnil, hat, List.length_nil, Nat.add_zero]
    · rw [hsent, List.length_append, List.length_append]
      omega
  · -- the position is behind the frames that were taken before
    have hwhole : before ++ (after ++ x.frames) = before' ++ f :: after' := by
      rw [← hframes, hparts, List.append_assoc]
    obtain rfl : before = before' := eq_of_length_bytes hwhole (by rw [← hat, hat'])
    have hall : s'.sent = dropped ++ before ++ f :: after' := by
      rw [hsent, ← hdropped, List.append_assoc, hframes, List.append_assoc]
    have htook := htaken hsend
    rw [stream, hframes, hat] at htook
    refine .inr ⟨f, dropped.length + before.length, taken_eq_bytes htook hlen, by omega, ?_, ?_⟩
    · rw [hall, ← List.length_append, List.getElem?_append_right le_rfl, Nat.sub_self]
      rfl
    · refine ⟨before ++ [f], after', ?_, ?_, hsuffix, ?_⟩
      · rw [hconnection, hframes, List.append_assoc, List.singleton_append]
      · rw [hposition, hlen, hat, List.flatMap_append, List.length_append, List.flatMap_singleton]
      · rw [hall]
        simp only [List.length_append, List.length_cons]
        omega

/-- A turn leaves the files at their version or brings them to a later one. -/
theorem Current.step (h : s.Current disk n) (boundary : s.AtBoundary x)
    (hstep : s.step x = some s') : ∃ n', n ≤ n' ∧ s'.Current disk n' := by
  by_cases hsend : x.cycle.result = socketError
  · exact ⟨n, le_rfl, h.step_error hsend hstep⟩
  · obtain ⟨hloop, hsent, -, -⟩ := step_cases hstep
    have hkept : s'.loop.disk = s.loop.disk → s'.Pending n →
        ∃ n', n ≤ n' ∧ s'.Current disk n' := by
      intro hdisk hpending
      exact ⟨n, le_rfl, h.holds_append hsent hdisk, hpending⟩
    rcases h.pending.poll hsend boundary hstep with
      ⟨hnil, hpending⟩ | ⟨f, k, htook, hle, hf, hpending⟩
    · rcases Loop.final_cycle_disk x.cycle s.loop with hdisk | hdisk
      · exact hkept (by rw [hloop, hdisk]) hpending
      · apply hkept _ hpending
        rw [hloop, hdisk, hnil, Stateful.final, parseSettingsResponse_nil]
    · rcases Loop.final_cycle_disk x.cycle s.loop with hdisk | hdisk
      · exact hkept (by rw [hloop, hdisk]) (hpending.mono (by omega))
      · refine ⟨k + 1, by omega, ⟨_, congrArg (Option.map _) hf, ?_⟩, hpending⟩
        have hstored := storedOn_of_taken htook s.loop.disk
        rw [← hdisk, ← hloop] at hstored
        simpa [SameSettings, Response.StoredOn] using hstored

end Steps

end Session

end ComputerLock.Client
