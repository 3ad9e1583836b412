import ComputerLock.Client.Settings
import ComputerLock.Process.Handler

/-!
# Checks after a settings response

The bytes of the processes field are stored as they come. A check converts the first word of
the file to UTF-16, and nothing catches what the converter throws.
-/

namespace ComputerLock.Process
open Library Common Client

/-- The word that is read back of a stored field: the first one, up to the first control-Z. -/
def storedWord (processes : Bytes) : Bytes :=
  CText.extractWord (processes.takeWhile (· ≠ CText.controlZ))

/-- Every check of any processes returns while the file of processes is as on the given disk. -/
structure ChecksReturn (disk : Disk) : Prop where
  single : ∀ a : Answers, a.disk .processes = disk .processes →
    ∀ k, ∃ k', (checkSingleProcess a).run k = .ok () k'
  all : ∀ as : List Answers, (∀ a ∈ as, a.disk .processes = disk .processes) →
    ∀ k, ∃ k', (checkOpenProcesses as).run k = .ok () k'

theorem ChecksReturn.of_wellFormed {disk : Disk} (h : WellFormed (readWord (disk .processes))) :
    ChecksReturn disk := by
  have hreturns : ∀ a : Answers, a.disk .processes = disk .processes → ¬ a.Throws :=
    fun a ha hthrows => hthrows.2.2 (ha.symm ▸ h)
  refine ⟨?_, ?_⟩
  · intro a ha k
    exact checkSingleProcess_returns_iff.mpr (hreturns a ha)
  · intro as has k
    have hturn : ∀ a ∈ as, ∀ k, True → ∃ k', (checkOpenProcess a).run k = .ok () k' ∧ True := by
      intro a ha k _
      obtain ⟨k', hk'⟩ := checkOpenProcess_returns_iff (k := k).mpr (hreturns a (has a ha))
      exact ⟨k', hk', trivial⟩
    obtain ⟨k', hk', -⟩ := Stateful.forM_keeps hturn trivial
    exact ⟨k', hk'⟩

theorem ChecksReturn.wellFormed {disk : Disk} (h : ChecksReturn disk) :
    WellFormed (readWord (disk .processes)) := by
  have hreturns := checkSingleProcess_returns_iff.mp (h.single (named disk) rfl ⟨[], [], []⟩)
  by_contra hword
  exact hreturns ⟨by simp [named, null], rfl, hword⟩

/-- The second element is on disk as soon as there is one, whatever becomes of the others. -/
theorem final_parseSettingsResponse_processes {response p : Bytes} (disk : Disk)
    (h : (split response messageParameterDelimiter)[settingsProcessesElement]? = some p) :
    Stateful.final (parseSettingsResponse response) disk .processes = CText.writeText p := by
  rw [split_eq_fields] at h
  rw [Stateful.final, parseSettingsResponse_run]
  generalize Delimited.fields messageParameterDelimiter response = elements at h ⊢
  rcases elements with _ | ⟨l, _ | ⟨p', _ | ⟨f, _ | ⟨e, rest⟩⟩⟩⟩
  · simp [settingsProcessesElement] at h
  · simp [settingsProcessesElement] at h
  all_goals
    obtain rfl : p' = p := Option.some.inj h
    simp

/-- Whatever the server sends, later checks return exactly when the word that is read back is
well-formed. -/
theorem checksReturn_iff {response p : Bytes} (disk : Disk)
    (h : (split response messageParameterDelimiter)[settingsProcessesElement]? = some p) :
    ChecksReturn (Stateful.final (parseSettingsResponse response) disk) ↔
      WellFormed (storedWord p) := by
  have hword : readWord (Stateful.final (parseSettingsResponse response) disk .processes) =
      storedWord p := by
    rw [final_parseSettingsResponse_processes disk h, readWord, CText.readText_writeText]
    rfl
  rw [← hword]
  exact ⟨ChecksReturn.wellFormed, ChecksReturn.of_wellFormed⟩

/-- `0:a:b:c` -/
theorem checksReturn_a : ChecksReturn
    (Stateful.final (parseSettingsResponse [48, 58, 97, 58, 98, 58, 99]) fun _ => []) := by
  have hword : storedWord [97] = Utf8.encode ['a'] := by decide
  refine (checksReturn_iff _ (p := [97]) (by decide)).mpr ?_
  rw [hword]
  exact congrArg Option.isSome (Utf8.decode_encode ['a'])

/-- After `0:\xff:b:c` the next check throws. -/
theorem not_always_checksReturn :
    ¬ ∀ response p disk,
      (split response messageParameterDelimiter)[settingsProcessesElement]? = some p →
        ChecksReturn (Stateful.final (parseSettingsResponse response) disk) := by
  intro h
  have returned := h [48, 58, 255, 58, 98, 58, 99] [255] (fun _ => []) (by decide)
  have hfile : Stateful.final (parseSettingsResponse [48, 58, 255, 58, 98, 58, 99]) (fun _ => [])
      .processes = CText.writeText [255] :=
    final_parseSettingsResponse_processes (fun _ => []) (by decide)
  have := returned.wellFormed
  rw [hfile] at this
  exact absurd this (by decide +kernel)

end ComputerLock.Process
