import Mathlib.Data.List.DropRight
import ComputerLock.Library.Delimited
import ComputerLock.Process.Handler

/-!
# Which processes are hooked

A process need not be hooked when its image lies inside the Windows directory or its name is on
the list. The code looks for the text of the directory anywhere in the text of the path, as far
as that fits a buffer and with the letters as they are written.
-/

namespace ComputerLock.Process
open Library Common

/-! ## Paths -/

def backslash : UInt16 := 92

/-- The directories of a path, and the file. -/
def components (p : WString) : List WString :=
  (Delimited.fields backslash p).filter (· ≠ [])

def baseName (p : WString) : WString := p.rtakeWhile (· ≠ backslash)

/-- One form for the letters of both cases. No letter is taken for a separator. -/
structure LetterCase where
  fold : UInt16 → UInt16
  separator : ∀ u, fold u = backslash ↔ u = backslash

/-- The components of the directory come first in the path, when `fold` makes letters equal. -/
def Inside (fold : UInt16 → UInt16) (dir p : WString) : Prop :=
  (components dir).map (·.map fold) <+: (components p).map (·.map fold)

instance (fold : UInt16 → UInt16) (dir p : WString) : Decidable (Inside fold dir p) :=
  inferInstanceAs (Decidable (_ <+: _))

/-- The text of a path with one separator before each component. -/
def separated (p : WString) : WString := (components p).flatMap (backslash :: ·)

/-- The text of the path begins with that of the directory, and the next unit, if there is one, is a
separator. -/
def Begins (fold : UInt16 → UInt16) (dir p : WString) : Prop :=
  ∃ rest, (separated p).map fold = (separated dir).map fold ++ rest ∧
    ∀ u ∈ rest.head?, u = backslash

/-- No component goes on from one text into the other. -/
def Apart (dir rest : WString) : Prop :=
  (∀ u ∈ rest.head?, u = backslash) ∨ ∀ u ∈ dir.getLast?, u = backslash

/-- What fits a buffer of `MAX_PATH` units. -/
def fitting (s : WString) : WString := s.take (maxPath - 1)

/-- The names on the list. -/
def allowed (disk : Disk) : List WString :=
  (getParamsFromFile .processes disk).filterMap fun e => (Utf8.decode e).map Utf16.encode

/-- A process that can be opened, and what the system answers about it. -/
structure Subject extends Answers where
  /-- the path of the image -/
  image : WString
  nul_free : 0 ∉ image
  opened : openProcess ≠ null
  baseName_eq : ∀ n, getModuleBaseName = some n → n = fitting (baseName image)
  fileName_eq : ∀ p, getModuleFileNameEx = some p → p = fitting image

namespace Subject

/-- The answers, when the buffer for the path held the given units before. -/
def answers (s : Subject) (leftover : WString) : Answers :=
  { s.toAnswers with leftover := leftover }

def Harmless (fold : UInt16 → UInt16) (s : Subject) : Prop :=
  Inside fold s.getWindowsDirectory s.image ∨ baseName s.image ∈ allowed s.disk

instance (fold : UInt16 → UInt16) (s : Subject) : Decidable (s.Harmless fold) :=
  inferInstanceAs (Decidable (_ ∨ _))

/-- Whatever the buffer held, the handle is handed out exactly when the process has to be
hooked. -/
def Classified (fold : UInt16 → UInt16) (s : Subject) : Prop :=
  ∀ leftover k, ∃ k', (checkProcessPotential (s.answers leftover)).run k =
    .ok (if s.Harmless fold then (false, null) else (true, s.openProcess)) k'

/-- A name on the list is the given one, as C strings. -/
def Listed (disk : Disk) (n : WString) : Prop := ∃ m ∈ allowed disk, tcscmpEq m n

/-- The text of the directory, with the letters as they are written, stands between these texts
and in the part of the path that fits the buffer. -/
def ShownAt (s : Subject) (before after : WString) : Prop :=
  s.image = before ++ s.getWindowsDirectory ++ after ∧
    before.length + s.getWindowsDirectory.length < maxPath

def Shown (s : Subject) : Prop := ∃ before after, s.ShownAt before after

/-- The path begins with the directory, or the base name is on the list. -/
def Exempt (fold : UInt16 → UInt16) (s : Subject) : Prop :=
  Begins fold s.getWindowsDirectory s.image ∨ baseName s.image ∈ allowed s.disk

/-- Neither the path nor the name that is compared misleads. -/
structure Telling (fold : UInt16 → UInt16) (s : Subject) (n : WString) : Prop where
  /-- deeper in the path, or with the last component going on, the directory means nothing -/
  elsewhere : ∀ before after, s.ShownAt before after →
    before ≠ [] ∨ ¬ Apart s.getWindowsDirectory after → s.Exempt fold
  /-- the directory is not written in another way, or cut off by the end of the buffer -/
  respelled : Begins fold s.getWindowsDirectory s.image → s.Shown ∨ Listed s.disk n
  /-- a name on the list is the base name, and not only as far as a zero or the buffer goes -/
  alike : ∀ m ∈ allowed s.disk, cWStr m = n →
    m = baseName s.image ∨ Begins fold s.getWindowsDirectory s.image
  /-- a base name on the list has been retrieved, and fits the buffer -/
  whole : baseName s.image ∈ allowed s.disk → n = baseName s.image ∨ s.Shown

/-- The texts of the path, of the name and of the list do not mislead. -/
structure Sound (fold : UInt16 → UInt16) (s : Subject) : Prop where
  /-- without a name, the process is let off -/
  nameless : s.processName = none → s.Exempt fold
  readable : ∀ n, s.processName = some n → WellFormed (readWord (s.disk .processes))
  telling : ∀ n p, s.processName = some n → s.getModuleFileNameEx = some p → s.Telling fold n
  /-- without a path, the name has to do -/
  pathless : ∀ n, s.processName = some n → s.getModuleFileNameEx = none →
    s.Exempt fold ∧ (s.getWindowsDirectory = [] ∨ Listed s.disk n)

end Subject

/-! ## Components and text -/

theorem backslash_not_mem_components {p c : WString} (h : c ∈ components p) : backslash ∉ c :=
  Delimited.not_mem_of_mem_fields (List.mem_of_mem_filter h)

theorem backslash_not_mem_map_fold (l : LetterCase) {p c : WString}
    (h : c ∈ (components p).map (·.map l.fold)) : backslash ∉ c := by
  obtain ⟨c', hc', rfl⟩ := List.mem_map.mp h
  intro hmem
  obtain ⟨u, hu, hfold⟩ := List.mem_map.mp hmem
  exact backslash_not_mem_components hc' ((l.separator u).mp hfold ▸ hu)

theorem map_fold_separated (l : LetterCase) (p : WString) :
    (separated p).map l.fold =
      ((components p).map (·.map l.fold)).flatMap (backslash :: ·) := by
  have hfold : l.fold backslash = backslash := (l.separator backslash).mpr rfl
  rw [separated, List.map_flatMap, List.flatMap_map]
  simp [hfold]

/-- The image lies inside the directory exactly when its text begins with that of the directory and
a component ends there. -/
theorem inside_iff_begins (l : LetterCase) (dir p : WString) :
    Inside l.fold dir p ↔ Begins l.fold dir p := by
  rw [Inside, Begins, map_fold_separated, map_fold_separated]
  exact Delimited.prefix_iff_flatMap (fun _ => backslash_not_mem_map_fold l)
    fun _ => backslash_not_mem_map_fold l

theorem components_append {dir rest : WString} (h : Apart dir rest) :
    components (dir ++ rest) = components dir ++ components rest :=
  Delimited.filter_fields_append h

/-- Where the path is the directory and something apart from it, the image lies inside. -/
theorem inside_append (fold : UInt16 → UInt16) {dir rest : WString} (h : Apart dir rest) :
    Inside fold dir (dir ++ rest) := by
  rw [Inside, components_append h, List.map_append]
  exact List.prefix_append _ _

theorem infix_fitting_iff (dir p : WString) :
    dir <:+: fitting p ↔ ∃ before after, p = before ++ dir ++ after ∧
      before.length + dir.length < maxPath := by
  constructor
  · rintro ⟨before, after, heq⟩
    refine ⟨before, after ++ p.drop (maxPath - 1), ?_, ?_⟩
    · rw [← List.append_assoc, heq, fitting, List.take_append_drop]
    · have hlen := congrArg List.length heq
      simp only [List.length_append, fitting, List.length_take, maxPath] at hlen ⊢
      omega
  · rintro ⟨before, after, rfl, hlen⟩
    have hfits : (before ++ dir).length ≤ maxPath - 1 := by
      rw [List.length_append]
      omega
    have htake : fitting (before ++ dir ++ after) =
        before ++ dir ++ after.take (maxPath - 1 - (before ++ dir).length) := by
      rw [fitting, List.take_append, List.take_of_length_le hfits]
    exact ⟨before, _, htake.symm⟩

/-! ## Names -/

/-- At most one name is on the list. -/
theorem eq_of_mem_allowed {disk : Disk} {m m' : WString} (h : m ∈ allowed disk)
    (h' : m' ∈ allowed disk) : m = m' := by
  rw [allowed, getParamsFromFile_eq] at h h'
  split_ifs at h h' with hnil
  · cases h
  · obtain ⟨e, he, hm⟩ := List.mem_filterMap.mp h
    obtain ⟨e', he', hm'⟩ := List.mem_filterMap.mp h'
    obtain rfl := (List.mem_singleton.mp he).trans (List.mem_singleton.mp he').symm
    exact Option.some.inj (hm.symm.trans hm')

theorem cWStr_eq_self {n : WString} (h : 0 ∉ n) : cWStr n = n :=
  List.takeWhile_eq_self_iff.mpr fun u hu => by
    simpa using fun hz : u = 0 => h (hz ▸ hu)

/-! ## The verdict -/

theorem listed_iff (n : WString) (disk : Disk) :
    Subject.Listed disk n ↔ isProcessSafe n disk = .ok true := by
  rw [isProcessSafe_eq, Subject.Listed, allowed, getParamsFromFile_eq]
  split_ifs with hnil
  · simp
  · rw [fromBytes]
    cases hdecode : Utf8.decode (readWord (disk .processes)) <;> simp [hdecode, Except.map]

section Verdict

variable {a : Answers} {p : Prop} [Decidable p]

/-- Only the answers decide on an opened process, and not the handles. -/
theorem run_eq_iff_potential (h : a.openProcess ≠ null) :
    (∀ k, ∃ k', (checkProcessPotential a).run k =
      .ok (if p then (false, null) else (true, a.openProcess)) k') ↔
      a.potential = .ok (decide ¬ p) := by
  constructor
  · intro hrun
    obtain ⟨k', hk'⟩ := hrun ⟨[], [], []⟩
    rw [run_checkProcessPotential h] at hk'
    rcases hpotential : a.potential with e | _ | _ <;> rw [hpotential] at hk' <;>
      by_cases hp : p <;> grind
  · intro hpotential k
    rw [run_checkProcessPotential h, hpotential]
    by_cases hp : p <;> simp only [hp, if_true, if_false, not_true_eq_false, not_false_eq_true,
      decide_true, decide_false] <;> exact ⟨_, rfl⟩

theorem potential_eq_iff :
    a.potential = .ok (decide ¬ p) ↔
      (a.processName = none → p) ∧
        ∀ n, a.processName = some n → WellFormed (readWord (a.disk .processes)) ∧
          (isSystemProcess a ∨ Subject.Listed a.disk n ↔ p) := by
  rw [Answers.potential]
  cases a.processName with
  | none => simp
  | some n =>
    have hwell := isProcessSafe_eq_ok_iff n a.disk
    have hlisted := listed_iff n a.disk
    cases hsafe : isProcessSafe n a.disk with
    | error e => grind
    | ok b =>
      have hreadable := hwell.mp ⟨b, hsafe⟩
      cases hsystem : isSystemProcess a <;> cases b <;> by_cases hp : p <;> grind

end Verdict

namespace Subject

variable {fold : UInt16 → UInt16} {s : Subject}

theorem classified_iff_potential :
    s.Classified fold ↔
      ∀ leftover, (s.answers leftover).potential = .ok (decide ¬ s.Harmless fold) := by
  have hpotential := fun leftover =>
    run_eq_iff_potential (a := s.answers leftover) (p := s.Harmless fold) s.opened
  exact forall_congr' hpotential

theorem isSystemProcess_of_fileName {p leftover : WString} (h : s.getModuleFileNameEx = some p) :
    isSystemProcess (s.answers leftover) ↔ s.getWindowsDirectory <:+: fitting s.image := by
  have hfile : (s.answers leftover).filename = fitting s.image := by
    rw [← s.fileName_eq p h]
    exact congrArg (·.getD leftover) h
  rw [isSystemProcess, hfile]
  exact decide_eq_true_iff

theorem isSystemProcess_of_none {leftover : WString} (h : s.getModuleFileNameEx = none) :
    isSystemProcess (s.answers leftover) ↔ s.getWindowsDirectory <:+: leftover := by
  have hfile : (s.answers leftover).filename = leftover := congrArg (·.getD leftover) h
  rw [isSystemProcess, hfile]
  exact decide_eq_true_iff

theorem nul_not_mem_baseName (s : Subject) : 0 ∉ baseName s.image := fun hmem =>
  s.nul_free ((List.rtakeWhile_suffix _ _).subset hmem)

theorem nul_not_mem_processName {n : WString} (h : s.processName = some n) : 0 ∉ n := by
  unfold Answers.processName at h
  split_ifs at h
  · rw [s.baseName_eq n h]
    exact fun hmem => s.nul_not_mem_baseName (List.mem_of_mem_take hmem)
  · obtain rfl := Option.some.inj h
    decide

theorem harmless_iff_exempt (l : LetterCase) (s : Subject) :
    s.Harmless l.fold ↔ s.Exempt l.fold :=
  or_congr_left (inside_iff_begins l s.getWindowsDirectory s.image)

theorem shown_iff (s : Subject) : s.getWindowsDirectory <:+: fitting s.image ↔ s.Shown :=
  infix_fitting_iff s.getWindowsDirectory s.image

/-- Where the directory stands at the beginning of the path, the process is exempt. -/
theorem ShownAt.exempt (l : LetterCase) {after : WString} (h : s.ShownAt [] after)
    (apart : Apart s.getWindowsDirectory after) : s.Exempt l.fold := by
  refine .inl ((inside_iff_begins l _ _).mp ?_)
  rw [h.1, List.nil_append]
  exact inside_append l.fold apart

/-- What the code sees of a path and a name, and what they are. -/
theorem telling_iff (l : LetterCase) {n : WString} (hnul : 0 ∉ n) :
    s.Telling l.fold n ↔ (s.Shown ∨ Listed s.disk n ↔ s.Exempt l.fold) := by
  have hbase := cWStr_eq_self s.nul_not_mem_baseName
  have hname := cWStr_eq_self hnul
  have hlisted : Listed s.disk n ↔ ∃ m ∈ allowed s.disk, cWStr m = n := by
    simp [Listed, tcscmpEq, hname]
  constructor
  · intro h
    constructor
    · rintro (⟨before, after, hshown⟩ | hn)
      · by_cases hhead : before = [] ∧ Apart s.getWindowsDirectory after
        · obtain ⟨rfl, apart⟩ := hhead
          exact hshown.exempt l apart
        · exact h.elsewhere before after hshown (by tauto)
      · obtain ⟨m, hm, heq⟩ := hlisted.mp hn
        rcases h.alike m hm heq with rfl | hbegins
        · exact .inr hm
        · exact .inl hbegins
    · rintro (hbegins | hmem)
      · exact h.respelled hbegins
      · rcases h.whole hmem with rfl | hshown
        · exact .inr (hlisted.mpr ⟨_, hmem, hbase⟩)
        · exact .inl hshown
  · intro h
    refine ⟨fun before after hshown _ => h.mp (.inl ⟨before, after, hshown⟩),
      fun hbegins => h.mpr (.inl hbegins), fun m hm heq => ?_, fun hmem => ?_⟩
    · rcases h.mp (.inr (hlisted.mpr ⟨m, hm, heq⟩)) with hbegins | hmem
      · exact .inr hbegins
      · exact .inl (eq_of_mem_allowed hm hmem)
    · rcases h.mpr (.inr hmem) with hshown | hn
      · exact .inr hshown
      · obtain ⟨m, hm, heq⟩ := hlisted.mp hn
        rw [eq_of_mem_allowed hm hmem, hbase] at heq
        exact .inl heq.symm

theorem Classified.sound {l : LetterCase} (h : s.Classified l.fold) : s.Sound l.fold := by
  rw [classified_iff_potential] at h
  have hexempt := harmless_iff_exempt l s
  have hverdict := fun leftover => potential_eq_iff.mp (h leftover)
  refine ⟨fun hn => hexempt.mp ((hverdict []).1 hn), fun n hn => ((hverdict []).2 n hn).1,
    fun n p hn hp => ?_, fun n hn hp => ⟨?_, ?_⟩⟩
  · have := ((hverdict []).2 n hn).2
    rw [isSystemProcess_of_fileName hp, shown_iff, hexempt] at this
    exact (telling_iff l (s.nul_not_mem_processName hn)).mpr this
  · -- the buffer may happen to hold the system directory
    have := ((hverdict s.getWindowsDirectory).2 n hn).2
    rw [isSystemProcess_of_none hp] at this
    exact hexempt.mp (this.mp (.inl List.infix_rfl))
  · -- or nothing at all
    have hsystem := ((hverdict s.getWindowsDirectory).2 n hn).2
    have := ((hverdict []).2 n hn).2
    rw [isSystemProcess_of_none hp] at hsystem this
    have hseen := this.mpr (hsystem.mp (.inl List.infix_rfl))
    exact hseen.imp_left List.infix_nil.mp

theorem Sound.classified {l : LetterCase} (h : s.Sound l.fold) : s.Classified l.fold := by
  rw [classified_iff_potential]
  have hexempt := harmless_iff_exempt l s
  intro leftover
  refine potential_eq_iff.mpr ⟨fun hn => hexempt.mpr (h.nameless hn),
    fun n hn => ⟨h.readable n hn, ?_⟩⟩
  cases hp : s.getModuleFileNameEx with
  | some p =>
    rw [isSystemProcess_of_fileName hp, shown_iff, hexempt]
    exact (telling_iff l (s.nul_not_mem_processName hn)).mp (h.telling n p hn hp)
  | none =>
    rw [isSystemProcess_of_none hp, hexempt]
    obtain ⟨exempt, hseen⟩ := h.pathless n hn hp
    refine iff_of_true (hseen.imp_left fun hempty => ?_) exempt
    rw [hempty]
    exact List.nil_infix

end Subject

/-- Letters of the basic alphabet. -/
def upper : LetterCase where
  fold u := if 97 ≤ u ∧ u ≤ 122 then u - 32 else u
  separator u := by
    simp only [backslash]
    split_ifs with h
    · grind
    · rfl

/-- `C:\Windows` -/
def windows : WString := [67, 58, 92, 87, 105, 110, 100, 111, 119, 115]

/-- `C:\WindowsApps\a`, with an empty list. -/
def beside : Subject where
  openProcess := 4
  enumProcessModules := true
  getModuleBaseName := some [97]
  getModuleFileNameEx := some (windows ++ [65, 112, 112, 115, 92, 97])
  leftover := []
  getWindowsDirectory := windows
  disk := fun _ => []
  virtualAllocEx := true
  createRemoteThread := 8
  image := windows ++ [65, 112, 112, 115, 92, 97]
  nul_free := by decide
  opened := by decide
  baseName_eq := by decide
  fileName_eq := by decide

end ComputerLock.Process
