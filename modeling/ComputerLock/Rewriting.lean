import ComputerLock.Rollout

/-!
# Decisions while the files are rewritten

A turn of the update loop rewrites the settings files one after the other, each by truncating it,
writing it piece by piece and closing it. Here the hooks and the checks of processes read the
files at any moment.
-/

namespace ComputerLock
open Library Common Client

/-! ## What a turn writes -/

/-- The files `ParseSettingsResponse` rewrites, in order: as many as there are elements for. -/
def writes (response : Bytes) : List (SettingsFile × Bytes) :=
  [SettingsFile.processes, .filePaths, .fileExtensions].zip
    ((split response messageParameterDelimiter).drop settingsProcessesElement)

/-- The files one turn of the loop rewrites: none when the message cannot be made or sent. -/
def cycleWrites (c : Cycle) : List (SettingsFile × Bytes) :=
  if (Request.settings c.admin c.admin').message.isOk ∧ c.result ≠ socketError then
    writes (receiveBytes c.poll)
  else []

/-- The files once all this is written. -/
def applied (todo : List (SettingsFile × Bytes)) (files : Disk) : Disk :=
  todo.foldl (fun files w => rewriteFile w.1 w.2 files) files

theorem final_parseSettingsResponse (response : Bytes) (disk : Disk) :
    Stateful.final (parseSettingsResponse response) disk = applied (writes response) disk := by
  rw [Stateful.final, parseSettingsResponse_run, writes, split_eq_fields]
  rcases Delimited.fields messageParameterDelimiter response with
    _ | ⟨l, _ | ⟨p, _ | ⟨f, _ | ⟨e, rest⟩⟩⟩⟩ <;> rfl

/-- What a turn leaves on disk is what it writes. -/
theorem final_cycle_disk_eq (c : Cycle) (l : Loop) :
    (Stateful.final (Loop.cycle c) l).disk = applied (cycleWrites c) l.disk := by
  by_cases hsend : c.result = socketError
  · rw [cycleWrites, if_neg fun h => h.2 hsend]
    exact Loop.final_cycle_disk_of_error hsend l
  · cases hm : (Request.settings c.admin c.admin').message with
    | error e =>
      have hrun : (Loop.cycle c).run l = .error e l := by
        rw [Loop.cycle, hm]
        rfl
      have hnone : cycleWrites c = [] := if_neg fun h => by
        rw [hm] at h
        cases h.1
      rw [Stateful.final, hrun, hnone]
      rfl
    | ok m =>
      obtain ⟨token, ht, hrest⟩ := Fallible.bind_eq_ok.mp hm
      obtain ⟨token', ht', -⟩ := Fallible.bind_eq_ok.mp hrest
      rw [cycleWrites, if_pos ⟨by rw [hm]; rfl, hsend⟩, receiveBytes_eq,
        Loop.final_cycle_disk_of_tokenReads hsend ⟨token, ht⟩ ⟨token', ht'⟩,
        final_parseSettingsResponse]

theorem nodup_writes (response : Bytes) : ((writes response).map Prod.fst).Nodup := by
  rw [writes]
  rcases (split response messageParameterDelimiter).drop settingsProcessesElement with
    _ | ⟨p, _ | ⟨f, _ | ⟨e, rest⟩⟩⟩ <;> simp

theorem nodup_cycleWrites (c : Cycle) : ((cycleWrites c).map Prod.fst).Nodup := by
  unfold cycleWrites
  split_ifs
  · exact nodup_writes _
  · exact List.nodup_nil

section Applied

variable {files files' : Disk} {todo : List (SettingsFile × Bytes)} {f g : SettingsFile}

theorem applied_of_not_mem (h : g ∉ todo.map Prod.fst) : applied todo files g = files g := by
  induction todo generalizing files with
  | nil => rfl
  | cons w todo ih =>
    obtain ⟨hne, hrest⟩ := List.ne_and_not_mem_of_not_mem_cons h
    exact (ih hrest).trans (rewriteFile_of_ne hne w.2 files)

/-- The first file to be rewritten may hold anything. -/
theorem applied_update (text bytes : Bytes) :
    applied ((f, text) :: todo) (Function.update files f bytes) =
      applied ((f, text) :: todo) files := by
  have hrewrite : rewriteFile f text (Function.update files f bytes) = rewriteFile f text files :=
    Function.update_idem ..
  exact congrArg (applied todo) hrewrite

theorem applied_cons_self (text : Bytes) (h : f ∉ todo.map Prod.fst) :
    applied ((f, text) :: todo) files f = CText.writeText text :=
  (applied_of_not_mem h).trans (rewriteFile_self ..)

end Applied

/-! ## Readers at any moment -/

/-- The file a ruling is made by. -/
def Ruling.file : Ruling → SettingsFile
  | .hook .. => .fileExtensions
  | .check .. => .processes

/-- The ruling is the one these bytes ask for. -/
def Ruling.By (bytes : Bytes) (ruling : Ruling) : Prop := ruling.Follows fun _ => bytes

/-- A ruling, and the text that was being stored in its file at that moment; none when the file
was closed. -/
structure Reading where
  ruling : Ruling
  storing : Option Bytes

structure Live where
  session : Session
  /-- the settings files as a reader finds them -/
  files : Disk
  /-- what the turn still has to write -/
  todo : List (SettingsFile × Bytes)
  /-- how much of the first of these has been written, once it is open -/
  written : Option ℕ
  /-- the last one first -/
  readings : List Reading

/-- A hook or a check is made where the settings files can be opened. -/
inductive Moment where
  | turn (x : Exchange)
  | openFile
  | write (n : ℕ)
  | close
  | hook (filePath : Bytes)
  | check (szProcessName : WString)

namespace Live

def start (l : Loop) : Live := ⟨Session.start l, l.disk, [], none, []⟩

/-- The text being stored in the file while it is open. -/
def storing (s : Live) (g : SettingsFile) : Option Bytes :=
  match s.written, s.todo with
  | some _, (f, text) :: _ => if f = g then some text else none
  | _, _ => none

def read (s : Live) (ruling : Ruling) : Live :=
  { s with readings := ⟨ruling, s.storing ruling.file⟩ :: s.readings }

/-- The next turn begins when everything is written. -/
def step (s : Live) : Moment → Option Live
  | .turn x =>
    if s.todo = [] then
      (s.session.step x).map fun session => { s with session, todo := cycleWrites x.cycle }
    else none
  | .openFile =>
    match s.todo, s.written with
    | (f, _) :: _, none =>
      some { s with files := Function.update s.files f [], written := some 0 }
    | _, _ => none
  | .write n =>
    match s.todo, s.written with
    | (f, text) :: _, some k =>
      if 0 < n ∧ k + n ≤ (CText.writeText text).length then
        some { s with
          files := Function.update s.files f
            (s.files f ++ ((CText.writeText text).drop k).take n)
          written := some (k + n) }
      else none
    | _, _ => none
  | .close =>
    match s.todo, s.written with
    | (_, text) :: todo, some k =>
      if k = (CText.writeText text).length then some { s with todo, written := none } else none
    | _, _ => none
  | .hook filePath =>
    some (s.read (.hook filePath (Trampoline.isImportant filePath (s.files .fileExtensions))))
  | .check szProcessName =>
    some (s.read (.check szProcessName (Process.isProcessSafe szProcessName s.files)))

/-- The polls end at the boundaries of frames. -/
def AtBoundary (s : Live) : Moment → Prop
  | .turn x => s.session.AtBoundary x
  | _ => True

/-- The reading follows what this version has in the file; if the file was open, this is the text
being stored, and the reading follows a beginning of it. -/
def Explains (disk : Disk) (sent : List Frame) (g : SettingsFile) (n : ℕ) (r : Reading) : Prop :=
  ∃ d bytes, version disk sent n = some d ∧ r.ruling.By bytes ∧
    match r.storing with
    | none => bytes = d g
    | some text => d g = CText.writeText text ∧ bytes <+: d g

/-- Each reading of the file has a version that explains it, and later readings have no earlier
versions. -/
def Ordered (disk : Disk) (g : SettingsFile) (s : Live) (versions : List ℕ) : Prop :=
  versions.Pairwise (· ≥ ·) ∧
  List.Forall₂ (Explains disk s.session.sent g) versions
    (s.readings.filter (·.ruling.file = g))

/-- The loop is at version `n`, and the file at `v`: the one before until it is opened. -/
structure Upto (disk : Disk) (g : SettingsFile) (n v : ℕ) (s : Live) : Prop where
  current : s.session.Current disk n
  le : v ≤ n
  settled : applied s.todo s.files = s.session.loop.disk
  nodup : (s.todo.map Prod.fst).Nodup
  partly : ∀ k, s.written = some k → ∃ f text todo, s.todo = (f, text) :: todo ∧
    s.files f = (CText.writeText text).take k
  behind : g ∈ s.todo.map Prod.fst → s.storing g = none →
    ∃ d, version disk s.session.sent v = some d ∧ s.files g = d g
  ahead : g ∉ s.todo.map Prod.fst ∨ s.storing g ≠ none → v = n
  ordered : ∃ versions, (∀ u ∈ versions, u ≤ v) ∧ s.Ordered disk g versions

section Steps

variable {disk d d' : Disk} {f g : SettingsFile} {n v : ℕ} {s s' : Live} {ruling : Ruling}

theorem storing_eq_some_iff {text : Bytes} : s.storing g = some text ↔
    ∃ k todo, s.written = some k ∧ s.todo = (g, text) :: todo := by
  unfold storing
  split
  next k f text' todo hk htodo =>
    rw [Option.ite_none_right_eq_some]
    constructor
    · rintro ⟨rfl, htext⟩
      obtain rfl := Option.some.inj htext
      exact ⟨k, todo, hk, htodo⟩
    · rintro ⟨k', todo', _, htodo'⟩
      cases htodo.symm.trans htodo'
      exact ⟨rfl, rfl⟩
  next hclosed =>
    constructor
    · intro hnone
      cases hnone
    · rintro ⟨k, todo, hk, htodo⟩
      exact (hclosed k g text todo hk htodo).elim

theorem exists_storing (h : s.storing g ≠ none) :
    ∃ text k todo, s.storing g = some text ∧ s.written = some k ∧ s.todo = (g, text) :: todo := by
  obtain ⟨text, htext⟩ := Option.ne_none_iff_exists'.mp h
  obtain ⟨k, todo, hk, htodo⟩ := storing_eq_some_iff.mp htext
  exact ⟨text, k, todo, htext, hk, htodo⟩

theorem storing_of_head {text : Bytes} {todo : List (SettingsFile × Bytes)}
    (h : s.todo = (f, text) :: todo) (hne : g ≠ f) : s.storing g = none := by
  by_contra hopen
  obtain ⟨text', k, todo', _, _, htodo⟩ := exists_storing hopen
  cases h.symm.trans htodo
  exact hne rfl

theorem follows_iff_by (disk : Disk) (ruling : Ruling) :
    ruling.Follows disk ↔ ruling.By (disk ruling.file) := by
  cases ruling <;> exact Iff.rfl

theorem upto_start (l : Loop) (g : SettingsFile) : (start l).Upto l.disk g 0 0 where
  current := Session.current_start l
  le := le_rfl
  settled := rfl
  nodup := List.nodup_nil
  partly _ hopen := by cases hopen
  behind hmem := absurd hmem List.not_mem_nil
  ahead _ := rfl
  ordered := ⟨[], by simp, List.Pairwise.nil, .nil⟩

/-- What is in the file once the turn is over. -/
theorem Upto.exists_new (h : s.Upto disk g n v) (hg : g ≠ .admin) :
    ∃ d, version disk s.session.sent n = some d ∧ applied s.todo s.files g = d g := by
  obtain ⟨d, hversion, hsame⟩ := h.current.holds
  exact ⟨d, hversion, by rw [h.settled, hsame.eq hg]⟩

/-- Whatever is decided by the file is explained by its version. -/
theorem Upto.explains (h : s.Upto disk g n v) (hg : g ≠ .admin) (hby : ruling.By (s.files g)) :
    Explains disk s.session.sent g v ⟨ruling, s.storing g⟩ := by
  unfold Explains
  cases hstoring : s.storing g with
  | some text =>
    obtain ⟨k, todo, hk, htodo⟩ := storing_eq_some_iff.mp hstoring
    obtain ⟨d, hversion, hnew⟩ := h.exists_new hg
    obtain ⟨f', text', todo', htodo', hpartly⟩ := h.partly k hk
    obtain ⟨⟨rfl, rfl⟩, rfl⟩ : (f' = g ∧ text' = text) ∧ todo' = todo := by
      simpa [htodo, eq_comm] using htodo'
    have hnodup := h.nodup
    rw [htodo, List.map_cons, List.nodup_cons] at hnodup
    rw [htodo, applied_cons_self _ hnodup.1] at hnew
    rw [h.ahead (.inr (by simp [hstoring]))]
    refine ⟨d, _, hversion, hby, hnew.symm, ?_⟩
    rw [hpartly, ← hnew]
    exact List.take_prefix _ _
  | none =>
    by_cases hmem : g ∈ s.todo.map Prod.fst
    · obtain ⟨d, hversion, hold⟩ := h.behind hmem hstoring
      exact ⟨d, _, hversion, hby, hold⟩
    · obtain ⟨d, hversion, hnew⟩ := h.exists_new hg
      rw [applied_of_not_mem hmem] at hnew
      rw [h.ahead (.inl hmem)]
      exact ⟨d, _, hversion, hby, hnew⟩

/-- A reading is explained if it is of this file, and does not matter otherwise. -/
theorem Upto.read (h : s.Upto disk g n v) (hg : g ≠ .admin)
    (hruling : ruling.Follows s.files) : (s.read ruling).Upto disk g n v where
  current := h.current
  le := h.le
  settled := h.settled
  nodup := h.nodup
  partly := h.partly
  behind := h.behind
  ahead := h.ahead
  ordered := by
    obtain ⟨versions, hle, hpairwise, hexplained⟩ := h.ordered
    unfold Ordered Live.read
    by_cases hfile : ruling.file = g
    · have hby : ruling.By (s.files g) := hfile ▸ (follows_iff_by s.files ruling).mp hruling
      refine ⟨v :: versions, List.forall_mem_cons.mpr ⟨le_rfl, hle⟩,
        List.pairwise_cons.mpr ⟨hle, hpairwise⟩, ?_⟩
      rw [List.filter_cons_of_pos (by simpa using hfile), hfile]
      exact .cons (h.explains hg hby) hexplained
    · refine ⟨versions, hle, hpairwise, ?_⟩
      rwa [List.filter_cons_of_neg (by simpa using hfile)]

theorem Ordered.append {versions : List ℕ} (h : s.Ordered disk g versions) (more : List Frame)
    (hsent : s'.session.sent = s.session.sent ++ more) (hreadings : s'.readings = s.readings) :
    s'.Ordered disk g versions := by
  obtain ⟨hpairwise, hexplained⟩ := h
  rw [Ordered, hsent, hreadings]
  refine ⟨hpairwise, hexplained.imp ?_⟩
  intro _ _ ⟨d, bytes, hversion, hrest⟩
  exact ⟨d, bytes, version_append hversion more, hrest⟩

/-- A turn begins once everything has been written; the files it will rewrite stay behind. -/
theorem Upto.turn {x : Exchange} (h : s.Upto disk g n v) (hg : g ≠ .admin)
    (boundary : s.AtBoundary (.turn x))
    (hstep : s.step (.turn x) = some s') : ∃ n' v', s'.Upto disk g n' v' := by
  obtain ⟨hidle, hmap⟩ := Option.ite_none_right_eq_some.mp hstep
  obtain ⟨session, hsession, rfl⟩ := Option.map_eq_some_iff.mp hmap
  obtain ⟨n', hle, hcurrent⟩ := h.current.step boundary hsession
  obtain ⟨hloop, hsent, -, -⟩ := Session.step_cases hsession
  obtain ⟨versions, hbound, hordered⟩ := h.ordered
  have hdisk : s.files = s.session.loop.disk := by
    rw [← h.settled, hidle]
    rfl
  have hclosed : s.written = none := by
    by_contra hopen
    obtain ⟨k, hk⟩ := Option.ne_none_iff_exists'.mp hopen
    obtain ⟨f, text, todo, htodo, -⟩ := h.partly k hk
    rw [hidle] at htodo
    cases htodo
  obtain rfl : v = n := h.ahead (.inl (by simp [hidle]))
  have hsettled : applied (cycleWrites x.cycle) s.files = session.loop.disk := by
    rw [hloop, final_cycle_disk_eq, hdisk]
  have hnodup := nodup_cycleWrites x.cycle
  show ∃ n' v', Upto disk g n' v'
    ⟨session, s.files, cycleWrites x.cycle, s.written, s.readings⟩
  generalize cycleWrites x.cycle = todo at hsettled hnodup
  have hpartly : ∀ k, s.written = some k → ∃ f text rest, todo = (f, text) :: rest ∧
      s.files f = (CText.writeText text).take k := by
    intro k hk
    rw [hclosed] at hk
    cases hk
  have hlater : Ordered disk g ⟨session, s.files, todo, s.written, s.readings⟩ versions :=
    hordered.append x.frames hsent rfl
  by_cases hmem : g ∈ todo.map Prod.fst
  · refine ⟨n', v, hcurrent, hle, hsettled, hnodup, hpartly, ?_, ?_, versions, hbound, hlater⟩
    · intro _ _
      obtain ⟨d, hversion, hsame⟩ := h.current.holds
      rw [← hdisk] at hsame
      refine ⟨d, ?_, hsame.eq hg⟩
      rw [hsent]
      exact version_append hversion _
    · rintro (hout | hopen)
      · exact absurd hmem hout
      · obtain ⟨text', k, todo', _, hk, _⟩ := exists_storing hopen
        cases hclosed.symm.trans hk
  · exact ⟨n', n', hcurrent, le_rfl, hsettled, hnodup, hpartly, fun hin => absurd hin hmem,
      fun _ => rfl, versions, fun u hu => (hbound u hu).trans hle, hlater⟩

/-- The open file is written further; from now on it is at the new version. -/
theorem Upto.fill {text : Bytes} {todo : List (SettingsFile × Bytes)} {k : ℕ}
    (h : s.Upto disk g n v) (htodo : s.todo = (f, text) :: todo) :
    ∃ v', Upto disk g n v' { s with
      files := Function.update s.files f ((CText.writeText text).take k), written := some k } := by
  obtain ⟨versions, hbound, hordered⟩ := h.ordered
  have hsettled : applied s.todo (Function.update s.files f ((CText.writeText text).take k)) =
      s.session.loop.disk := by
    rw [htodo, applied_update, ← htodo, h.settled]
  have hpartly : ∀ j, some k = some j → ∃ f' text' todo', s.todo = (f', text') :: todo' ∧
      Function.update s.files f ((CText.writeText text).take k) f' =
        (CText.writeText text').take j := by
    intro j hj
    obtain rfl := Option.some.inj hj
    exact ⟨f, text, todo, htodo, Function.update_self ..⟩
  by_cases hfile : g = f
  · have hopen : storing { s with
        files := Function.update s.files f ((CText.writeText text).take k), written := some k }
        g = some text :=
      storing_eq_some_iff.mpr ⟨k, todo, rfl, hfile ▸ htodo⟩
    refine ⟨n, h.current, le_rfl, hsettled, h.nodup, hpartly, ?_, fun _ => rfl, versions,
      fun u hu => (hbound u hu).trans h.le, hordered⟩
    intro _ hclosed
    rw [hopen] at hclosed
    cases hclosed
  · refine ⟨v, h.current, h.le, hsettled, h.nodup, hpartly, ?_, ?_, versions, hbound, hordered⟩
    · intro hmem _
      obtain ⟨d, hversion, hold⟩ := h.behind hmem (storing_of_head htodo hfile)
      exact ⟨d, hversion, (Function.update_of_ne hfile ..).trans hold⟩
    · rintro (hout | hopen)
      · exact h.ahead (.inl hout)
      · obtain ⟨text', j, todo', hstoring, _, htodo'⟩ := exists_storing hopen
        cases htodo.symm.trans htodo'
        exact absurd rfl hfile

/-- The open file is complete; it was at the new version already. -/
theorem Upto.close {text : Bytes} {todo : List (SettingsFile × Bytes)}
    (h : s.Upto disk g n v) (htodo : s.todo = (f, text) :: todo)
    (hwritten : s.written = some (CText.writeText text).length) :
    Upto disk g n v { s with todo := todo, written := none } := by
  obtain ⟨versions, hbound, hordered⟩ := h.ordered
  have hnodup := h.nodup
  rw [htodo, List.map_cons, List.nodup_cons] at hnodup
  have hsettled : applied todo s.files = s.session.loop.disk := by
    rw [← h.settled, htodo]
    obtain ⟨f', text', todo', htodo', hpartly⟩ := h.partly _ hwritten
    cases htodo.symm.trans htodo'
    rw [List.take_length] at hpartly
    have hsame : rewriteFile f text s.files = s.files := by
      rw [rewriteFile, ← hpartly, Function.update_eq_self]
    exact congrArg (applied todo) hsame.symm
  refine ⟨h.current, h.le, hsettled, hnodup.2, fun _ hopen => (by cases hopen), ?_, ?_,
    versions, hbound, hordered⟩
  · intro hmem _
    have hfile : g ≠ f := fun heq => hnodup.1 (heq ▸ hmem)
    apply h.behind _ (storing_of_head htodo hfile)
    rw [htodo]
    exact List.mem_cons_of_mem _ hmem
  · rintro (hout | hopen)
    · by_cases hfile : g = f
      · have hopen := storing_eq_some_iff.mpr ⟨_, todo, hwritten, hfile ▸ htodo⟩
        exact h.ahead (.inr (Option.ne_none_iff_exists'.mpr ⟨text, hopen⟩))
      · apply h.ahead
        rw [htodo]
        exact .inl (List.not_mem_cons_of_ne_of_not_mem hfile hout)
    · obtain ⟨text', k, todo', _, hk, _⟩ := exists_storing hopen
      cases hk

theorem step_upto {a : Moment} (h : s.Upto disk g n v) (hg : g ≠ .admin)
    (boundary : s.AtBoundary a) (hstep : s.step a = some s') :
    ∃ n' v', s'.Upto disk g n' v' := by
  cases a with
  | turn x => exact h.turn hg boundary hstep
  | openFile =>
    simp only [step] at hstep
    split at hstep
    next f text todo htodo hclosed =>
      obtain rfl := Option.some.inj hstep
      exact ⟨n, h.fill htodo (k := 0)⟩
    next => cases hstep
  | write m =>
    simp only [step] at hstep
    split at hstep
    next f text todo k htodo hopen =>
      obtain ⟨-, rfl⟩ := Runs.guarded_eq_some.mp hstep
      obtain ⟨f', text', todo', htodo', hpartly⟩ := h.partly k hopen
      cases htodo.symm.trans htodo'
      rw [hpartly, ← List.take_add]
      exact ⟨n, h.fill htodo⟩
    next => cases hstep
  | close =>
    simp only [step] at hstep
    split at hstep
    next f text todo k htodo hopen =>
      obtain ⟨rfl, rfl⟩ := Runs.guarded_eq_some.mp hstep
      exact ⟨n, v, h.close htodo hopen⟩
    next => cases hstep
  | hook filePath =>
    obtain rfl := Option.some.inj hstep
    exact ⟨n, v, h.read hg rfl⟩
  | check szProcessName =>
    obtain rfl := Option.some.inj hstep
    exact ⟨n, v, h.read hg rfl⟩

end Steps

theorem exists_upto {l : Loop} {s : Live} {g : SettingsFile} (hg : g ≠ .admin)
    (h : Runs.Reaches step AtBoundary (start l) s) : ∃ n v, s.Upto l.disk g n v := by
  apply h.invariant (P := fun s => ∃ n v, s.Upto l.disk g n v)
  · intro _ _ _ ⟨n, v, hupto⟩ boundary hstep
    exact step_upto hupto hg boundary hstep
  · exact ⟨0, 0, upto_start l g⟩

/-- In every interleaving of the turns, of the writing of each file piece by piece and of readers:
what is decided by a file while it is closed follows one frame of the server, or the file as it
was, what is decided while it is open follows a beginning of the frame being stored, and no
decision by the same file follows an earlier frame than one before it. -/
theorem reaches_explained {l : Loop} {s : Live} {g : SettingsFile} (hg : g ≠ .admin)
    (h : Runs.Reaches step AtBoundary (start l) s) :
    ∃ versions, s.Ordered l.disk g versions := by
  obtain ⟨n, v, hupto⟩ := exists_upto hg h
  obtain ⟨versions, -, hordered⟩ := hupto.ordered
  exact ⟨versions, hordered⟩

/-- The frame `1:a:b:cd` has come, and nothing of it is written yet. -/
theorem reaches_begun : ∃ session : Session, session.sent = [Session.frame] ∧
    Runs.Reaches step AtBoundary (start Loop.opened) ⟨session, fun _ => [],
      [(.processes, [97]), (.filePaths, [98]), (.fileExtensions, [99, 100])], none, []⟩ := by
  have hne : Session.frame.bytes ≠ [] := by decide
  have hle : Session.frame.bytes.length ≤ bufLength := by decide
  obtain ⟨session, hsession, hsent, -⟩ := Session.step_firstExchange hne hle List.prefix_rfl
  have hwrites : cycleWrites (Session.firstExchange Session.frame.bytes hne hle).cycle =
      [(.processes, [97]), (.filePaths, [98]), (.fileExtensions, [99, 100])] := by
    have hmessage : (Request.settings (adminFile []) (adminFile [])).message.isOk = true := by
      rw [Request.message_settings retrieveToken_shipped retrieveToken_shipped]
      rfl
    have hsend : (24 : ℤ) ≠ socketError := by decide
    refine (if_pos ⟨hmessage, hsend⟩).trans ?_
    rw [receiveBytes_eq]
    exact (congrArg writes (took_once _ hne hle)).trans (by decide)
  have begun : step (start Loop.opened)
      (.turn (Session.firstExchange Session.frame.bytes hne hle)) = some ⟨session, fun _ => [],
        [(.processes, [97]), (.filePaths, [98]), (.fileExtensions, [99, 100])], none, []⟩ := by
    rw [step, if_pos (show (start Loop.opened).todo = [] from rfl), ← hwrites]
    exact congrArg (Option.map _) hsession
  have boundary : (start Loop.opened).AtBoundary
      (.turn (Session.firstExchange Session.frame.bytes hne hle)) :=
    fun _ => .inr ⟨[], Session.frame, [], rfl, rfl, congrArg _ (took_once _ hne hle)⟩
  exact ⟨session, hsent, Runs.Reaches.refl.tail boundary begun⟩

/-- The file of processes has just been truncated: a check of `a` finds nothing there. -/
theorem reaches_explained_truncated : ∃ s : Live,
    s.readings = [⟨.check [97] (.ok false), some [97]⟩] ∧
    ∃ versions, s.Ordered Loop.opened.disk .processes versions := by
  obtain ⟨session, -, begun⟩ := reaches_begun
  have opened := begun.tail (a := Moment.openFile) trivial rfl
  have run := opened.tail (a := Moment.check [97]) trivial rfl
  exact ⟨_, rfl, reaches_explained (by decide) run⟩

/-! ## What the administrator gets -/

/-- The verdict for a file is the one the text asks for, wherever the text asks for one. -/
def Enforces (fold : Char → Char) (t p : List Char) (important : Bool) : Prop :=
  ((∃ e ∈ Trampoline.entries t, e <:+ p) → important = true) ∧
  ((∀ e ∈ Trampoline.entries t, ¬ Trampoline.MatchesIgnoring fold e p) → important = false)

theorem exists_of_forall₂ {α β : Type*} {R : α → β → Prop} {as : List α} {bs : List β} {b : β}
    (h : List.Forall₂ R as bs) (hb : b ∈ bs) : ∃ a, R a b := by
  induction h with
  | nil => cases hb
  | cons hfirst _ ih =>
    rcases List.mem_cons.mp hb with rfl | hb
    · exact ⟨_, hfirst⟩
    · exact ih hb

theorem Upto.exists_version {disk : Disk} {g : SettingsFile} {n v : ℕ} {s : Live} {r : Reading}
    (h : s.Upto disk g n v) (hr : r ∈ s.readings) (hfile : r.ruling.file = g) :
    ∃ u, Explains disk s.session.sent g u r := by
  obtain ⟨versions, -, -, hexplained⟩ := h.ordered
  exact exists_of_forall₂ hexplained (by simp [hr, hfile])

/-- As long as the server sends extensions that the hook can tell apart, each verdict of a hook that
finds the file closed is the one the administrator has asked for in a frame, or in the file as
it was. -/
theorem reaches_enforced {l : Loop} {s : Live} (fold : Char → Char)
    (h : Runs.Reaches step AtBoundary (start l) s)
    (hvisible : ∀ f ∈ s.session.sent, ∃ t, f.fileExtensions = Utf8.encode t ∧
      Trampoline.Visible fold t) {p : List Char} (hnul : Trampoline.nul ∉ p) {important : Bool}
    (hr : ⟨.hook (Utf8.encode p) important, none⟩ ∈ s.readings) :
    important = Trampoline.isImportant (Utf8.encode p) (l.disk .fileExtensions) ∨
      ∃ f ∈ s.session.sent, ∃ t, f.fileExtensions = Utf8.encode t ∧
        Enforces fold t p important := by
  obtain ⟨n, v, hupto⟩ := exists_upto (g := .fileExtensions) (by decide) h
  obtain ⟨u, d, bytes, hversion, hby, hwhole⟩ := hupto.exists_version hr rfl
  have hverdict : important = Trampoline.isImportant (Utf8.encode p) (d .fileExtensions) :=
    hby.trans (by rw [hwhole])
  cases u with
  | zero =>
    obtain rfl := Option.some.inj hversion
    exact .inl hverdict
  | succ k =>
    obtain ⟨f, hf, rfl⟩ := Option.map_eq_some_iff.mp hversion
    have hsent : f ∈ s.session.sent := List.mem_of_getElem? hf
    obtain ⟨t, htext, hseen⟩ := hvisible f hsent
    rw [storeSettings_fileExtensions, htext] at hverdict
    refine .inr ⟨f, hsent, t, htext, ?_, ?_⟩
    · intro hentry
      exact hverdict.trans (hseen.enforced.blocked p hnul hentry)
    · intro hnone
      exact hverdict.trans (hseen.enforced.passed p hnul hnone)

/-- All three files are written, and `cd` is blocked. -/
theorem reaches_enforced_whole : ∃ s : Live,
    s.readings = [⟨.hook (Utf8.encode ['c', 'd']) true, none⟩] ∧
    (true = Trampoline.isImportant (Utf8.encode ['c', 'd']) (Loop.opened.disk .fileExtensions) ∨
      ∃ f ∈ s.session.sent, ∃ t, f.fileExtensions = Utf8.encode t ∧
        Enforces id t ['c', 'd'] true) := by
  obtain ⟨session, hsent, begun⟩ := reaches_begun
  have moved : ∀ session, Runs.run step ⟨session, fun _ => [],
      [(.processes, [97]), (.filePaths, [98]), (.fileExtensions, [99, 100])], none, []⟩
      [.openFile, .write 1, .close, .openFile, .write 1, .close, .openFile, .write 2, .close,
        .hook [99, 100]] = some _ := fun _ => rfl
  have written : Runs.Reaches step AtBoundary _ _ :=
    Runs.reaches_of_run (moved session) (by simp [AtBoundary])
  refine ⟨_, ?_, reaches_enforced id (begun.trans written) ?_ (by decide) ?_⟩
  · rfl
  · intro f hf
    obtain rfl := List.mem_singleton.mp (hsent ▸ hf)
    exact ⟨['c', 'd'], rfl, (Trampoline.visible_iff_of_fits id (by decide) (by decide)).mpr
      (by decide)⟩
  · exact List.mem_singleton_self _

end Live

end ComputerLock
