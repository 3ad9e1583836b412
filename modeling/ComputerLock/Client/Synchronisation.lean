import ComputerLock.Library.Runs
import ComputerLock.Client.UpdateLoop

/-!
# Synchronising the settings

The update loop and the server joined by a TCP connection. The server answers each request
with one frame; its bytes arrive in order, but a poll takes as many of them as happen to
have arrived. A new connection drops what the old one still had to deliver.
-/

namespace ComputerLock.Client
open Library Common

/-- A response as the server sends it. -/
structure Frame extends Response where
  decodable : toResponse.Decodable
  length_ne_nil : length ≠ []
  processes_ne_nil : processes ≠ []
  filePaths_ne_nil : filePaths ≠ []

def Frame.bytes (f : Frame) : Bytes := f.toResponse.bytes

structure Session where
  loop : Loop
  /-- every frame the server has sent -/
  sent : List Frame
  /-- the frames sent on this connection -/
  connection : List Frame
  /-- how many of their bytes have been taken -/
  position : ℕ
  /-- the requests of this connection that are not answered -/
  unanswered : ℕ
  /-- an exception has left the loop -/
  ended : Bool

/-- One turn of the loop, and the frames the server sends before the turn is over. -/
structure Exchange where
  cycle : Cycle
  frames : List Frame

namespace Session

/-- The bytes of the connection that are still to be taken. -/
def stream (s : Session) (frames : List Frame) : Bytes :=
  ((s.connection ++ frames).flatMap Frame.bytes).drop s.position

/-- The loop has run its turn, and the server has sent its frames. -/
def exchanged (s : Session) (x : Exchange) : Session :=
  { s with
    loop := Stateful.final (Loop.cycle x.cycle) s.loop
    ended := Stateful.failed (Loop.cycle x.cycle) s.loop
    sent := s.sent ++ x.frames }

def step (s : Session) (x : Exchange) : Option Session :=
  if s.ended then none
  else if x.cycle.result = socketError then
    if x.frames.length ≤ s.unanswered then
      some { s.exchanged x with connection := [], position := 0, unanswered := 0 }
    else none
  else if x.frames.length ≤ s.unanswered + 1 ∧
      took x.cycle.poll.turns <+: s.stream x.frames then
    some { s.exchanged x with
      connection := s.connection ++ x.frames
      position := s.position + (took x.cycle.poll.turns).length
      unanswered := s.unanswered + 1 - x.frames.length }
  else none

/-- The loop starts on a new connection. -/
def start (l : Loop) : Session where
  loop := l
  sent := []
  connection := []
  position := 0
  unanswered := 0
  ended := false

/-- The poll takes nothing, or it begins and ends at the boundaries of one frame. -/
def AtBoundary (s : Session) (x : Exchange) : Prop :=
  x.cycle.result ≠ socketError →
    took x.cycle.poll.turns = [] ∨
    ∃ before f after, s.connection ++ x.frames = before ++ f :: after ∧
      s.position = (before.flatMap Frame.bytes).length ∧
      (took x.cycle.poll.turns).length = f.bytes.length

/-- The settings files are as they were on `disk`. -/
def Unchanged (disk : Disk) (s : Session) : Prop :=
  s.loop.disk .processes = disk .processes ∧ s.loop.disk .filePaths = disk .filePaths ∧
  s.loop.disk .fileExtensions = disk .fileExtensions

/-- The settings files hold the fields of one frame, or what they held before the run. -/
def Synchronised (disk : Disk) (s : Session) : Prop :=
  s.Unchanged disk ∨ ∃ f ∈ s.sent, f.StoredOn s.loop.disk

/-! ## Each turn keeps the files synchronised -/

/-- As many bytes as the next frame has, taken from its beginning, are the frame. -/
theorem taken_eq_bytes {taken : Bytes} {before after : List Frame} {f : Frame}
    (h : taken <+: ((before ++ f :: after).flatMap Frame.bytes).drop
      (before.flatMap Frame.bytes).length)
    (hlen : taken.length = f.bytes.length) : taken = f.bytes := by
  rw [List.flatMap_append, List.drop_left, List.flatMap_cons] at h
  exact (List.prefix_of_prefix_length_le h (List.prefix_append _ _) hlen.le).eq_of_length hlen

theorem storedOn_of_taken {f : Frame} {taken : Bytes} (h : taken = f.bytes) (disk : Disk) :
    f.StoredOn (Stateful.final (parseSettingsResponse taken) disk) := by
  rw [h, Frame.bytes, Stateful.final, Response.parseSettingsResponse_bytes f.decodable]
  exact (Response.storedOn_storeSettings ..).mpr ⟨rfl, rfl, rfl⟩

theorem exists_step_of_poll {s : Session} {x : Exchange} (running : s.ended = false)
    (hsend : x.cycle.result ≠ socketError) (hanswers : x.frames.length ≤ s.unanswered + 1)
    (htaken : took x.cycle.poll.turns <+: s.stream x.frames) : ∃ s', s.step x = some s' := by
  rw [step, if_neg (by simp [running]), if_neg hsend, if_pos ⟨hanswers, htaken⟩]
  exact ⟨_, rfl⟩

/-- What a step does, in either branch. -/
theorem step_cases {s s' : Session} {x : Exchange} (h : s.step x = some s') :
    s'.loop = Stateful.final (Loop.cycle x.cycle) s.loop ∧ s'.sent = s.sent ++ x.frames ∧
    (∀ f ∈ s'.connection, f ∈ s.connection ++ x.frames) ∧
    (x.cycle.result ≠ socketError → took x.cycle.poll.turns <+: s.stream x.frames) := by
  unfold step at h
  split_ifs at h with hended hsend hanswers htaken
  all_goals
    obtain rfl := Option.some.inj h
    simp only [exchanged, true_and]
  · exact ⟨by simp, fun hne => absurd hsend hne⟩
  · exact ⟨fun f hf => hf, fun _ => htaken.2⟩

/-- The frames of the connection are among those sent. -/
def Consistent (disk : Disk) (s : Session) : Prop :=
  s.Synchronised disk ∧ ∀ f ∈ s.connection, f ∈ s.sent

theorem step_consistent {disk : Disk} {s s' : Session} {x : Exchange} (h : s.Consistent disk)
    (boundary : s.AtBoundary x) (hstep : s.step x = some s') : s'.Consistent disk := by
  obtain ⟨hloop, hsent, hconnection, htaken⟩ := step_cases hstep
  have hfrom : ∀ f ∈ s.connection ++ x.frames, f ∈ s'.sent := by
    intro f hf
    rw [hsent]
    exact (List.mem_append.mp hf).elim (fun hf => List.mem_append_left _ (h.2 f hf))
      (List.mem_append_right _)
  refine ⟨?_, fun f hf => hfrom f (hconnection f hf)⟩
  have hkept : s'.loop.disk = s.loop.disk → s'.Synchronised disk := by
    intro hdisk
    rw [Synchronised, Unchanged, hdisk]
    exact h.1.imp_right fun ⟨f, hf, hstored⟩ =>
      ⟨f, hsent ▸ List.mem_append_left _ hf, hstored⟩
  by_cases hsend : x.cycle.result = socketError
  · exact hkept (by rw [hloop, Loop.final_cycle_disk_of_error hsend])
  · rcases Loop.final_cycle_disk x.cycle s.loop with hdisk | hdisk
    · exact hkept (by rw [hloop, hdisk])
    · rcases boundary hsend with hnil | ⟨before, f, after, hframes, hposition, hlen⟩
      · apply hkept
        rw [hloop, hdisk, hnil, Stateful.final, parseSettingsResponse_nil]
      · have htook := htaken hsend
        rw [stream, hframes, hposition] at htook
        have hmem : f ∈ s'.sent := hfrom f (by simp [hframes])
        refine .inr ⟨f, hmem, ?_⟩
        rw [hloop, hdisk]
        exact storedOn_of_taken (taken_eq_bytes htook hlen) _

/-- In every run whose polls end at frame boundaries the files stay synchronised. -/
theorem reaches_synchronised {l : Loop} {s : Session}
    (h : Runs.Reaches step AtBoundary (start l) s) : s.Synchronised l.disk :=
  (h.invariant (P := Consistent l.disk)
    (fun _ _ _ hs boundary hstep => step_consistent hs boundary hstep)
    ⟨.inl ⟨rfl, rfl, rfl⟩, by simp [start]⟩).1

/-- The frame `1:a:b:cd`. -/
def frame : Frame where
  length := [49]
  processes := [97]
  filePaths := [98]
  fileExtensions := [99, 100]
  length_free := by decide
  decodable := ⟨by decide, by decide, by decide, by decide⟩
  length_ne_nil := by decide
  processes_ne_nil := by decide
  filePaths_ne_nil := by decide

/-- The server answers the first request, and the poll takes the given part of the answer. -/
def firstExchange (b : Bytes) (hne : b ≠ []) (hle : b.length ≤ bufLength) : Exchange where
  cycle := Loop.shippedCycle 24 true (.once b hne hle)
  frames := [frame]

theorem step_firstExchange {b : Bytes} (hne : b ≠ []) (hle : b.length ≤ bufLength)
    (h : b <+: frame.bytes) :
    ∃ s, (start Loop.opened).step (firstExchange b hne hle) = some s ∧ s.sent = [frame] ∧
      s.loop.disk = Stateful.final (parseSettingsResponse b) Loop.opened.disk := by
  have hsend : (firstExchange b hne hle).cycle.result ≠ socketError :=
    show (24 : ℤ) ≠ -1 by decide
  have shipped : TokenReads (adminFile []) := ⟨_, retrieveToken_shipped⟩
  have htook : took (firstExchange b hne hle).cycle.poll.turns = b := took_once b hne hle
  have hstream : took (firstExchange b hne hle).cycle.poll.turns <+:
      (start Loop.opened).stream (firstExchange b hne hle).frames := by
    rw [htook]
    simpa [stream, start, firstExchange] using h
  obtain ⟨s, hstep⟩ := exists_step_of_poll rfl hsend le_rfl hstream
  obtain ⟨hloop, hsent, -, -⟩ := step_cases hstep
  refine ⟨s, hstep, hsent, ?_⟩
  have hdisk := Loop.final_cycle_disk_of_tokenReads hsend shipped shipped Loop.opened
  rw [htook] at hdisk
  exact (congrArg Loop.disk hloop).trans hdisk

/-- A frame that arrives whole is stored. -/
theorem reaches_synchronised_whole :
    ∃ s, Runs.Reaches step AtBoundary (start Loop.opened) s ∧ s.sent = [frame] ∧
      s.Synchronised Loop.opened.disk := by
  have hne : frame.bytes ≠ [] := by decide
  have hle : frame.bytes.length ≤ bufLength := by decide
  obtain ⟨s, hstep, hsent, -⟩ := step_firstExchange hne hle List.prefix_rfl
  have boundary : (start Loop.opened).AtBoundary (firstExchange frame.bytes hne hle) :=
    fun _ => .inr ⟨[], frame, [], rfl, rfl, congrArg _ (took_once _ hne hle)⟩
  have run := Runs.Reaches.refl.tail boundary hstep
  exact ⟨s, run, hsent, reaches_synchronised run⟩

/-- When all but the last byte of the frame has arrived, a truncated field is stored. -/
theorem not_always_synchronised :
    ¬ ∀ l s, Runs.Reaches step (fun _ _ => True) (start l) s → s.Synchronised l.disk := by
  intro h
  have hne : frame.bytes.dropLast ≠ [] := by decide
  have hle : frame.bytes.dropLast.length ≤ bufLength := by decide
  obtain ⟨s, hstep, hsent, hdisk⟩ := step_firstExchange hne hle (List.dropLast_prefix _)
  have hstored : s.loop.disk = storeSettings [97] [98] [99] Loop.opened.disk := by
    rw [hdisk, Stateful.final, parseSettingsResponse_run]
    rfl
  rcases h _ s (Runs.Reaches.refl.tail trivial hstep) with ⟨hsame, -⟩ | ⟨f, hf, hfields⟩
  · rw [hstored] at hsame
    exact absurd hsame (by decide)
  · obtain rfl := List.mem_singleton.mp (hsent ▸ hf)
    rw [hstored] at hfields
    exact absurd ((Response.storedOn_storeSettings ..).mp hfields).2.2 (by decide)

end Session

end ComputerLock.Client
