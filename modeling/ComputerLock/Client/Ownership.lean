import ComputerLock.Client.Socket

/-!
# Who owns a socket

The counters, the library's start-ups and the handles move together as long as no
constructor fails half way, no object is assigned to, and no shared socket is replaced.
-/

namespace ComputerLock.Client
open Library Common

namespace World

/-- Some live object holds the handle. -/
def Holds (w : World) (h : ℕ) : Prop := h ∈ w.objects.map Wrapper.sock

instance (w : World) (h : ℕ) : Decidable (w.Holds h) := inferInstanceAs (Decidable (_ ∈ _))

/-- What the counters and the library promise about the live objects. -/
structure Ownership (w : World) : Prop where
  live : w.nofSockets = w.objects.length
  counted : ∀ c, w.counters c = w.objects.countP (·.refCounter = c)
  started : w.winsock.startups = w.winsock.cleanups + if 0 < w.nofSockets then 1 else 0
  held_open : ∀ o ∈ w.objects, o.sock ≠ invalidSocket → (w.winsock.handles o.sock).isSome
  closed_once : ∀ h, h ≠ invalidSocket →
    w.winsock.opened.count h = w.winsock.closed.count h + if w.Holds h then 1 else 0

/-- Objects share a socket exactly when they share a counter. -/
structure Shared (w : World) : Prop where
  same_sock : ∀ o ∈ w.objects, ∀ p ∈ w.objects, o.refCounter = p.refCounter → o.sock = p.sock
  same_counter : ∀ o ∈ w.objects, ∀ p ∈ w.objects, o.sock ≠ invalidSocket → o.sock = p.sock →
    o.refCounter = p.refCounter

/-- No constructor fails half way, nothing is assigned to, and a socket is replaced only by
its only owner, or by itself. -/
def Safe (w : World) : Op → Prop
  | .construct startup created _ =>
    w.nofSockets = 0 ∧ startup = false ∨ created ≠ invalidSocket
  | .client startup created _ found =>
    w.nofSockets = 0 ∧ startup = false ∨ created ≠ invalidSocket ∧ found = true
  | .copy _ => True
  | .assign _ _ => False
  | .recreate i created =>
    ∀ o ∈ w.objects[i]?, w.counters o.refCounter = 1 ∨ created = o.sock
  | .destroy _ => True

/-! ## The order of the objects does not matter -/

theorem Ownership.perm {w : World} {l : List Wrapper} (h : w.Ownership)
    (p : w.objects.Perm l) : Ownership { w with objects := l } where
  live := h.live.trans (congrArg _ p.length_eq)
  counted c := (h.counted c).trans (congrArg _ (p.countP_eq _))
  started := h.started
  held_open o ho := h.held_open o (p.mem_iff.mpr ho)
  closed_once k hk := by
    have hiff : Holds { w with objects := l } k ↔ w.Holds k := (p.map _).mem_iff.symm
    simpa only [hiff] using h.closed_once k hk

/-- Taking objects away, or listing one twice, shares nothing new. -/
theorem Shared.of_subset {w w' : World} (h : w.Shared) (hsub : w'.objects ⊆ w.objects) :
    w'.Shared where
  same_sock o ho q hq := h.same_sock o (hsub ho) q (hsub hq)
  same_counter o ho q hq := h.same_counter o (hsub ho) q (hsub hq)

theorem Shared.perm {w : World} {l : List Wrapper} (h : w.Shared)
    (p : w.objects.Perm l) : Shared { w with objects := l } := h.of_subset p.symm.subset

/-- An object apart from all others may join them. -/
theorem Shared.of_cons {w w' : World} {o : Wrapper} {rest : List Wrapper} (h : w.Shared)
    (hsub : rest ⊆ w.objects) (hw' : w'.objects = o :: rest)
    (apart : ∀ p ∈ rest, p.refCounter ≠ o.refCounter ∧
      (p.sock ≠ invalidSocket → p.sock ≠ o.sock)) : w'.Shared := by
  constructor <;> rw [hw'] <;> intro p hp q hq
  · intro hpq
    rcases List.mem_cons.mp hp with rfl | hpr <;> rcases List.mem_cons.mp hq with rfl | hqr
    · rfl
    · exact absurd hpq.symm (apart q hqr).1
    · exact absurd hpq (apart p hpr).1
    · exact h.same_sock p (hsub hpr) q (hsub hqr) hpq
  · intro hvalid hpq
    rcases List.mem_cons.mp hp with rfl | hpr <;> rcases List.mem_cons.mp hq with rfl | hqr
    · rfl
    · exact absurd hpq.symm ((apart q hqr).2 (hpq ▸ hvalid))
    · exact absurd hpq ((apart p hpr).2 hvalid)
    · exact h.same_counter p (hsub hpr) q (hsub hqr) hvalid hpq

/-! ## What one operation does -/

/-- The world once `Start` has returned. -/
def started (w : World) : World :=
  { w with
    winsock := if w.nofSockets = 0 then w.winsock.wsaStartup else w.winsock
    nofSockets := w.nofSockets + 1 }

/-- A new object with a socket of its own. -/
def withNew (w : World) (created cell : ℕ) : World :=
  { w.started with
    winsock := w.started.winsock.socket () created
    counters := Function.update w.counters cell 1
    objects := ⟨created, cell⟩ :: w.objects }

theorem run_start (startup : Bool) (w : World) :
    (start startup).run w =
      if w.nofSockets = 0 ∧ startup = false then .error (.thrown "Could not start WSA") w
      else .ok () w.started := by
  by_cases h0 : w.nofSockets = 0 <;> cases startup <;> simp [start, started, h0]

theorem run_construct_not_started {w : World} (created cell : ℕ) (h : w.nofSockets = 0) :
    (construct false created cell).run w = .error (.thrown "Could not start WSA") w := by
  rw [construct, EStateM.run_bind, run_start, if_pos ⟨h, rfl⟩]

theorem run_construct {startup : Bool} {created : ℕ} {w : World} (cell : ℕ)
    (h : ¬ (w.nofSockets = 0 ∧ startup = false)) (hc : created ≠ invalidSocket) :
    (construct startup created cell).run w = .ok () (w.withNew created cell) := by
  rw [construct, EStateM.run_bind, run_start, if_neg h]
  simp [hc, withNew, started]

/-- A construction whose socket is valid leaves everything as it was, or adds its object. -/
theorem final_construct {startup : Bool} {created : ℕ} {w : World} (cell : ℕ)
    (safe : w.Safe (.construct startup created cell)) :
    Stateful.final (construct startup created cell) w = w ∨
      created ≠ invalidSocket ∧
        Stateful.final (construct startup created cell) w = w.withNew created cell := by
  by_cases h : w.nofSockets = 0 ∧ startup = false
  · obtain ⟨hz, rfl⟩ := h
    exact .inl (by rw [Stateful.final, run_construct_not_started _ _ hz])
  · have hc := safe.resolve_left h
    exact .inr ⟨hc, by rw [Stateful.final, run_construct cell h hc]⟩

theorem final_socketClient {startup found : Bool} {created : ℕ} {w : World} (cell : ℕ)
    (safe : w.Safe (.client startup created cell found)) :
    Stateful.final (socketClient startup created cell found) w = w ∨
      created ≠ invalidSocket ∧
        Stateful.final (socketClient startup created cell found) w = w.withNew created cell := by
  by_cases h : w.nofSockets = 0 ∧ startup = false
  · obtain ⟨hz, rfl⟩ := h
    left
    rw [Stateful.final, socketClient, EStateM.run_bind, run_construct_not_started _ _ hz]
  · obtain ⟨hc, rfl⟩ := safe.resolve_left h
    refine .inr ⟨hc, ?_⟩
    rw [Stateful.final, socketClient, EStateM.run_bind, run_construct cell h hc]
    rfl

/-! ## Each operation keeps the invariant -/

section Steps

variable {w : World} {o : Wrapper} {rest : List Wrapper}

theorem Ownership.not_holds_of_fresh {created : ℕ} (h : w.Ownership)
    (hf : w.winsock.Fresh created) (hc : created ≠ invalidSocket) : ¬ w.Holds created := by
  intro hheld
  obtain ⟨o, ho, rfl⟩ := List.mem_map.mp hheld
  have hopen := h.held_open o ho hc
  simp [hf.resolve_left hc] at hopen

theorem Ownership.ne_of_counter_zero {cell : ℕ} (h : w.Ownership) (h0 : w.counters cell = 0) :
    ∀ o ∈ w.objects, o.refCounter ≠ cell := by
  have hcount := h.counted cell
  rw [h0] at hcount
  simpa using List.countP_eq_zero.mp (Int.ofNat_eq_zero.mp hcount.symm)

theorem withNew_ownership {created cell : ℕ} (h : w.Ownership) (hf : w.winsock.Fresh created)
    (hc : created ≠ invalidSocket) (h0 : w.counters cell = 0) :
    (w.withNew created cell).Ownership where
  live := by simp [withNew, started, h.live]
  counted c := by
    have hne := h.ne_of_counter_zero h0
    by_cases hcell : cell = c
    · subst hcell
      have hzero : w.objects.countP (·.refCounter = cell) = 0 :=
        List.countP_eq_zero.mpr (by simpa using hne)
      simp [withNew, hzero]
    · simp [withNew, Function.update_of_ne (Ne.symm hcell), h.counted, hcell]
  started := by
    have hlive := h.live
    have hstarted := h.started
    by_cases hz : w.nofSockets = 0
    · simp [withNew, World.started, Winsock.socket, Winsock.wsaStartup, hc, hz, hstarted]
    · have hpos : 0 < w.nofSockets := by omega
      have hnext : 0 < w.nofSockets + 1 := by omega
      simp [withNew, World.started, Winsock.socket, hc, hz, hstarted, hpos, hnext]
  held_open p hp hne := by
    rcases List.mem_cons.mp hp with rfl | hp
    · simp [withNew, Winsock.socket, hc]
    · by_cases heq : p.sock = created
      · simp [withNew, Winsock.socket, hc, heq]
      · have hopen := h.held_open p hp hne
        by_cases hz : w.nofSockets = 0 <;>
          simpa [withNew, World.started, Winsock.socket, Winsock.wsaStartup, hc, hz,
            Function.update_of_ne heq] using hopen
  closed_once k hk := by
    have hold := h.closed_once k hk
    have hfree := h.not_holds_of_fresh hf hc
    by_cases hz : w.nofSockets = 0 <;> by_cases heq : created = k <;>
      simp_all [withNew, World.started, Winsock.socket, Winsock.wsaStartup, Holds, eq_comm]

theorem withNew_shared {created cell : ℕ} (h : w.Ownership) (hs : w.Shared)
    (hf : w.winsock.Fresh created) (hc : created ≠ invalidSocket) (h0 : w.counters cell = 0) :
    (w.withNew created cell).Shared := by
  refine hs.of_cons (List.Subset.refl _) rfl fun p hp => ⟨h.ne_of_counter_zero h0 p hp, ?_⟩
  exact fun _ heq => h.not_holds_of_fresh hf hc (List.mem_map.mpr ⟨p, hp, heq⟩)

theorem copy_ownership (h : w.Ownership) (ho : o ∈ w.objects) : (w.copy o).Ownership where
  live := by simp [copy, h.live]
  counted c := by
    by_cases hc : o.refCounter = c
    · subst hc
      simp [copy, h.counted]
    · simp [copy, Function.update_of_ne (Ne.symm hc), h.counted, hc]
  started := by
    have hlive := h.live
    have hpos : 0 < w.objects.length := List.length_pos_of_mem ho
    have hnext : 0 < w.nofSockets + 1 := by omega
    have hnow : 0 < w.nofSockets := by omega
    simpa [copy, hnext, hnow] using h.started
  held_open p hp hne := by
    rcases List.mem_cons.mp hp with rfl | hp
    · exact h.held_open o ho hne
    · exact h.held_open p hp hne
  closed_once k hk := by
    have hiff : (w.copy o).Holds k ↔ w.Holds k := by
      refine ⟨fun hk => ?_, List.mem_cons_of_mem _⟩
      rcases List.mem_cons.mp hk with rfl | hk
      · exact List.mem_map.mpr ⟨o, ho, rfl⟩
      · exact hk
    simp only [hiff]
    exact h.closed_once k hk

theorem copy_shared (h : w.Shared) (ho : o ∈ w.objects) : (w.copy o).Shared :=
  h.of_subset (List.cons_subset.mpr ⟨ho, List.Subset.refl _⟩)

/-- Nobody else holds the socket of an object whose counter is 1. -/
theorem Ownership.last_owner (h : w.Ownership) (hs : w.Shared) (hw : w.objects = o :: rest)
    (hone : w.counters o.refCounter = 1) :
    ∀ p ∈ rest, p.refCounter ≠ o.refCounter ∧ (o.sock ≠ invalidSocket → p.sock ≠ o.sock) := by
  have hcount := h.counted o.refCounter
  rw [hone, hw, List.countP_cons_of_pos (by simp)] at hcount
  have hnone : ∀ p ∈ rest, p.refCounter ≠ o.refCounter := by
    have hzero : rest.countP (·.refCounter = o.refCounter) = 0 := by omega
    simpa using List.countP_eq_zero.mp hzero
  intro p hp
  refine ⟨hnone p hp, fun hvalid heq => ?_⟩
  refine hnone p hp (hs.same_counter o ?_ p ?_ hvalid heq.symm).symm <;> simp [hw, hp]

/-- Somebody else holds the socket of an object whose counter is not 1. -/
theorem Ownership.other_owner (h : w.Ownership) (hs : w.Shared) (hw : w.objects = o :: rest)
    (hmany : w.counters o.refCounter ≠ 1) : ∃ p ∈ rest, p.sock = o.sock := by
  have hcount := h.counted o.refCounter
  rw [hw, List.countP_cons_of_pos (by simp)] at hcount
  have hpos : 0 < rest.countP (·.refCounter = o.refCounter) := by omega
  obtain ⟨p, hp, heq⟩ := List.countP_pos_iff.mp hpos
  refine ⟨p, hp, hs.same_sock p ?_ o ?_ (by simpa using heq)⟩ <;> simp [hw, hp]

/-- What a destructor does to the library. -/
theorem destroy_winsock (i : ℕ) (o : Wrapper) (w : World) :
    (w.destroy i o).winsock.startups = w.winsock.startups ∧
    (w.destroy i o).winsock.cleanups =
      w.winsock.cleanups + (if w.nofSockets = 1 then 1 else 0) ∧
    (w.destroy i o).winsock.opened = w.winsock.opened ∧
    (w.destroy i o).winsock.closed =
      w.winsock.closed ++ (if w.counters o.refCounter = 1 then [o.sock] else []) := by
  by_cases hend : w.nofSockets = 1 <;> by_cases hone : w.counters o.refCounter = 1 <;>
    simp [destroy, endIfNone, release, Int.sub_eq_zero, hend, hone, Winsock.wsaCleanup,
      Winsock.closesocket]

/-- While objects are left, a handle stays open unless it is the one closed. -/
theorem destroy_handles (i : ℕ) (o : Wrapper) {w : World} (hmore : w.nofSockets ≠ 1) {k : ℕ}
    (hk : w.counters o.refCounter = 1 → k ≠ o.sock) :
    (w.destroy i o).winsock.handles k = w.winsock.handles k := by
  by_cases hone : w.counters o.refCounter = 1
  · simp [destroy, endIfNone, release, Int.sub_eq_zero, hmore, hone, Winsock.closesocket,
      Function.update_of_ne (hk hone)]
  · simp [destroy, endIfNone, release, Int.sub_eq_zero, hmore, hone]

theorem destroy_head_ownership (h : w.Ownership) (hs : w.Shared) (hw : w.objects = o :: rest) :
    (w.destroy 0 o).Ownership := by
  have hrest : (w.destroy 0 o).objects = rest := by simp [destroy, hw]
  have hlive : w.nofSockets = rest.length + 1 := by simp [h.live, hw]
  have hnow : 0 < w.nofSockets := by omega
  constructor
  · rw [hrest]
    simp [destroy, endIfNone, release, hlive]
  · intro c
    rw [hrest]
    have hcount := h.counted c
    by_cases hc : o.refCounter = c
    · subst hc
      simp [destroy, endIfNone, release, hcount, hw]
    · simp [destroy, endIfNone, release, Function.update_of_ne (Ne.symm hc), hcount, hw, hc]
  · have hstarted := h.started
    have hnext : (w.destroy 0 o).nofSockets = w.nofSockets - 1 := rfl
    obtain ⟨hstartups, hcleanups, -, -⟩ := destroy_winsock 0 o w
    rw [hstartups, hcleanups, hnext, hstarted, if_pos hnow]
    split_ifs <;> omega
  · intro p hp hvalid
    rw [hrest] at hp
    have hmore : w.nofSockets ≠ 1 := by
      have := List.length_pos_of_mem hp
      omega
    rw [destroy_handles 0 o hmore fun hone heq =>
      (h.last_owner hs hw hone p hp).2 (heq ▸ hvalid) heq]
    exact h.held_open p (by simp [hw, hp]) hvalid
  · intro k hk
    obtain ⟨-, -, hopened, hclosed⟩ := destroy_winsock 0 o w
    rw [hopened, hclosed, h.closed_once k hk, List.count_append, Nat.add_assoc]
    by_cases hone : w.counters o.refCounter = 1
    · have hlast := h.last_owner hs hw hone
      by_cases heq : o.sock = k
      · subst heq
        have hnone : o.sock ∉ rest.map Wrapper.sock := by
          simpa using fun p hp => (hlast p hp).2 hk
        simp [Holds, hrest, hw, hone, hnone]
      · simp [Holds, hrest, hw, hone, heq, Ne.symm heq]
    · obtain ⟨p, hp, hsock⟩ := h.other_owner hs hw hone
      have hiff : w.Holds k ↔ (w.destroy 0 o).Holds k := by
        rw [Holds, Holds, hw, hrest, List.map_cons, List.mem_cons, or_iff_right_of_imp]
        rintro rfl
        exact List.mem_map.mpr ⟨p, hp, hsock⟩
      simp [hone, hiff]

theorem destroy_shared (h : w.Shared) (i : ℕ) : (w.destroy i o).Shared :=
  h.of_subset (List.eraseIdx_subset ..)

/-- The world after `RecreateSocket` of an object, in whatever place it stands. -/
def withSocket (w : World) (o : Wrapper) (created : ℕ) (objects : List Wrapper) : World :=
  { w with winsock := (w.winsock.closesocket o.sock).socket () created, objects := objects }

theorem final_recreate (i : ℕ) (o : Wrapper) (created : ℕ) (w : World) :
    Stateful.final (recreate i o created) w =
      w.withSocket o created (w.objects.set i { o with sock := created }) := by
  rw [recreate, Stateful.final_zoom, Endpoint.final_recreateSocket]
  rfl

theorem withSocket_started (created : ℕ) (l : List Wrapper) (h : w.Ownership) :
    (w.withSocket o created l).winsock.startups =
      (w.withSocket o created l).winsock.cleanups + if 0 < w.nofSockets then 1 else 0 := by
  by_cases hc : created = invalidSocket <;>
    simpa [withSocket, Winsock.socket, Winsock.closesocket, hc] using h.started

theorem withSocket_count (created : ℕ) (l : List Wrapper) {k : ℕ} (hk : k ≠ invalidSocket) :
    (w.withSocket o created l).winsock.opened.count k =
      w.winsock.opened.count k + (if created = k then 1 else 0) ∧
    (w.withSocket o created l).winsock.closed.count k =
      w.winsock.closed.count k + (if o.sock = k then 1 else 0) := by
  by_cases hc : created = invalidSocket
  · simp [withSocket, Winsock.socket, Winsock.closesocket, hc, Ne.symm hk, List.count_cons]
  · simp [withSocket, Winsock.socket, Winsock.closesocket, hc, List.count_cons]

theorem withSocket_handles_self {created : ℕ} (l : List Wrapper) (hc : created ≠ invalidSocket) :
    ((w.withSocket o created l).winsock.handles created).isSome := by
  simp [withSocket, Winsock.socket, hc]

theorem withSocket_handles {created k : ℕ} (l : List Wrapper) (hold : k ≠ o.sock)
    (hnew : k ≠ created) :
    (w.withSocket o created l).winsock.handles k = w.winsock.handles k := by
  by_cases hc : created = invalidSocket <;>
    simp [withSocket, Winsock.socket, Winsock.closesocket, hc, hold, hnew]

/-- The system may give the same handle again. -/
theorem withSocket_self_ownership (h : w.Ownership) :
    (w.withSocket o o.sock w.objects).Ownership where
  live := h.live
  counted := h.counted
  started := withSocket_started _ _ h
  held_open p hp hvalid := by
    by_cases heq : p.sock = o.sock
    · rw [heq]
      exact withSocket_handles_self _ (heq ▸ hvalid)
    · rw [withSocket_handles _ heq heq]
      exact h.held_open p hp hvalid
  closed_once k hk := by
    obtain ⟨hopened, hclosed⟩ := withSocket_count (w := w) (o := o) o.sock w.objects hk
    rw [hopened, hclosed, h.closed_once k hk, Nat.add_right_comm]
    rfl

/-- The other objects hold neither the handle a sole owner closes nor the one it gets. -/
theorem Ownership.apart {created : ℕ} (h : w.Ownership) (hs : w.Shared)
    (hw : w.objects = o :: rest) (hone : w.counters o.refCounter = 1)
    (hf : (w.winsock.closesocket o.sock).Fresh created) :
    ∀ p ∈ rest, p.sock ≠ invalidSocket → p.sock ≠ o.sock ∧ p.sock ≠ created := by
  intro p hp hvalid
  have hold : p.sock ≠ o.sock := fun heq =>
    (h.last_owner hs hw hone p hp).2 (heq ▸ hvalid) heq
  refine ⟨hold, ?_⟩
  rintro rfl
  have hopen := h.held_open p (by simp [hw, hp]) hvalid
  have hsame : (w.winsock.closesocket o.sock).handles p.sock = w.winsock.handles p.sock :=
    Function.update_of_ne hold ..
  rw [← hsame, hf.resolve_left hvalid] at hopen
  cases hopen

/-- A sole owner closes the old socket and holds the new one. -/
theorem withSocket_head_ownership {created : ℕ} (h : w.Ownership) (hs : w.Shared)
    (hw : w.objects = o :: rest) (hone : w.counters o.refCounter = 1)
    (hf : (w.winsock.closesocket o.sock).Fresh created) :
    (w.withSocket o created ({ o with sock := created } :: rest)).Ownership := by
  have hapart := h.apart hs hw hone hf
  constructor
  · simp [withSocket, h.live, hw]
  · intro c
    rw [withSocket, h.counted, hw]
    simp [List.countP_cons]
  · exact withSocket_started _ _ h
  · intro p hp hvalid
    rcases List.mem_cons.mp hp with rfl | hp
    · exact withSocket_handles_self _ hvalid
    · rw [withSocket_handles _ (hapart p hp hvalid).1 (hapart p hp hvalid).2]
      exact h.held_open p (by simp [hw, hp]) hvalid
  · intro k hk
    obtain ⟨hopened, hclosed⟩ := withSocket_count (w := w) (o := o) created
      ({ o with sock := created } :: rest) hk
    have hwas : w.Holds k ↔ o.sock = k ∨ k ∈ rest.map Wrapper.sock := by
      rw [Holds, hw, List.map_cons, List.mem_cons, eq_comm]
    have his : (w.withSocket o created ({ o with sock := created } :: rest)).Holds k ↔
        created = k ∨ k ∈ rest.map Wrapper.sock := by
      rw [Holds, withSocket, List.map_cons, List.mem_cons, eq_comm]
    have hfree : k ∈ rest.map Wrapper.sock → o.sock ≠ k ∧ created ≠ k := by
      intro hmem
      obtain ⟨p, hp, rfl⟩ := List.mem_map.mp hmem
      exact ⟨Ne.symm (hapart p hp hk).1, Ne.symm (hapart p hp hk).2⟩
    rw [hopened, hclosed, h.closed_once k hk, if_congr hwas rfl rfl, if_congr his rfl rfl]
    by_cases ho : o.sock = k <;> by_cases hc : created = k <;> grind

theorem withSocket_head_shared {created : ℕ} (h : w.Ownership) (hs : w.Shared)
    (hw : w.objects = o :: rest) (hone : w.counters o.refCounter = 1)
    (hf : (w.winsock.closesocket o.sock).Fresh created) :
    (w.withSocket o created ({ o with sock := created } :: rest)).Shared := by
  have hsub : rest ⊆ w.objects := hw ▸ List.subset_cons_self o rest
  refine hs.of_cons hsub rfl fun p hp => ⟨(h.last_owner hs hw hone p hp).1, ?_⟩
  exact fun hvalid => (h.apart hs hw hone hf p hp hvalid).2

end Steps

/-! ## Runs -/

theorem perm_eraseIdx {l : List Wrapper} {i : ℕ} {o : Wrapper} (ho : l[i]? = some o) :
    l.Perm (o :: l.eraseIdx i) := by
  obtain ⟨hi, rfl⟩ := List.getElem?_eq_some_iff.mp ho
  exact (List.getElem_cons_eraseIdx_perm hi).symm

theorem destroy_ownership {w : World} {i : ℕ} {o : Wrapper} (h : w.Ownership) (hs : w.Shared)
    (ho : w.objects[i]? = some o) : (w.destroy i o).Ownership :=
  have hp := perm_eraseIdx ho
  destroy_head_ownership (h.perm hp) (hs.perm hp) rfl

theorem recreate_ownership {w : World} {i created : ℕ} {o : Wrapper} (h : w.Ownership)
    (hs : w.Shared) (ho : w.objects[i]? = some o)
    (hf : (w.winsock.closesocket o.sock).Fresh created)
    (safe : w.counters o.refCounter = 1 ∨ created = o.sock) :
    (Stateful.final (recreate i o created) w).Ownership ∧
      (Stateful.final (recreate i o created) w).Shared := by
  rw [final_recreate]
  obtain ⟨hi, rfl⟩ := List.getElem?_eq_some_iff.mp ho
  rcases safe with hone | rfl
  · have hp := perm_eraseIdx ho
    have hback := (List.set_perm_cons_eraseIdx hi { w.objects[i] with sock := created }).symm
    exact ⟨(withSocket_head_ownership (h.perm hp) (hs.perm hp) rfl hone hf).perm hback,
      (withSocket_head_shared (h.perm hp) (hs.perm hp) rfl hone hf).perm hback⟩
  · rw [show ({ w.objects[i] with sock := w.objects[i].sock } : Wrapper) = w.objects[i] from rfl,
      List.set_getElem_self]
    exact ⟨withSocket_self_ownership h, hs.same_sock, hs.same_counter⟩

theorem new_ownership {w w' : World} {created cell : ℕ} (h : w.Ownership ∧ w.Shared)
    (hf : w.winsock.Fresh created) (h0 : w.counters cell = 0)
    (hw' : w' = w ∨ created ≠ invalidSocket ∧ w' = w.withNew created cell) :
    w'.Ownership ∧ w'.Shared := by
  rcases hw' with rfl | ⟨hc, rfl⟩
  · exact h
  · exact ⟨withNew_ownership h.1 hf hc h0, withNew_shared h.1 h.2 hf hc h0⟩

/-- A safe operation keeps the invariant. -/
theorem step_ownership {w w' : World} {op : Op} (h : w.Ownership ∧ w.Shared) (safe : w.Safe op)
    (hstep : w.step op = some w') : w'.Ownership ∧ w'.Shared := by
  cases op with
  | construct startup created cell =>
    obtain ⟨⟨hf, h0⟩, rfl⟩ := Runs.guarded_eq_some.mp hstep
    exact new_ownership h hf h0 (final_construct cell safe)
  | client startup created cell found =>
    obtain ⟨⟨hf, h0⟩, rfl⟩ := Runs.guarded_eq_some.mp hstep
    exact new_ownership h hf h0 (final_socketClient cell safe)
  | copy i =>
    obtain ⟨o, ho, rfl⟩ := Option.map_eq_some_iff.mp hstep
    have hmem := List.mem_of_getElem? ho
    exact ⟨copy_ownership h.1 hmem, copy_shared h.2 hmem⟩
  | assign i j => exact safe.elim
  | recreate i created =>
    obtain ⟨o, ho, hstep⟩ := Option.bind_eq_some_iff.mp hstep
    obtain ⟨hf, rfl⟩ := Runs.guarded_eq_some.mp hstep
    exact recreate_ownership h.1 h.2 ho hf (safe o ho)
  | destroy i =>
    obtain ⟨o, ho, rfl⟩ := Option.map_eq_some_iff.mp hstep
    exact ⟨destroy_ownership h.1 h.2 ho, destroy_shared h.2 i⟩

theorem initial_ownership : initial.Ownership ∧ initial.Shared := by
  refine ⟨⟨rfl, fun c => rfl, rfl, ?_, fun k hk => rfl⟩, ?_, ?_⟩ <;> simp [initial]

/-- The invariant holds in every state that safe operations lead to. -/
theorem reaches_ownership {w : World} (h : Runs.Reaches step Safe initial w) : w.Ownership :=
  (h.invariant (P := fun w => w.Ownership ∧ w.Shared)
    (fun _ _ _ hw safe hstep => step_ownership hw safe hstep) initial_ownership).1

/-- A socket is opened, its object copied, and both objects are destroyed. -/
theorem reaches_ownership_copied :
    ∃ w, Runs.Reaches step Safe initial w ∧ w.winsock.opened = [8] ∧ w.objects = [] ∧
      w.Ownership := by
  have start : Runs.Reaches step Safe initial initial := .refl
  have valid : initial.Safe (.construct true 8 0) := .inr (by decide)
  have copied := (start.tail valid rfl).tail (show Safe _ (.copy 0) from trivial) rfl
  have dropped := copied.tail (show Safe _ (.destroy 1) from trivial) rfl
  have gone := dropped.tail (show Safe _ (.destroy 0) from trivial) rfl
  exact ⟨_, gone, rfl, rfl, reaches_ownership gone⟩

/-- An object assigned to itself is counted twice. -/
theorem not_always_ownership :
    ¬ ∀ w, Runs.Reaches step (fun _ _ => True) initial w → w.Ownership := by
  intro h
  have moved : Runs.run step initial [.construct true 8 0, .assign 0 0] = some _ := rfl
  exact absurd (h _ (Runs.reaches_of_run moved fun _ _ _ => trivial)).live (by decide)

end World
end ComputerLock.Client
