import HttpServer.Admission.Tasks
import HttpServer.Proofs.Admission
import Mathlib.Data.List.Induction
/-!
# Admission loses and duplicates no connection

Every step of a task moves at most one connection, from the front of a queue to a task that had none
or from a task to those that are over (`Sound.step`). So every connection that was put into a queue
is in exactly one place (`Sound.places_eq`), the places for waiting and being served are never
exceeded, and the workers take connections in the order in which they came.

The states that the tasks can reach are those of `Admission`, in both directions
(`exists_admission_of_reachable`, `exists_reachable_of_admission`).
-/
namespace HttpServer.Tasks

variable {limits : ServerLimits} {t t' : Tasks} {move : Move} {ws : List (Option Nat)} {i c : Nat}

/-! ## Tasks that have a connection -/

theorem length_held_le (ws : List (Option Nat)) : (held ws).length ≤ ws.length :=
  List.length_filterMap_le _ _

@[simp] theorem held_replicate_none (n : Nat) : held (List.replicate n none) = [] := by
  induction n with
  | zero => rfl
  | succ n ih => exact ih

theorem mem_held_iff : c ∈ held ws ↔ ∃ i : Nat, ws[i]? = some (some c) := by
  rw [← List.mem_iff_getElem?]
  simp [held]

/-- A task that had none has a connection more. -/
theorem held_set_some (idle : ws[i]? = some none) (c : Nat) :
    (held (ws.set i (some c))).Perm (c :: held ws) := by
  induction ws generalizing i with
  | nil => cases idle
  | cons w ws ih =>
    cases i with
    | zero =>
      cases idle
      exact List.Perm.refl _
    | succ i =>
      have later := ih idle
      cases w with
      | none => exact later
      | some d => exact (later.cons d).trans (.swap c d _)

theorem held_set_none (busy : ws[i]? = some (some c)) :
    (held ws).Perm (c :: held (ws.set i none)) := by
  induction ws generalizing i with
  | nil => cases busy
  | cons w ws ih =>
    cases i with
    | zero =>
      cases busy
      exact List.Perm.refl _
    | succ i =>
      have later := ih busy
      cases w with
      | none => exact later
      | some d => exact (later.cons d).trans (.swap c d _)

theorem perm_held_set_some {kept : List Nat} (h : kept.Perm (held ws)) (idle : ws[i]? = some none)
    (c : Nat) : (kept ++ [c]).Perm (held (ws.set i (some c))) :=
  (List.perm_append_singleton c kept).trans ((h.cons c).trans (held_set_some idle c).symm)

/-- The connection of a task is kept, and all others are kept when the task has it no longer. -/
theorem perm_held_set_none {kept : List Nat} (h : kept.Perm (held ws))
    (busy : ws[i]? = some (some c)) : c ∈ kept ∧ (kept.erase c).Perm (held (ws.set i none)) := by
  have mem : c ∈ kept := h.mem_iff.2 (mem_held_iff.2 ⟨i, busy⟩)
  have rest := (List.perm_cons_erase mem).symm.trans (h.trans (held_set_none busy))
  exact ⟨mem, (List.perm_cons c).1 rest⟩

theorem exists_idle (few : (held ws).length < ws.length) : ∃ i : Nat, ws[i]? = some none := by
  induction ws with
  | nil => cases few
  | cons w ws ih =>
    cases w with
    | none => exact ⟨0, rfl⟩
    | some d =>
      obtain ⟨i, idle⟩ := ih (Nat.lt_of_succ_lt_succ few)
      exact ⟨i + 1, idle⟩

theorem length_held_lt (idle : ws[i]? = some none) : (held ws).length < ws.length := by
  have more := (held_set_some idle 0).length_eq
  have le := length_held_le (ws.set i (some 0))
  rw [List.length_set] at le
  rw [List.length_cons] at more
  omega

/-! ## What every step keeps -/

/-- What holds of the tasks at any time. -/
structure Sound (limits : ServerLimits) (t : Tasks) : Prop where
  fresh : t.arrived.Nodup
  hand : t.accepted ++ t.acceptor.hand = t.arrived
  /-- The places hold the connections that were put into a queue, and each of them once. -/
  known : t.known.Perm t.accepted
  split : (t.queued ++ t.overflowed.map Prod.fst).Perm t.accepted
  order : t.queued.Sublist t.accepted
  first : t.started ++ t.waiting = t.queued
  room : t.waiting.length ≤ limits.maxPending
  /-- A count that is out of date is too large. -/
  counted : ∀ c n, t.acceptor = .placing c n → t.waiting.length ≤ n ∧ n ≤ limits.maxPending
  /-- Only a full queue turns a connection away. -/
  full : ∀ x ∈ t.overflowed, x.2 = limits.maxPending
  working : ∀ c ∈ held t.workers, c ∈ t.started
  /-- What a refuser has or will have was turned away. -/
  refusing : ∀ c ∈ t.overflow ++ held t.refusers, c ∈ t.overflowed.map Prod.fst
  tasks : t.workers.length = limits.workers ∧ t.refusers.length = Admission.refusers limits

theorem sound_initial (limits : ServerLimits) : (initial limits).Sound limits := by
  refine ⟨List.nodup_nil, rfl, ?_, .refl _, .refl _, rfl, Nat.zero_le _, nofun, nofun, ?_, ?_, ?_⟩
  · simp [Tasks.known, initial]
  · simp [initial]
  · simp [initial]
  · simp [initial]

theorem count_known (t : Tasks) (x : Nat) :
    t.known.count x = t.waiting.count x + t.overflow.count x + (held t.workers).count x
      + (held t.refusers).count x + t.finished.count x := by
  simp only [Tasks.known, List.count_append]

theorem Sound.step (h : t.Sound limits) (s : Step limits t move t') : t'.Sound limits := by
  obtain ⟨fresh, hand, known, split, order, first, room, counted, full, working, refusing, workers,
    refusers⟩ := h
  have knownCount (x : Nat) := known.count_eq x
  simp only [count_known] at knownCount
  cases s with
  | @accept c idle new =>
    rw [idle, Acceptor.hand, List.append_nil] at hand
    refine ⟨?_, by rw [hand]; rfl, known, split, order, first, room, nofun, full, working, refusing,
      workers, refusers⟩
    refine List.nodup_append.2 ⟨fresh, by simp, fun a ha b hb => ?_⟩
    rw [List.mem_singleton.1 hb]
    rintro rfl
    exact new ha
  | @count c counting =>
    rw [counting] at hand
    refine ⟨fresh, hand, known, split, order, first, room, ?_, full, working, refusing, workers, refusers⟩
    rintro d n placing
    cases placing
    exact ⟨Nat.le_refl _, room⟩
  | @queue c n placing place =>
    have now := (counted c n placing).1
    rw [placing] at hand
    refine ⟨fresh, (List.append_nil _).trans hand, List.perm_iff_count.2 fun x => ?_,
      List.perm_iff_count.2 fun x => ?_, order.append_right [c], ?_, ?_, nofun, full, working, refusing,
      workers, refusers⟩
    · have := knownCount x
      simp only [count_known, List.count_append]
      omega
    · have := split.count_eq x
      simp only [List.count_append] at this ⊢
      omega
    · simp only [← first, List.append_assoc]
    · rw [List.length_append, List.length_singleton]
      omega
  | @turnAway c n placing noRoom =>
    have last := (counted c n placing).2
    rw [placing] at hand
    refine ⟨fresh, (List.append_nil _).trans hand, List.perm_iff_count.2 fun x => ?_,
      List.perm_iff_count.2 fun x => ?_,
      order.trans (List.sublist_append_left _ _), first, room, nofun, ?_, working, ?_, workers,
      refusers⟩
    · have := knownCount x
      simp only [count_known, List.count_append]
      omega
    · have := split.count_eq x
      simp only [List.map_append, List.count_append, List.map_cons, List.map_nil] at this ⊢
      omega
    · exact List.forall_mem_append.2 ⟨full, List.forall_mem_singleton.2 (Nat.le_antisymm last noRoom)⟩
    · intro d hd
      simp only [List.mem_append, List.map_append, List.map_cons, List.map_nil] at hd refusing ⊢
      rcases hd with (hd | hd) | hd
      · exact .inl (refusing d (.inl hd))
      · exact .inr hd
      · exact .inl (refusing d (.inr hd))
  | @start i c rest idle next =>
    refine ⟨fresh, hand, List.perm_iff_count.2 fun x => ?_, split, order, ?_, ?_, ?_, full, ?_, refusing, ?_,
      refusers⟩
    · have := knownCount x
      have more := (held_set_some idle c).count_eq x
      rw [next] at this
      simp only [count_known, List.count_cons] at this more ⊢
      omega
    · rw [← first, next, List.append_assoc]
      rfl
    · rw [next, List.length_cons] at room
      exact Nat.le_of_succ_le room
    · intro d n placing
      have := counted d n placing
      rw [next, List.length_cons] at this
      exact ⟨Nat.le_of_succ_le this.1, this.2⟩
    · intro d hd
      rcases List.mem_cons.1 ((held_set_some idle c).mem_iff.1 hd) with rfl | hd
      · exact List.mem_append_right _ (List.mem_singleton_self d)
      · exact List.mem_append_left _ (working d hd)
    · rw [List.length_set]
      exact workers
  | @finish i c busy =>
    refine ⟨fresh, hand, List.perm_iff_count.2 fun x => ?_, split, order, first, room, counted, full, ?_, refusing,
      ?_, refusers⟩
    · have := knownCount x
      have less := (held_set_none busy).count_eq x
      simp only [count_known, List.count_append, List.count_cons, List.count_nil] at this less ⊢
      omega
    · exact fun d hd => working d ((held_set_none busy).mem_iff.2 (List.mem_cons_of_mem c hd))
    · rw [List.length_set]
      exact workers
  | @refuse i c rest idle next =>
    refine ⟨fresh, hand, List.perm_iff_count.2 fun x => ?_, split, order, first, room, counted, full, working, ?_,
      workers, ?_⟩
    · have := knownCount x
      have more := (held_set_some idle c).count_eq x
      rw [next] at this
      simp only [count_known, List.count_cons] at this more ⊢
      omega
    · intro d hd
      refine refusing d ?_
      rw [next]
      rcases List.mem_append.1 hd with hd | hd
      · exact List.mem_append_left _ (List.mem_cons_of_mem c hd)
      · rcases List.mem_cons.1 ((held_set_some idle c).mem_iff.1 hd) with rfl | hd
        · exact List.mem_append_left _ List.mem_cons_self
        · exact List.mem_append_right _ hd
    · rw [List.length_set]
      exact refusers
  | @dismiss i c busy =>
    refine ⟨fresh, hand, List.perm_iff_count.2 fun x => ?_, split, order, first, room, counted, full, working, ?_,
      workers, ?_⟩
    · have := knownCount x
      have less := (held_set_none busy).count_eq x
      simp only [count_known, List.count_append, List.count_cons, List.count_nil] at this less ⊢
      omega
    · intro d hd
      refine refusing d ?_
      rcases List.mem_append.1 hd with hd | hd
      · exact List.mem_append_left _ hd
      · exact List.mem_append_right _ ((held_set_none busy).mem_iff.2 (List.mem_cons_of_mem c hd))
    · rw [List.length_set]
      exact refusers

theorem Sound.nodup_accepted (h : t.Sound limits) : t.accepted.Nodup := by
  have fresh := h.fresh
  rw [← h.hand] at fresh
  exact (List.nodup_append.1 fresh).1

theorem Sound.count_known_le (h : t.Sound limits) (c : Nat) : t.known.count c ≤ 1 := by
  rw [h.known.count_eq]
  exact List.nodup_iff_count.1 h.nodup_accepted c

theorem Reachable.sound (h : Reachable limits t) : t.Sound limits := by
  induction h with
  | initial => exact sound_initial limits
  | step _ s ih => exact ih.step s

/-! ## Places -/

/-- A connection is found in as many places as it is kept. -/
theorem length_places (t : Tasks) (c : Nat) : (t.places c).length = t.known.count c := by
  have queue (l : List Nat) (p : Place) :
      ((l.filter (· == c)).map fun _ => p).length = l.count c := by
    rw [List.length_map, List.count_eq_length_filter]
  have task (ws : List (Option Nat)) (p : Option Nat × Nat → Place) :
      ((ws.zipIdx.filter (·.1 == some c)).map p).length = (held ws).count c := by
    have value : (held ws).count c = ws.countP (· == some c) := by
      rw [held, List.count_filterMap]
      rfl
    have fst : ws.zipIdx.map Prod.fst = ws := List.zipIdx_map_fst 0 ws
    rw [List.length_map, ← List.countP_eq_length_filter, value, ← fst, List.countP_map, fst]
    rfl
  simp only [places, List.length_append, queue, task, count_known]

/-- A connection that was put into a queue is in exactly one place, and any other in none. -/
theorem Sound.places_eq (h : t.Sound limits) (c : Nat) :
    (c ∈ t.accepted → ∃ p, t.places c = [p]) ∧ (c ∉ t.accepted → t.places c = []) := by
  have count : (t.places c).length = t.accepted.count c :=
    (t.length_places c).trans (h.known.count_eq c)
  refine ⟨fun mem => ?_, fun new => ?_⟩
  · rw [h.nodup_accepted.count, if_pos mem] at count
    exact List.length_eq_one_iff.1 count
  · rw [List.count_eq_zero_of_not_mem new] at count
    exact List.eq_nil_of_length_eq_zero count

theorem Sound.not_mem_queued {n : Nat} (h : t.Sound limits) (away : (c, n) ∈ t.overflowed) :
    c ∉ t.queued := by
  have disjoint := (List.nodup_append.1 (h.split.nodup_iff.2 h.nodup_accepted)).2.2
  exact fun mem => disjoint c mem c (List.mem_map.2 ⟨(c, n), away, rfl⟩) rfl

/-! ## Admission -/

section

variable {a a' : Admission} {events : List Admission.Event}

/-- What the admission knows is what is in some place or about to be turned away. -/
theorem Shows.count_known (shows : t.Shows limits a) (x : Nat) :
    a.known.count x = t.known.count x + (t.acceptor.rejected limits).count x := by
  have served := shows.served.count_eq x
  have refused := shows.refused.count_eq x
  simp only [Admission.known, Tasks.count_known, List.count_append, shows.waiting, shows.overflow,
    shows.finished]
  omega

theorem Shows.not_mem_known (shows : t.Shows limits a) (h : t.Sound limits)
    (free : t.acceptor.rejected limits = []) (new : c ∉ t.accepted) : c ∉ a.known := by
  intro mem
  have count := shows.count_known c
  rw [free, List.count_nil, Nat.add_zero] at count
  have here : c ∈ t.known := List.count_pos_iff.1 (count ▸ List.count_pos_iff.2 mem)
  exact new (h.known.mem_iff.1 here)

theorem Sound.not_mem_accepted (h : t.Sound limits) (hand : c ∈ t.acceptor.hand) :
    c ∉ t.accepted := by
  have fresh := h.fresh
  rw [← h.hand] at fresh
  exact fun mem => (List.nodup_append.1 fresh).2.2 c mem c hand rfl

/-- A step of the tasks is a move of the admission, or none that it sees. -/
theorem Shows.step (shows : t.Shows limits a) (h : t.Sound limits) (s : Step limits t move t') :
    t'.Shows limits a ∨ ∃ e a', a.step? limits e = some a' ∧ t'.Shows limits a' := by
  obtain ⟨waiting, overflow, served, refused, finished⟩ := shows
  cases s with
  | @accept c idle new =>
    rw [idle] at overflow
    exact .inl ⟨waiting, overflow, served, refused, finished⟩
  | @count c counting =>
    rw [counting] at overflow
    by_cases room : t.waiting.length < limits.maxPending
    · refine .inl ⟨waiting, overflow.trans ?_, served, refused, finished⟩
      simp only [Acceptor.rejected, if_pos room]
    · -- from here on the connection counts as overflowed
      have new : c ∉ a.known := Shows.not_mem_known
        ⟨waiting, by rw [counting]; exact overflow, served, refused, finished⟩ h (by rw [counting]; rfl)
        (h.not_mem_accepted (by rw [counting]; exact List.mem_singleton_self c))
      have full : limits.maxPending ≤ a.waiting.length := by
        rw [waiting]
        exact Nat.not_lt.1 room
      refine .inr ⟨_, _, Admission.moved_iff.1 (.overflow new full), waiting, ?_, served, refused,
        finished⟩
      simp only [overflow, Acceptor.rejected, if_neg room, List.append_nil]
  | @queue c n placing place =>
    have now := (h.counted c n placing).1
    have free : t.acceptor.rejected limits = [] := by
      rw [placing]
      exact if_pos place
    have new : c ∉ a.known := Shows.not_mem_known ⟨waiting, overflow, served, refused, finished⟩ h
      free (h.not_mem_accepted (by rw [placing]; exact List.mem_singleton_self c))
    rw [free] at overflow
    have room : a.waiting.length < limits.maxPending := by
      rw [waiting]
      omega
    exact .inr ⟨_, _, Admission.moved_iff.1 (.wait new room), by rw [waiting], overflow, served,
      refused, finished⟩
  | @turnAway c n placing full =>
    rw [placing] at overflow
    refine .inl ⟨waiting, ?_, served, refused, finished⟩
    rw [overflow, Acceptor.rejected, if_neg (Nat.not_lt.2 full)]
    exact (List.append_nil _).symm
  | @start i c rest idle next =>
    have free := length_held_lt idle
    rw [h.tasks.1, ← served.length_eq] at free
    exact .inr ⟨_, _, Admission.moved_iff.1 (.start (waiting.trans next) free), rfl, overflow,
      perm_held_set_some served idle c, refused, finished⟩
  | @finish i c busy =>
    obtain ⟨mem, rest⟩ := perm_held_set_none served busy
    exact .inr ⟨_, _, Admission.moved_iff.1 (.finish mem), waiting, overflow, rest, refused,
      by rw [finished]⟩
  | @refuse i c rest idle next =>
    have free := length_held_lt idle
    rw [h.tasks.2, ← refused.length_eq] at free
    rw [next] at overflow
    exact .inr ⟨_, _, Admission.moved_iff.1 (.refuse overflow free), waiting, rfl, served,
      perm_held_set_some refused idle c, finished⟩
  | @dismiss i c busy =>
    obtain ⟨mem, rest⟩ := perm_held_set_none refused busy
    have other : c ∉ a.served := by
      intro mem'
      have once := h.count_known_le c
      have here := List.count_pos_iff.2 (served.mem_iff.1 mem')
      have there := List.count_pos_iff.2 (refused.mem_iff.1 mem)
      rw [Tasks.count_known] at once
      omega
    exact .inr ⟨_, _, Admission.moved_iff.1 (.dismiss other mem), waiting, overflow, served, rest,
      by rw [finished]⟩

/-- A move of the admission is made by steps of the tasks, if no connection is being accepted. -/
theorem Shows.of_event (shows : t.Shows limits a) (h : Reachable limits t)
    (idle : t.acceptor = .idle) {e : Admission.Event} (moved : a.step? limits e = some a') :
    ∃ t', Reachable limits t' ∧ t'.acceptor = .idle ∧ t'.Shows limits a' := by
  have sound := h.sound
  have free : t.acceptor.rejected limits = [] := by
    rw [idle]
    rfl
  have count (x : Nat) := shows.count_known x
  obtain ⟨waiting, overflow, served, refused, finished⟩ := shows
  rw [free, List.append_nil] at overflow
  simp only [free, List.count_nil, Nat.add_zero] at count
  have arriving {c : Nat} (new : c ∉ a.known) : c ∉ t.arrived := by
    intro mem
    rw [← sound.hand, idle, Acceptor.hand, List.append_nil] at mem
    have here := List.count_pos_iff.2 (sound.known.mem_iff.2 mem)
    rw [← count] at here
    exact new (List.count_pos_iff.1 here)
  have still : t.overflow = t.overflow ++ t.acceptor.rejected limits := by
    rw [free, List.append_nil]
  cases Admission.moved_of_step? moved with
  | wait new room =>
    rw [waiting] at room
    have counted := (h.step (.accept idle (arriving new))).step (.count rfl)
    exact ⟨_, counted.step (.queue rfl room), rfl,
      by rw [waiting], overflow.trans (List.append_nil _).symm, served, refused, finished⟩
  | overflow new full =>
    rw [waiting] at full
    have counted := (h.step (.accept idle (arriving new))).step (.count rfl)
    exact ⟨_, counted.step (.turnAway rfl full), rfl,
      waiting, by rw [overflow]; exact (List.append_nil _).symm, served, refused, finished⟩
  | start next few =>
    rw [served.length_eq, ← sound.tasks.1] at few
    obtain ⟨i, spare⟩ := exists_idle few
    exact ⟨_, h.step (.start spare (waiting.symm.trans next)), idle,
      rfl, overflow.trans still, perm_held_set_some served spare _, refused, finished⟩
  | refuse next few =>
    rw [refused.length_eq, ← sound.tasks.2] at few
    obtain ⟨i, spare⟩ := exists_idle few
    refine ⟨_, h.step (.refuse spare (overflow.symm.trans next)), idle,
      waiting, ?_, served, perm_held_set_some refused spare _, finished⟩
    simp only [free, List.append_nil]
  | finish mem =>
    obtain ⟨i, busy⟩ := mem_held_iff.1 (served.mem_iff.1 mem)
    exact ⟨_, h.step (.finish busy), idle, waiting, overflow.trans still,
      (perm_held_set_none served busy).2, refused, by rw [finished]⟩
  | dismiss other mem =>
    obtain ⟨i, busy⟩ := mem_held_iff.1 (refused.mem_iff.1 mem)
    exact ⟨_, h.step (.dismiss busy), idle, waiting, overflow.trans still, served,
      (perm_held_set_none refused busy).2, by rw [finished]⟩

theorem shows_initial (limits : ServerLimits) : (initial limits).Shows limits {} := by
  refine ⟨rfl, rfl, ?_, ?_, rfl⟩ <;> simp [initial]

theorem run?_append_singleton (events : List Admission.Event) (e : Admission.Event) :
    Admission.run? limits (events ++ [e]) =
      (Admission.run? limits events).bind (·.step? limits e) := by
  rw [Admission.run?, List.foldlM_append, Admission.run?]
  cases List.foldlM (Admission.step? limits) {} events with
  | none => rfl
  | some a =>
    change [e].foldlM (Admission.step? limits) a = a.step? limits e
    rw [List.foldlM_cons]
    cases a.step? limits e <;> rfl

/-- Whatever the tasks do, the admission can do. -/
theorem exists_admission_of_reachable (h : Reachable limits t) :
    ∃ events a, Admission.run? limits events = some a ∧ t.Shows limits a := by
  induction h with
  | initial => exact ⟨[], {}, rfl, shows_initial limits⟩
  | step before s ih =>
    obtain ⟨events, a, run, shows⟩ := ih
    rcases shows.step before.sound s with shows' | ⟨e, a', moved, shows'⟩
    · exact ⟨events, a, run, shows'⟩
    · refine ⟨events ++ [e], a', ?_, shows'⟩
      rw [run?_append_singleton, run]
      exact moved

theorem exists_reachable_of_admission (run : Admission.run? limits events = some a) :
    ∃ t, Reachable limits t ∧ t.acceptor = .idle ∧ t.Shows limits a := by
  induction events using List.reverseRecOn generalizing a with
  | nil =>
    cases run
    exact ⟨_, .initial, rfl, shows_initial limits⟩
  | append_singleton events e ih =>
    rw [run?_append_singleton, Option.bind_eq_some_iff] at run
    obtain ⟨before, run, moved⟩ := run
    obtain ⟨t, reachable, idle, shows⟩ := ih run
    exact shows.of_event reachable idle moved

end

/-! ## Every interleaving -/

/-- Whatever order the tasks take their steps in: a connection that was put into a queue is in exactly
one place, and only the last that arrived can be in none; no more connections wait or are served than
may; a connection is turned away only if the queue was full when it was accepted, and then no worker
ever has it; and the workers have taken the first of those in their queue, in the order of arrival.
The admission has the same states. -/
theorem exactly_one_place (limits : ServerLimits) :
    (∀ t, Reachable limits t →
      ((∀ c ∈ t.accepted, ∃ p, t.places c = [p]) ∧ (∀ c, c ∉ t.accepted → t.places c = []) ∧
        t.arrived = t.accepted ++ t.acceptor.hand) ∧
      (t.waiting.length ≤ limits.maxPending ∧ (held t.workers).length ≤ limits.workers) ∧
      (∀ c n, (c, n) ∈ t.overflowed →
        n = limits.maxPending ∧ c ∉ t.started ∧ c ∉ held t.workers) ∧
      (t.arrived.Nodup ∧ (t.queued ++ t.overflowed.map Prod.fst).Perm t.accepted ∧
        t.queued.Sublist t.accepted ∧ t.started ++ t.waiting = t.queued) ∧
      ∃ events a, Admission.run? limits events = some a ∧ t.Shows limits a) ∧
    ∀ events a, Admission.run? limits events = some a →
      ∃ t, Reachable limits t ∧ t.acceptor = .idle ∧ t.Shows limits a := by
  refine ⟨fun t reachable => ?_, fun events a => exists_reachable_of_admission⟩
  have h := reachable.sound
  have workers : (held t.workers).length ≤ limits.workers := by
    rw [← h.tasks.1]
    exact length_held_le t.workers
  refine ⟨⟨fun c => (h.places_eq c).1, fun c => (h.places_eq c).2, h.hand.symm⟩, ⟨h.room, workers⟩,
    fun c n away => ?_, ⟨h.fresh, h.split, h.order, h.first⟩,
    exists_admission_of_reachable reachable⟩
  have never : c ∉ t.started := by
    intro mem
    apply h.not_mem_queued away
    rw [← h.first]
    exact List.mem_append_left _ mem
  exact ⟨h.full _ away, never, fun mem => never (h.working c mem)⟩

/-- One worker and one place to wait. -/
def smallLimits : ServerLimits := { workers := 1, maxPending := 1, refusers := 0 }

/-- The worker took the first connection between the count for the second one and its refusal. -/
def outdated : Tasks :=
  { waiting := [9], workers := [some 7], refusers := [some 8], arrived := [7, 8, 9]
    accepted := [7, 8, 9], queued := [7, 9], overflowed := [(8, 1)], started := [7] }

theorem exactly_one_place_outdated :
    Reachable smallLimits outdated ∧ (∃ p, outdated.places 8 = [p]) ∧
      outdated.started ++ outdated.waiting = outdated.queued ∧
      ∃ t, Reachable smallLimits t ∧ t.acceptor = .idle ∧ t.Shows smallLimits
        { waiting := [9], overflow := [8], served := [7] } := by
  have start : Reachable smallLimits (initial smallLimits) := .initial
  have first := (start.step (.accept (c := 7) rfl (by decide))).step (.count rfl)
    |>.step (.queue rfl (by decide))
  have second := (first.step (.accept (c := 8) rfl (by decide))).step (.count rfl)
    |>.step (.start (i := 0) rfl rfl) |>.step (.turnAway rfl (by decide))
  have third := (second.step (.refuse (i := 0) rfl rfl)).step (.accept (c := 9) rfl (by decide))
    |>.step (.count rfl) |>.step (.queue rfl (by decide))
  obtain ⟨⟨places, -, -⟩, -, -, ⟨-, -, -, order⟩, -⟩ :=
    (exactly_one_place smallLimits).1 outdated third
  refine ⟨third, places 8 (by decide), order, ?_⟩
  exact (exactly_one_place smallLimits).2 [.accept 7, .start 7, .accept 9, .accept 8] _ rfl

end HttpServer.Tasks
