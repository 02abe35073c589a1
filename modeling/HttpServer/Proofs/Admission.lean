import HttpServer.Admission
/-!
# Moves of connections

`Admission.Moved` has the moves that `Admission.step?` allows, each with what it needs
(`Admission.moved_iff`). No move forgets a connection, and only one that is accepted begins to wait.
-/
namespace HttpServer.Admission

variable {limits : ServerLimits} {a a' : Admission} {e : Event} {c : Nat}

/-- A move is possible and leads here. -/
inductive Moved (limits : ServerLimits) (a : Admission) : Event → Admission → Prop where
  | wait {c : Nat} (new : c ∉ a.known) (room : a.waiting.length < limits.maxPending) :
    Moved limits a (.accept c) { a with waiting := a.waiting ++ [c] }
  | overflow {c : Nat} (new : c ∉ a.known) (full : limits.maxPending ≤ a.waiting.length) :
    Moved limits a (.accept c) { a with overflow := a.overflow ++ [c] }
  | start {c : Nat} {rest : List Nat} (next : a.waiting = c :: rest)
      (few : a.served.length < limits.workers) :
    Moved limits a (.start c) { a with waiting := rest, served := a.served ++ [c] }
  | refuse {c : Nat} {rest : List Nat} (next : a.overflow = c :: rest)
      (few : a.refused.length < refusers limits) :
    Moved limits a (.refuse c) { a with overflow := rest, refused := a.refused ++ [c] }
  | finish {c : Nat} (mem : c ∈ a.served) :
    Moved limits a (.finish c)
      { a with served := a.served.erase c, finished := a.finished ++ [c] }
  | dismiss {c : Nat} (other : c ∉ a.served) (mem : c ∈ a.refused) :
    Moved limits a (.finish c)
      { a with refused := a.refused.erase c, finished := a.finished ++ [c] }

theorem moved_of_step? (h : a.step? limits e = some a') : Moved limits a e a' := by
  cases e with
  | accept c =>
    simp only [step?] at h
    split at h
    · cases h
    · rename_i new
      rw [List.contains_iff_mem] at new
      split at h
      · rename_i room
        cases h
        exact .wait new room
      · rename_i full
        cases h
        exact .overflow new (Nat.not_lt.1 full)
  | start c =>
    simp only [step?] at h
    split at h
    · cases h
    · rename_i d rest next
      split at h
      · rename_i enabled
        obtain ⟨rfl, few⟩ := enabled
        cases h
        exact .start next few
      · cases h
  | refuse c =>
    simp only [step?] at h
    split at h
    · cases h
    · rename_i d rest next
      split at h
      · rename_i enabled
        obtain ⟨rfl, few⟩ := enabled
        cases h
        exact .refuse next few
      · cases h
  | finish c =>
    simp only [step?] at h
    split at h
    · rename_i mem
      cases h
      exact .finish (List.contains_iff_mem.1 mem)
    · rename_i other
      rw [List.contains_iff_mem] at other
      split at h
      · rename_i mem
        cases h
        exact .dismiss other (List.contains_iff_mem.1 mem)
      · cases h

theorem moved_iff : Moved limits a e a' ↔ a.step? limits e = some a' := by
  refine ⟨fun h => ?_, moved_of_step?⟩
  cases h with
  | wait new room => simp [step?, new, room]
  | overflow new full => simp [step?, new, Nat.not_lt.2 full]
  | start next few => simp [step?, next, few]
  | refuse next few => simp [step?, next, few]
  | finish mem => simp [step?, mem]
  | dismiss other mem => simp [step?, other, mem]

theorem Moved.waiting (h : Moved limits a e a') (waits : c ∈ a'.waiting) :
    c ∈ a.waiting ∨ e = .accept c := by
  cases h with
  | wait new room =>
    rcases List.mem_append.1 waits with old | last
    · exact .inl old
    · rw [List.mem_singleton.1 last]
      exact .inr rfl
  | start next few =>
    rw [next]
    exact .inl (List.mem_cons_of_mem _ waits)
  | overflow | refuse | finish | dismiss => exact .inl waits

theorem Moved.known (h : Moved limits a e a') (known : c ∈ a.known) : c ∈ a'.known := by
  have erase (l : List Nat) (d : Nat) (mem : c ∈ l) : c ∈ l.erase d ∨ c = d := by
    by_cases same : c = d
    · exact .inr same
    · exact .inl ((List.mem_erase_of_ne same).2 mem)
  cases h with
  | wait | overflow =>
    simp only [Admission.known, List.mem_append, List.mem_singleton] at known ⊢
    grind
  | start next few | refuse next few =>
    simp only [Admission.known, List.mem_append, next, List.mem_cons] at known ⊢
    grind
  | @finish d mem =>
    have := erase a.served d
    simp only [Admission.known, List.mem_append, List.mem_singleton] at known ⊢
    grind
  | @dismiss d other mem =>
    have := erase a.refused d
    simp only [Admission.known, List.mem_append, List.mem_singleton] at known ⊢
    grind

theorem Moved.accept (h : Moved limits a (.accept c) a') : c ∉ a.known ∧ c ∈ a'.known := by
  cases h with
  | wait new | overflow new => exact ⟨new, by simp [Admission.known]⟩

end HttpServer.Admission
