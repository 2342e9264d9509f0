import TskSw.NotedThreads

/-! The owner of a mutex. `mutex_release` clears it after it may have been switched from, so it
names the holder only as long as no other thread took the mutex in between. -/
namespace TskSw.MutexOwner
open Coroutines Threads NotedThreads
open MutexThreads (Exclusive acquireExclusive decrementExclusive)
open Preempt (Word)
open BlkIo (Fault)

section Invariant
variable {τ μ ν : Type}

structure Names (s : Noted τ μ ν) (m : μ) : Prop where
  holder : ∀ t ∈ s.1.holders m, s.1.owner m = some t
  nobody : s.1.holders m = [] → s.2.releasing m = [] → s.1.owner m = none

structure Owned (s : Noted τ μ ν) : Prop where
  exclusive : Exclusive s.1
  names : ∀ m, s.2.unheld m = true → Names s m

variable {s s' : Kernel τ μ ν} {n n' : Notes τ μ ν}

theorem ownedSame (h : Owned (s,n)) (count : s'.count = s.count) (owner : s'.owner = s.owner) (holders : s'.holders = s.holders)
    (releasing : n'.releasing = n.releasing) (unheld : n'.unheld = n.unheld) : Owned (s',n') := by
  refine ⟨MutexThreads.untouchedExclusive h.exclusive ⟨count,holders⟩,fun m met => ?_⟩
  have names := h.names m (by rw [← unheld]; exact met)
  refine ⟨?_,?_⟩
  · simp only [holders,owner]
    exact names.holder
  · simp only [holders,owner,releasing]
    exact names.nobody

variable [DecidableEq τ] [DecidableEq μ] [DecidableEq ν] {m : μ}

omit [DecidableEq τ] [DecidableEq ν] in
theorem acquireOwned (h : Owned (s,n)) (free : ¬ 0 < s.count m) : Owned (acquire m s,n) := by
  refine ⟨acquireExclusive h.exclusive free,fun x met => ?_⟩
  by_cases same : x = m
  · subst same
    have none : s.holders x = [] := by
      rcases h.exclusive x with ⟨_,none⟩ | ⟨one,_⟩
      · exact none
      · rw [one] at free
        exact absurd (by decide) free
    refine ⟨fun t held => ?_,fun wrong => ?_⟩
    · simp only [acquire,Function.update_self,none,List.mem_singleton] at held ⊢
      rw [held]
    · simp [acquire] at wrong
  · obtain ⟨holder,nobody⟩ := h.names x met
    refine ⟨?_,?_⟩
    · simpa [acquire,same] using holder
    · simpa [acquire,same] using nobody

omit [DecidableEq ν] in
theorem releaseOwned (h : Owned (s,n)) (held : s.cpu.current ∈ s.holders m) : Owned (decrement m s,enters m s n) := by
  refine ⟨decrementExclusive h.exclusive held,fun x met => ?_⟩
  by_cases same : x = m
  · subst same
    refine ⟨fun t still => ?_,fun _ wrong => ?_⟩
    · rcases h.exclusive x with ⟨_,none⟩ | ⟨_,u,only⟩
      · rw [none] at held
        cases held
      · have only : s.holders x = [u] := only
        rw [only,List.mem_singleton] at held
        simp [decrement,only,held] at still
    · simp [enters] at wrong
  · obtain ⟨holder,nobody⟩ := h.names x met
    refine ⟨?_,?_⟩
    · simpa [decrement,same] using holder
    · simpa [decrement,enters,same] using nobody

omit [DecidableEq ν] in
theorem clearOwned (h : Owned (s,n)) : Owned ({s with owner := Function.update s.owner m none},leaves m s n) := by
  refine ⟨h.exclusive,fun x met => ?_⟩
  by_cases same : x = m
  · subst same
    have none : s.holders x = [] := by
      simp only [leaves,Function.update_self,Bool.and_eq_true,List.isEmpty_iff] at met
      exact met.2
    refine ⟨fun t held => ?_,fun _ _ => Function.update_self ..⟩
    have held : t ∈ s.holders x := held
    rw [none] at held
    cases held
  · have met : n.unheld x = true := by simpa [leaves,same] using met
    obtain ⟨holder,nobody⟩ := h.names x met
    refine ⟨?_,?_⟩
    · simpa [same] using holder
    · simpa [leaves,same] using nobody

theorem moveOwned {a b : Noted τ μ ν} (h : Owned a) (move : Move a b) : Owned b := by
  cases move with
  | other still => exact ownedSame h still.count still.owner still.holders rfl rfl
  | sleeps free ran =>
    have still := asleepStill ran
    exact ownedSame h still.count still.owner still.holders rfl rfl
  | @removes s _ n q ran =>
    obtain ⟨_,ep,first,still⟩ := wokenStill ran
    have notes : (removes q s n).releasing = n.releasing ∧ (removes q s n).unheld = n.unheld := by
      rw [removes,first]
      exact ⟨rfl,rfl⟩
    exact ownedSame h still.count still.owner still.holders notes.1 notes.2
  | gives q reason => exact ownedSame h rfl rfl rfl rfl rfl
  | returns waits => exact ownedSame h rfl rfl rfl rfl rfl
  | acquires free => exact acquireOwned h free
  | enters held => exact releaseOwned h held
  | leaves m => exact clearOwned h

end Invariant

section Runs
variable {τ μ ν : Type} [DecidableEq τ] [DecidableEq μ] [DecidableEq ν] {idle reaper : τ} {may : τ → Word → Bool}
  {m : Machine τ (Noted τ μ ν) (Proc μ ν) Int (Threads.Op τ μ ν) Fault}

theorem movesOwned {w : Noted τ μ ν} (moves : Relation.ReflTransGen Move (boot idle,noNotes) w) : Owned w := by
  induction moves with
  | refl => exact ⟨fun _ => Or.inl ⟨rfl,rfl⟩,fun _ _ => ⟨fun _ held => absurd held List.not_mem_nil,fun _ _ => rfl⟩⟩
  | tail _ move ih => exact moveOwned ih move

theorem ownerNamesHolder (run : (noted idle may).Reached (notedStart idle reaper) m) (x : μ) (met : m.shared.2.unheld x = true) :
    (∀ t ∈ m.shared.1.holders x, m.shared.1.owner x = some t) ∧
      (m.shared.1.holders x = [] → m.shared.2.releasing x = [] → m.shared.1.owner x = none) := by
  obtain ⟨holder,nobody⟩ := (movesOwned (reachedMoves run)).names x met
  exact ⟨holder,nobody⟩

end Runs

def again : List (Threads.Op Nat Unit Unit) :=
  later 2 (.create none true (some 2)) ++ later 5 .schedule ++ later 7 (.hold ()) ++ later 7 (.release ()) ++ later 7 (.hold ()) ++ later 6 .stop

theorem holderNamed : ∃ m : Machine Nat (Noted Nat Unit Unit) _ _ _ _, (noted 0 fun _ _ => true).Reached (notedStart 0 1) m ∧
    m.shared.1.holders () = [2] ∧ m.shared.1.owner () = some 2 := by
  have ran : ((noted 0 fun _ _ => true).play again (notedStart 0 1 : Machine Nat (Noted Nat Unit Unit) _ _ _ _)).toOption.map
      (fun m => (m.shared.1.holders (),m.shared.2.unheld ())) = some ([2],true) := by decide +kernel
  obtain ⟨m,run,seen⟩ := played ran
  obtain ⟨holders,met⟩ := Prod.mk.inj seen
  exact ⟨m,run,holders,(ownerNamesHolder run () met).1 2 (by rw [holders]; decide)⟩

def waited : List (Threads.Op Nat Unit Unit) :=
  later 2 (.create (some ⟨0,0,3⟩) true (some 2)) ++ later 4 .schedule ++ later 6 (.hold ()) ++ later 6
    (.create (some ⟨0,0,7⟩) true (some 3)) ++
    later 4 .schedule ++ later 6 (.hold ())

theorem ownerLost : ∃ m : Machine Nat (Kernel Nat Unit Unit) _ _ _ _, (kernel 0 fun _ _ => true).Reached (start 0 1) m ∧
    m.shared.holders () = [3] ∧ m.shared.owner () = none := by
  have ran : ((kernel 0 fun _ _ => true).play (waited ++ later 14 (.release ()) ++ later 27 (.waitOnQueue (.event ())) ++ later 13 .stop)
      (start 0 1 : Machine Nat (Kernel Nat Unit Unit) _ _ _ _)).toOption.map (fun m => (m.shared.holders (),m.shared.owner ())) = some
        ([3],none) := by
    decide +kernel
  obtain ⟨m,run,seen⟩ := played ran
  obtain ⟨holders,owner⟩ := Prod.mk.inj seen
  exact ⟨m,run,holders,owner⟩

end TskSw.MutexOwner
