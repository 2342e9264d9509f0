import TskSw.NotedThreads

/-! The reasons that waits return. A queue has one reason for all of its waits, and a wait reads
it when its thread runs again, so it returns the reason of the call of `wque_wakeup` that removed
its entry only as long as no later call has stored another one. -/
namespace TskSw.WakeupReasons
open CircularLists KernList Coroutines Threads NotedThreads
open Preempt (Word)
open BlkIo (Fault)
open Function (update update_of_ne update_self)

variable {τ μ ν : Type} {q : Wq μ ν} {ep : Ent τ}

section Queues
variable {waits : Links (Node (Wq μ ν) (Ent τ))} {waiting : Ent τ → Option (Wq μ ν)}

def Queued (waits : Links (Node (Wq μ ν) (Ent τ))) (waiting : Ent τ → Option (Wq μ ν)) : Prop :=
  ∃ lists, Forest waits lists ∧ ∀ q, ∀ ep ∈ lists q, waiting ep = some q

theorem firstWaits (h : Queued waits waiting) (first : listRefTop waits (.head q) = .node ep) : waiting ep = some q := by
  obtain ⟨lists,forest,queued⟩ := h
  rw [listRefTop,forestFirst forest] at first
  cases here : lists q with
  | nil =>
    rw [here] at first
    cases first
  | cons top rest =>
    rw [here] at first
    cases first
    exact queued q ep (by rw [here]; exact List.mem_cons_self)

variable [DecidableEq τ] [DecidableEq μ] [DecidableEq ν]

theorem queuedAdd (h : Queued waits waiting) (free : waiting ep = none) :
    Queued (listAdd (initListNode (initListNode waits (.node ep)) (.node ep)) (.head q) (.node ep)) (update waiting ep (some q)) := by
  obtain ⟨lists,forest,queued⟩ := h
  have fresh : ∀ k, ep ∉ lists k := fun k member => nomatch free.symm.trans (queued k ep member)
  have alone := (forestAlone forest).mpr fresh
  rw [isolateAlone alone,isolateAlone alone]
  refine ⟨_,addForest forest fresh,fun k e member => ?_⟩
  rcases appendedMem.mp member with old | ⟨rfl,rfl⟩
  · have other : e ≠ ep := fun same => fresh k (same ▸ old)
    rw [update_of_ne other]
    exact queued k e old
  · exact update_self ..

theorem queuedDel (h : Queued waits waiting) (ep : Ent τ) (w : Option (Wq μ ν)) :
    Queued (initListNode (listDel waits (.node ep)) (.node ep)) (update waiting ep w) ∧
      initListNode (listDel (listDel waits (.node ep)) (.node ep)) (.node ep) = initListNode (listDel waits (.node ep)) (.node ep) := by
  obtain ⟨lists,forest,queued⟩ := h
  have gone := delForest forest ep
  have alone := (forestAlone gone).mpr fun k member => ((erasedMem forest).mp member).2 rfl
  rw [show listDel (listDel waits (.node ep)) (.node ep) = _ from unlinkAlone alone,isolateAlone alone]
  refine ⟨⟨_,gone,fun k e member => ?_⟩,rfl⟩
  obtain ⟨old,other⟩ := (erasedMem forest).mp member
  rw [update_of_ne other]
  exact queued k e old

end Queues

section Invariant

structure Reasons (s : Noted τ μ ν) : Prop where
  queued : Queued s.1.waits s.2.waiting
  removed : ∀ q, ∀ ep ∈ s.2.removed q, s.2.waiting ep = some q
  coming : ∀ q ep r, s.2.waiting ep = some q → s.2.given ep = some r → ep ∈ s.2.coming q ∧ (s.2.steady q = true → s.1.reason q = r)
  results : ∀ q, s.2.steady q = true → ∀ w ∈ s.2.results q, w.1 = some w.2

variable [DecidableEq τ] [DecidableEq μ] [DecidableEq ν] {s s' : Kernel τ μ ν} {n : Notes τ μ ν} {k : Wq μ ν}

theorem sleepsReasons (h : Reasons (s,n)) (free : n.waiting ep = none) (ran : fallAsleep q ep s = .ok s') : Reasons (s',sleeps q ep n) := by
  have still := asleepStill ran
  refine ⟨?_,fun k e member => ?_,fun k e r waits given => ?_,h.results⟩
  · rw [still.waits]
    exact queuedAdd h.queued free
  · have old : n.waiting e = some k := h.removed k e member
    have other : e ≠ ep := fun same => nomatch (same ▸ old).symm.trans free
    exact (update_of_ne other ..).trans old
  · by_cases same : e = ep
    · simp [sleeps,same] at given
    · simp only [sleeps,update_of_ne same] at waits given
      rw [still.reason]
      exact h.coming k e r waits given

theorem removesReasons (h : Reasons (s,n)) (ran : wakeOne q s = .ok s') : Reasons (s',removes q s n) := by
  obtain ⟨_,ep,first,still⟩ := wokenStill ran
  obtain ⟨gone,twice⟩ := queuedDel h.queued ep (n.waiting ep)
  have notes : removes q s n = {n with removed := update n.removed q (ep :: n.removed q)} := by rw [removes,first]
  rw [notes]
  refine ⟨?_,fun k e member => ?_,fun k e r waits given => ?_,h.results⟩
  · rw [Function.update_eq_self] at gone
    rw [still.waits]
    exact twice ▸ gone
  · by_cases same : k = q
    · subst same
      simp only [update_self] at member
      rcases List.mem_cons.mp member with rfl | old
      · exact firstWaits h.queued first
      · exact h.removed k e old
    · simp only [update_of_ne same] at member
      exact h.removed k e member
  · rw [still.reason]
    exact h.coming k e r waits given

omit [DecidableEq τ] in
theorem narrowed {steady : Wq μ ν → Bool} {b} (met : update steady q (steady q && b) k = true) : steady k = true ∧ (k = q → b = true) := by
  by_cases same : k = q
  · subst same
    rw [update_self,Bool.and_eq_true] at met
    exact ⟨met.1,fun _ => met.2⟩
  · rw [update_of_ne same] at met
    exact ⟨met,fun wrong => absurd wrong same⟩

theorem givesReasons (h : Reasons (s,n)) (q : Wq μ ν) (reason : Reason) :
    Reasons ({s with reason := update s.reason q reason},gives q reason s n) := by
  refine ⟨h.queued,fun k e member => ?_,fun k e r waits given => ?_,fun k met => h.results k (narrowed met).1⟩
  · by_cases same : k = q
    · simp [gives,same] at member
    · simp only [gives,update_of_ne same] at member
      exact h.removed k e member
  · simp only [gives] at waits given ⊢
    split at given
    · -- The entry is one that this call removed.
      rename_i member
      obtain rfl : k = q := Option.some.inj (waits.symm.trans (h.removed q e member))
      refine ⟨?_,fun _ => ?_⟩
      · rw [update_self]
        exact List.mem_append_left _ member
      · rw [update_self]
        exact Option.some.inj given
    · obtain ⟨member,kept⟩ := h.coming k e r waits given
      by_cases same : k = q
      · subst same
        refine ⟨?_,fun met => ?_⟩
        · rw [update_self]
          exact List.mem_append_right _ member
        · rw [update_self]
          have equal : reason = s.reason k := by simpa [List.ne_nil_of_mem member] using (narrowed met).2 rfl
          exact equal.trans (kept (narrowed met).1)
      · refine ⟨?_,fun met => ?_⟩
        · rw [update_of_ne same]
          exact member
        · rw [update_of_ne same]
          exact kept (narrowed met).1

theorem returnsReasons (h : Reasons (s,n)) (waits : n.waiting ep = some q) : Reasons (wqueRemoveEntry ep s,returns q ep s n) := by
  refine ⟨(queuedDel h.queued ep none).1,fun k e member => ?_,fun k e r asleep given => ?_,fun k met w member => ?_⟩
  · by_cases same : k = q
    · subst same
      simp only [returns,update_self,List.mem_filter,decide_eq_true_eq] at member
      exact (update_of_ne member.2 ..).trans (h.removed k e member.1)
    · simp only [returns,update_of_ne same] at member
      have old : n.waiting e = some k := h.removed k e member
      have other : e ≠ ep := fun equal => same (Option.some.inj ((equal ▸ old).symm.trans waits))
      exact (update_of_ne other ..).trans old
  · by_cases same : e = ep
    · simp [returns,same] at asleep
    · simp only [returns,update_of_ne same] at asleep
      obtain ⟨member,kept⟩ := h.coming k e r asleep given
      refine ⟨?_,fun met => kept (narrowed met).1⟩
      by_cases here : k = q
      · subst here
        simp only [returns,update_self,List.mem_filter,decide_eq_true_eq]
        exact ⟨member,same⟩
      · simp only [returns,update_of_ne here]
        exact member
  · obtain ⟨steady,noted⟩ := narrowed met
    by_cases same : k = q
    · subst same
      simp only [returns,update_self] at member
      rcases List.mem_cons.mp member with rfl | old
      · obtain ⟨r,given⟩ := Option.isSome_iff_exists.mp (noted rfl)
        exact given.trans (congrArg some ((h.coming k ep r waits given).2 steady).symm)
      · exact h.results k steady w old
    · simp only [returns,update_of_ne same] at member
      exact h.results k steady w member

theorem moveReasons {a b : Noted τ μ ν} (h : Reasons a) (move : Move a b) : Reasons b := by
  cases move with
  | other still =>
    refine ⟨?_,h.removed,?_,h.results⟩
    · rw [still.waits]
      exact h.queued
    · rw [still.reason]
      exact h.coming
  | sleeps free ran => exact sleepsReasons h free ran
  | removes ran => exact removesReasons h ran
  | gives q reason => exact givesReasons h q reason
  | returns waits => exact returnsReasons h waits
  | acquires | enters | leaves => exact ⟨h.queued,h.removed,h.coming,h.results⟩

end Invariant

section Runs
variable [DecidableEq τ] [DecidableEq μ] [DecidableEq ν] {idle reaper : τ} {may : τ → Word → Bool}
  {m : Machine τ (Noted τ μ ν) (Proc μ ν) Int (Threads.Op τ μ ν) Fault}

theorem movesReasons {w : Noted τ μ ν} (moves : Relation.ReflTransGen Move (boot idle,noNotes) w) : Reasons w := by
  induction moves with
  | refl => exact ⟨⟨_,forestStart,nofun⟩,nofun,nofun,fun _ _ => nofun⟩
  | tail _ move ih => exact moveReasons ih move

theorem reasonsReturned (run : (noted idle may).Reached (notedStart idle reaper) m) (q : Wq μ ν) (met : m.shared.2.steady q = true) :
    ∀ w ∈ m.shared.2.results q, w.1 = some w.2 := (movesReasons (reachedMoves run)).results q met

end Runs

def wokenOnce : List (Threads.Op Nat Unit Unit) :=
  later 2 (.create (some ⟨0,0,3⟩) true (some 2)) ++ later 5 .schedule ++ later 7 (.waitOnQueue (.event ())) ++ later 14
    (.wakeup (.event ()) .destroy) ++
    later 22 .stop

theorem destroyReturned : ∃ m : Machine Nat (Noted Nat Unit Unit) _ _ _ _, (noted 0 fun _ _ => true).Reached (notedStart 0 1) m ∧
    ∃ given, m.shared.2.results (.event ()) = [(given,.destroy)] ∧ given = some .destroy := by
  have ran : ((noted 0 fun _ _ => true).play wokenOnce (notedStart 0 1 : Machine Nat (Noted Nat Unit Unit) _ _ _ _)).toOption.map
      (fun m => ((m.shared.2.results (.event ())).map Prod.snd,m.shared.2.steady (.event ()))) = some ([.destroy],true) := by decide +kernel
  obtain ⟨m,run,seen⟩ := played ran
  obtain ⟨returned,met⟩ := Prod.mk.inj seen
  obtain ⟨⟨given,_⟩,only,rfl⟩ := List.map_eq_singleton_iff.mp returned
  exact ⟨m,run,given,only,reasonsReturned run _ met _ (by rw [only]; exact List.mem_singleton_self _)⟩

-- Thread 4 wakes thread 2 with one reason and waits in the queue itself. Thread 3 wakes it with
-- the other before thread 2, which is the least urgent, runs again.
def wokenTwice : List (Threads.Op Nat Unit Unit) :=
  later 2 (.create (some ⟨0,0,3⟩) true (some 2)) ++ later 5 .schedule ++ later 7 (.waitOnQueue (.event ())) ++ later 14
    (.create (some ⟨0,0,5⟩) true (some 3)) ++
    later 5 (.create (some ⟨0,0,7⟩) true (some 4)) ++ later 5 .schedule ++ later 7 (.wakeup (.event ()) .destroy) ++ later 15
      (.waitOnQueue (.event ())) ++
    later 11 (.wakeup (.event ()) .wakeup) ++ later 22 (.waitOnQueue (.event ())) ++ later 14 (.waitOnQueue (.event ())) ++ later 16 .stop

theorem destroyMissed : ∃ m : Machine Nat (Noted Nat Unit Unit) _ _ _ _, (noted 0 fun _ _ => true).Reached (notedStart 0 1) m ∧
    (some .destroy,.wakeup) ∈ m.shared.2.results (.event ()) := by
  have ran : ((noted 0 fun _ _ => true).play wokenTwice (notedStart 0 1 : Machine Nat (Noted Nat Unit Unit) _ _ _ _)).toOption.map
      (fun m => decide ((some .destroy,.wakeup) ∈ m.shared.2.results (.event ()))) = some true := by decide +kernel
  obtain ⟨m,run,seen⟩ := played ran
  exact ⟨m,run,of_decide_eq_true seen⟩

end TskSw.WakeupReasons
