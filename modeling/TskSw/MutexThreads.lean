import TskSw.Threads

/-! A mutex has at most one holder, also when threads wait with dispatching disabled and are
lost: the test and the increment of `mtx->count` are never separated by a switch. -/
namespace TskSw.MutexThreads
open CircularLists KernList ReadyQueue Coroutines Threads
open Preempt (Cpu Word bindOk)
open BlkIo (Fault)

variable {τ μ ν : Type} {s s' : Kernel τ μ ν} {t : τ} {k : Wq μ ν}

section Logic
variable {α β : Type}

def Exclusive (s : Kernel τ μ ν) : Prop := ∀ m, s.count m = 0 ∧ s.holders m = [] ∨ s.count m = 1 ∧ ∃ t, s.holders m = [t]

def logic : Logic τ (Kernel τ μ ν) (Proc μ ν) Int Fault where
  inv := Exclusive
  rely _ _ _ := True
  refl _ _ := trivial
  trans _ _ _ _ _ _ := trivial
  pre _ _ := Exclusive
  post _ _ _ _ := Exclusive
  faults _ := True

abbrev Wp (t : τ) (x : Prog τ μ ν α) (s : Kernel τ μ ν) : Prop := wp logic (fun s => s.cpu.current) t x (fun _ => Exclusive) s

def Keeps (x : Prog τ μ ν α) : Prop := ∀ t s, Exclusive s → Wp t x s

variable {x : Prog τ μ ν α} {f : α → Prog τ μ ν β}

theorem wpThen (h : Wp t x s) (rest : ∀ a, Keeps (f a)) : Wp t (x >>= f) s := wpSeq h fun a s' exclusive => rest a t s' exclusive

theorem keepsThen (first : Keeps x) (rest : ∀ a, Keeps (f a)) : Keeps (x >>= f) := fun t s exclusive => wpThen (first t s exclusive) rest

theorem keepsPure (a) : Keeps (pure a : Prog τ μ ν α) := fun _ _ => id

theorem keepsRead {f : Kernel τ μ ν → Prog τ μ ν β} (rest : ∀ s, Keeps (f s)) :
    Keeps (read >>= f) := fun t s exclusive => wpRead (rest s t s exclusive)

theorem keepsIf {c : Prop} [Decidable c] {x y : Prog τ μ ν α} (pos : Keeps x) (neg : Keeps y) : Keeps (if c then x else y) :=
  fun t s exclusive => wpIf (fun _ => pos t s exclusive) fun _ => neg t s exclusive

theorem keepsInvoke (p : Proc μ ν) : Keeps (invoke p : Prog τ μ ν Int) := fun _ _ exclusive => wpInvoke exclusive fun _ _ => id

theorem keepsSwitch : Keeps (switch : Prog τ μ ν Unit) := fun _ _ exclusive => ⟨exclusive,fun _ inv _ _ => inv⟩

structure Untouched (s s' : Kernel τ μ ν) : Prop where
  count : s'.count = s.count
  holders : s'.holders = s.holders

theorem untouchedExclusive (h : Exclusive s) (same : Untouched s s') : Exclusive s' := by
  intro m
  rw [same.count,same.holders]
  exact h m

theorem keepsRun {g : Kernel τ μ ν → Except Fault (Kernel τ μ ν)} (same : ∀ s s', g s = .ok s' → Untouched s s') : Keeps (run g) :=
  fun _ _ exclusive => wpRun (fun s' ran => ⟨fun _ _ => trivial,untouchedExclusive exclusive (same _ s' ran)⟩) fun _ _ => trivial

theorem keepsChange {g : Kernel τ μ ν → Kernel τ μ ν} (same : ∀ s, Untouched s (g s)) : Keeps (change g) := keepsRun fun s s' ran => by
  cases ran
  exact same s

end Logic

section Functions
variable [DecidableEq τ] {e : Ent τ}

theorem removeRuns (ok : removeThread t s = .ok s') : ∃ q, s' = s.setRdq q := by
  obtain ⟨q,_,ok⟩ := bindOk ok
  cases ok
  exact ⟨q,rfl⟩

theorem createUntouched {attrp memalign thr} (ok : Threads.thrCreateThread attrp memalign thr s = .ok s') :
    Untouched s s' := by
  obtain ⟨⟨rc,q⟩,_,ok⟩ := bindOk ok
  dsimp only at ok
  split at ok
  · cases ok
    exact ⟨rfl,rfl⟩
  · split at ok <;> cases ok <;> exact ⟨rfl,rfl⟩

theorem leaveUntouched (ok : leaveReady s = .ok s') : Untouched s s' := by
  obtain ⟨s₁,removed,ok⟩ := bindOk ok
  obtain ⟨q,rfl⟩ := removeRuns removed
  cases ok
  exact ⟨rfl,rfl⟩

variable [DecidableEq μ] [DecidableEq ν]

theorem asleepUntouched (ok : fallAsleep k e s = .ok s') : Untouched s s' ∧ s'.cpu.current = s.cpu.current := by
  obtain ⟨s₁,removed,ok⟩ := bindOk ok
  obtain ⟨q,rfl⟩ := removeRuns removed
  cases ok
  exact ⟨⟨rfl,rfl⟩,rfl⟩

theorem wokenUntouched (ok : wakeOne k s = .ok s') : Untouched s s' := by
  unfold wakeOne at ok
  split at ok
  · cases ok
  · split at ok
    · cases ok
    · obtain ⟨s₁,added,ok⟩ := bindOk ok
      obtain ⟨q,_,added⟩ := bindOk added
      cases added
      cases ok
      exact ⟨rfl,rfl⟩

end Functions

section Programs
variable [DecidableEq τ] [DecidableEq μ] [DecidableEq ν] {idle reaper : τ} {m : μ}

omit [DecidableEq μ] [DecidableEq ν] in
theorem scheduleKeeps : Keeps (schedSchedule idle : Prog τ μ ν Unit) := by
  refine keepsRead fun _ => keepsThen (keepsRun fun s s' ok => ?_) fun _ => keepsRead fun _ => keepsIf (keepsPure ())
    (keepsThen keepsSwitch fun _ => keepsChange fun _ => ⟨rfl,rfl⟩)
  obtain ⟨cpu,_,ok⟩ := bindOk ok
  cases ok
  exact ⟨rfl,rfl⟩

omit [DecidableEq μ] [DecidableEq ν] in
theorem delayKeeps : Keeps (schedDelayDisptach idle : Prog τ μ ν Unit) :=
  keepsRead fun _ => keepsIf (keepsPure ()) (keepsIf (keepsPure ()) (keepsIf (keepsPure ())
    (keepsThen (keepsChange fun _ => ⟨rfl,rfl⟩) fun _ => scheduleKeeps)))

theorem wakeupKeeps (k) (reason : Reason) : Keeps (wqueWakeup idle k reason : Prog τ μ ν Unit) :=
  keepsRead fun _ => keepsIf (keepsPure ())
    (keepsThen (keepsInvoke _) fun _ => keepsThen (keepsChange fun _ => ⟨rfl,rfl⟩) fun _ => scheduleKeeps)

theorem waitKeeps (k : Wq μ ν) : Keeps (wqueWaitOnQueue idle k : Prog τ μ ν Reason) :=
  keepsRead fun _ => keepsThen (keepsRun fun _ _ ok => (asleepUntouched ok).1) fun _ => keepsThen scheduleKeeps fun _ =>
    keepsThen (keepsChange fun _ => ⟨rfl,rfl⟩) fun _ => keepsRead fun _ => keepsPure _

omit [DecidableEq τ] [DecidableEq ν] in
theorem acquireExclusive (h : Exclusive s) (free : ¬ 0 < s.count m) : Exclusive (acquire m s) := by
  intro x
  by_cases same : x = m
  · subst same
    rcases h x with ⟨zero,none⟩ | ⟨one,_⟩
    · exact Or.inr ⟨by simp [acquire,zero],s.cpu.current,by simp [acquire,none]⟩
    · rw [one] at free
      exact absurd (by decide) free
  · simpa [acquire,same] using h x

omit [DecidableEq ν] in
theorem decrementExclusive (h : Exclusive s) (held : s.cpu.current ∈ s.holders m) : Exclusive (decrement m s) := by
  intro x
  by_cases same : x = m
  · subst same
    rcases h x with ⟨_,none⟩ | ⟨one,t,only⟩
    · rw [none] at held
      cases held
    · rw [only,List.mem_singleton] at held
      exact Or.inl ⟨by simp [decrement,one],by simp [decrement,only,held]⟩
  · simpa [decrement,same] using h x

theorem releaseExclusive (h : Exclusive s) (held : s.cpu.current ∈ s.holders m) : Wp t (mutexRelease idle m) s := by
  refine wpBind (wpRunOk rfl (fun _ _ => trivial) (wpThen (wakeupKeeps _ _ t _ (decrementExclusive h held)) fun _ => ?_))
  exact keepsChange fun _ => ⟨rfl,rfl⟩

omit [DecidableEq τ] [DecidableEq ν] in
theorem tryHoldKeeps (m) : Keeps (mutexTryHold m : Prog τ μ ν Int) := fun _ _ exclusive =>
  wpRead (wpIf (fun _ => exclusive) fun free => wpBind (wpRunOk rfl (fun _ _ => trivial) (acquireExclusive exclusive free)))

theorem mutexHoldKeeps (may : τ → Word → Bool) (m : μ) : Keeps (body idle may (.mutexHold m) : Prog τ μ ν Int) := by
  intro t s exclusive
  refine wpRead (wpIf (fun _ => ?_) fun free => wpBind (wpRunOk rfl (fun _ _ => trivial) (acquireExclusive exclusive free)))
  exact keepsThen (waitKeeps (.mutex m)) (fun _ => keepsIf (keepsPure _) (keepsInvoke _)) t s exclusive

theorem eventKeeps (h : Exclusive s) (held : s.cpu.current ∈ s.holders m) : Wp t (wqueWaitOnEventWithMutex idle k m) s := by
  refine wpRead (wpBind (wpRun (fun s' ok => ⟨fun _ _ => trivial,?_⟩) fun _ _ => trivial))
  obtain ⟨same,current⟩ := asleepUntouched ok
  refine wpThen (releaseExclusive (untouchedExclusive h same) (by rw [current,same.holders]; exact held)) fun _ => ?_
  exact keepsThen scheduleKeeps fun _ => keepsThen (keepsInvoke _) fun _ => keepsThen (keepsChange fun _ => ⟨rfl,rfl⟩) fun _ =>
    keepsRead fun _ => keepsPure _

theorem handleKeeps (idle : τ) (op : Threads.Op τ μ ν) : Keeps (handle idle op) := by
  cases op with
  | create attrp memalign thr => exact keepsRead fun _ => keepsIf (keepsRun fun _ _ ok => createUntouched ok) (keepsPure ())
  | schedule => exact scheduleKeeps
  | delayDisptach => exact delayKeeps
  | rotateQueue | preempt => exact keepsChange fun _ => ⟨rfl,rfl⟩
  | wakeup k reason => exact keepsIf (keepsPure ()) (wakeupKeeps k reason)
  | tryHold m => exact keepsThen (tryHoldKeeps m) fun _ => keepsPure ()
  | release m => exact fun t s exclusive => wpRead (wpIf (fun held => releaseExclusive exclusive held) fun _ => exclusive)
  | hold | waitOnQueue | waitOnEvent | exit | stop => exact keepsPure ()

theorem performKeeps (idle : τ) (may : τ → Word → Bool) (op : Threads.Op τ μ ν) : Keeps (perform idle may op) := by
  have handles := handleKeeps idle op
  cases op with
  | hold m => exact keepsRead fun _ => keepsIf (keepsThen (keepsInvoke _) fun _ => keepsPure ()) (keepsPure ())
  | waitOnQueue k => exact keepsRead fun _ => keepsIf (keepsThen (waitKeeps k) fun _ => keepsPure ()) (keepsPure ())
  | waitOnEvent k m =>
    exact fun t s exclusive => wpRead (wpIf (fun allowed => wpThen (eventKeeps exclusive allowed.2.2) fun _ => keepsPure ()) fun _ => exclusive)
  | create | schedule | delayDisptach | rotateQueue | wakeup | preempt | tryHold | release | exit | stop => exact handles

theorem exitKeeps : Keeps (thrExitThread idle : Prog τ μ ν Unit) := by
  refine keepsRead fun _ => keepsThen (keepsRun fun _ _ ok => leaveUntouched ok) fun _ => keepsThen ?_ fun _ =>
    keepsThen (keepsInvoke _) fun _ => scheduleKeeps
  exact keepsRead fun _ => keepsIf (keepsPure ()) (keepsThen (keepsChange fun _ => ⟨rfl,rfl⟩) fun _ => wakeupKeeps _ _)

theorem destroyKeeps (thr) : Keeps (thrDestroyThread thr : Prog τ μ ν Int) :=
  keepsRead fun _ => keepsIf (keepsThen (keepsChange fun _ => ⟨rfl,rfl⟩) fun _ => keepsPure _)
    (keepsThen (keepsChange fun _ => ⟨rfl,rfl⟩) fun _ => keepsThen (keepsInvoke _) fun _ => keepsThen (keepsInvoke _) fun _ => keepsPure _)

theorem bodyKeeps (may : τ → Word → Bool) (p : Proc μ ν) : Keeps (body idle may p : Prog τ μ ν Int) := by
  cases p with
  | wakeAll k =>
    exact keepsRead fun _ => keepsIf (keepsPure _) (keepsThen (keepsRun fun _ _ ok => wokenUntouched ok) fun _ => keepsInvoke _)
  | mutexHold m => exact mutexHoldKeeps may m
  | handlers =>
    refine fun t s exclusive => wpPick fun op => ?_
    have loop := keepsThen (handleKeeps idle op) (fun _ => keepsInvoke (τ := τ) .handlers) t s exclusive
    cases op
    case stop => exact exclusive
    all_goals exact loop
  | blocking =>
    refine fun t s exclusive => wpPick fun op => ?_
    have loop := keepsThen (performKeeps idle may op) (fun _ => keepsInvoke (τ := τ) .blocking) t s exclusive
    cases op
    case stop => exact keepsRead (fun _ => keepsIf (keepsPure _) (keepsInvoke _)) t s exclusive
    all_goals exact loop
  | user =>
    refine fun t s exclusive => wpPick fun op => ?_
    have loop := keepsThen (performKeeps idle may op) (fun _ => keepsInvoke (τ := τ) .user) t s exclusive
    cases op
    case exit => exact keepsThen exitKeeps (fun _ => keepsInvoke _) t s exclusive
    all_goals exact loop
  | forever | reaper => exact keepsThen (keepsInvoke _) fun _ => keepsInvoke _
  | reap => exact keepsThen (keepsInvoke _) fun _ => keepsThen (waitKeeps _) fun _ => keepsThen (keepsInvoke _) fun _ => keepsInvoke _
  | drain =>
    refine keepsRead fun _ => keepsIf (keepsPure _) ?_
    split
    · exact fun _ _ _ => trivial
    · exact keepsThen (keepsChange fun _ => ⟨rfl,rfl⟩) fun _ => keepsThen (destroyKeeps _) fun _ => keepsInvoke _

omit [DecidableEq μ] [DecidableEq ν] in
theorem mainKeeps (t) : Keeps (main idle reaper t : Prog τ μ ν Unit) := keepsThen (keepsInvoke _) fun _ => keepsPure ()

theorem mutexesExclude {may : τ → Word → Bool} {m : Machine τ (Kernel τ μ ν) (Proc μ ν) Int (Threads.Op τ μ ν) Fault}
    (run : (kernel idle may).Reached (start idle reaper) m) (switching : m.switching = true) (x : μ) :
    m.shared.count x = 0 ∧ m.shared.holders x = [] ∨ m.shared.count x = 1 ∧ ∃ t, m.shared.holders x = [t] := by
  have weaken : ∀ t s, Exclusive s → wp logic (fun s => s.cpu.current) t (main idle reaper t : Prog τ μ ν Unit) (fun _ _ => True) s :=
    fun t s exclusive => wpMono (mainKeeps t t s exclusive) fun _ _ _ => trivial
  have begins : Good logic (kernel idle may) (start idle reaper : Machine τ (Kernel τ μ ν) _ _ _ _) :=
    ⟨weaken _ _ fun _ => Or.inl ⟨rfl,rfl⟩,fun t _ s inv _ _ => weaken t s inv⟩
  exact switchInv (reachedGood (fun t p s pre => bodyKeeps may p t s pre) begins run) switching x

end Programs

def contention : List (Threads.Op Nat Unit Unit) :=
  later 2 (.create none true (some 2)) ++ later 4 (.create none true (some 3)) ++ later 4 .schedule ++ later 6 (.hold ()) ++ later 6 .rotateQueue ++
    later 3 .schedule ++ later 6 (.hold ()) ++ later 9 .stop

theorem oneHolder : ∃ m : Machine Nat (Kernel Nat Unit Unit) _ _ _ _, (kernel 0 fun _ _ => true).Reached (start 0 1) m ∧ m.switching = true ∧
    m.shared.status 3 = .wait ∧ m.shared.count () = 1 ∧ ∃ t, m.shared.holders () = [t] := by
  have ran : ((kernel 0 fun _ _ => true).play contention (start 0 1 : Machine Nat (Kernel Nat Unit Unit) _ _ _ _)).toOption.map
      (fun m => (m.switching,m.shared.status 3,m.shared.count ())) = some (true,.wait,1) := by decide +kernel
  obtain ⟨m,run,seen⟩ := played ran
  obtain ⟨switching,status,count⟩ : m.switching = true ∧ m.shared.status 3 = .wait ∧ m.shared.count () = 1 := by simpa using seen
  rcases mutexesExclude run switching () with ⟨zero,_⟩ | held
  · rw [count] at zero
    cases zero
  · exact ⟨m,run,switching,status,held⟩

end TskSw.MutexThreads
