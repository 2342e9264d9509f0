import TskSw.MutexThreads
import TskSw.Annotations
import Mathlib.Logic.Relation

/-! The kernel with notes: who is inside `mutex_release`, which `wque_wakeup` removed the entry
of a wait, and what the wait returned. With the notes left out it is the kernel again, and its
stores are moves of a few kinds. -/
namespace TskSw.NotedThreads
open CircularLists KernList ReadyQueue Coroutines Threads Annotations
open Preempt (Cpu Word tiReferPreemptCount tiReferIrqCount bindOk)
open BlkIo (Fault)
open Function (update update_of_ne update_self)

structure Notes (τ μ ν : Type) where
  -- Threads inside `mutex_release`, and whether none of them cleared the owner of a mutex that was held.
  releasing : μ → List τ
  unheld : μ → Bool
  -- The queue of a wait that has not returned, and the reason of the call that removed its entry.
  waiting : Ent τ → Option (Wq μ ν)
  given : Ent τ → Option Reason
  -- Entries that a call of `wque_wakeup` removed: before it stored its reason, and after that until the wait returns.
  removed : Wq μ ν → List (Ent τ)
  coming : Wq μ ν → List (Ent τ)
  -- For each wait on the queue that returned: the reason given and the reason returned.
  results : Wq μ ν → List (Option Reason × Reason)
  steady : Wq μ ν → Bool

abbrev Noted (τ μ ν : Type) := Kernel τ μ ν × Notes τ μ ν
abbrev NotedProg (τ μ ν α : Type) := Co (Noted τ μ ν) (Proc μ ν) Int (Op τ μ ν) Fault α

variable {τ μ ν : Type} {frames : List Frame} {t : τ} {s : Noted τ μ ν}

section Notes
variable [DecidableEq τ] [DecidableEq μ] [DecidableEq ν]

def noNotes : Notes τ μ ν := ⟨fun _ => [],fun _ => true,fun _ => none,fun _ => none,fun _ => [],fun _ => [],fun _ => [],fun _ => true⟩

def enters (m : μ) (s : Kernel τ μ ν) (n : Notes τ μ ν) : Notes τ μ ν :=
    {n with releasing := update n.releasing m (s.cpu.current :: n.releasing m)}

def leaves (m : μ) (s : Kernel τ μ ν) (n : Notes τ μ ν) : Notes τ μ ν :=
  {n with releasing := update n.releasing m ((n.releasing m).erase s.cpu.current),
          unheld := update n.unheld m (n.unheld m && (s.holders m).isEmpty)}

def sleeps (q : Wq μ ν) (ep : Ent τ) (n : Notes τ μ ν) : Notes τ μ ν :=
  {n with waiting := update n.waiting ep (some q), given := update n.given ep none}

def removes (q : Wq μ ν) (s : Kernel τ μ ν) (n : Notes τ μ ν) : Notes τ μ ν :=
  match listRefTop s.waits (.head q) with
  | .head _ => n
  | .node ep => {n with removed := update n.removed q (ep :: n.removed q)}

def gives (q : Wq μ ν) (reason : Reason) (s : Kernel τ μ ν) (n : Notes τ μ ν) : Notes τ μ ν :=
  {n with given := fun ep => if ep ∈ n.removed q then some reason else n.given ep,
          removed := update n.removed q [], coming := update n.coming q (n.removed q ++ n.coming q),
          steady := update n.steady q (n.steady q && (decide (reason = s.reason q) || (n.coming q).isEmpty))}

def returns (q : Wq μ ν) (ep : Ent τ) (s : Kernel τ μ ν) (n : Notes τ μ ν) : Notes τ μ ν :=
  {n with waiting := update n.waiting ep none, removed := update n.removed q ((n.removed q).filter (· ≠ ep)),
          coming := update n.coming q ((n.coming q).filter (· ≠ ep)),
          results := update n.results q ((n.given ep,s.reason q) :: n.results q),
          steady := update n.steady q (n.steady q && (n.given ep).isSome)}

end Notes

section Programs
variable [DecidableEq τ] [DecidableEq μ] [DecidableEq ν] (idle : τ)

def marked (f : Kernel τ μ ν → Kernel τ μ ν) (note : Kernel τ μ ν → Notes τ μ ν → Notes τ μ ν) : NotedProg τ μ ν Unit :=
    mark (fun s => .ok (f s)) note

def notedWakeup (q : Wq μ ν) (reason : Reason) : NotedProg τ μ ν Unit := do
  let s ← lift read
  if listIsEmpty s.waits (.head q) then pure ()
  else do
    let _ ← lift (invoke (.wakeAll q))
    marked (fun s => {s with reason := update s.reason q reason}) (gives q reason)
    lift (schedSchedule idle)

def notedWaitOnQueue (q : Wq μ ν) : NotedProg τ μ ν Reason := do
  let s ← lift read
  let ep := (s.cpu.current,Frame.waitOnQueue)
  mark (fallAsleep q ep) fun _ => sleeps q ep
  lift (schedSchedule idle)
  marked (wqueRemoveEntry ep) (returns q ep)
  let s ← lift read
  pure (s.reason q)

def notedRelease (m : μ) : NotedProg τ μ ν Unit := do
  marked (decrement m) (enters m)
  notedWakeup idle (.mutex m) .wakeup
  marked (fun s => {s with owner := update s.owner m none}) (leaves m)

def notedWaitOnEvent (q : Wq μ ν) (m : μ) : NotedProg τ μ ν Reason := do
  let s ← lift read
  let ep := (s.cpu.current,Frame.waitOnEvent)
  mark (fallAsleep q ep) fun _ => sleeps q ep
  notedRelease idle m
  lift (schedSchedule idle)
  let _ ← lift (invoke (.mutexHold m))
  marked (wqueRemoveEntry ep) (returns q ep)
  let s ← lift read
  pure (s.reason q)

def notedAddExitThread (thr : τ) : NotedProg τ μ ν Unit := do
  let s ← lift read
  if s.status thr ≠ .exit then pure ()
  else do
    lift (change (thrAddThreadQueue thr))
    notedWakeup idle .reaper .wakeup

def notedExit : NotedProg τ μ ν Unit := do
  let s ← lift read
  lift (run leaveReady)
  notedAddExitThread idle s.cpu.current
  let _ ← lift (invoke .handlers)
  lift (schedSchedule idle)

def notedHandle : Op τ μ ν → NotedProg τ μ ν Unit
  | .wakeup q reason => if q = .reaper then pure () else notedWakeup idle q reason
  | .release m => do
      let s ← lift read
      if s.cpu.current ∈ s.holders m then notedRelease idle m else pure ()
  | op => lift (handle idle op)

def notedPerform (may : τ → Word → Bool) : Op τ μ ν → NotedProg τ μ ν Unit
  | .waitOnQueue q => do
      let s ← lift read
      if may s.cpu.current s.cpu.word ∧ q ≠ .reaper then do
        let _ ← notedWaitOnQueue idle q
        pure ()
      else pure ()
  | .waitOnEvent q m => do
      let s ← lift read
      if may s.cpu.current s.cpu.word ∧ q ≠ .reaper ∧ s.cpu.current ∈ s.holders m then do
        let _ ← notedWaitOnEvent idle q m
        pure ()
      else pure ()
  | .hold m => lift (perform idle may (.hold m))
  | op => notedHandle idle op

def notedBody (may : τ → Word → Bool) : Proc μ ν → NotedProg τ μ ν Int
  | .wakeAll q => do
      let s ← lift read
      if listIsEmpty s.waits (.head q) then pure 0
      else do
        mark (wakeOne q) (removes q)
        lift (invoke (.wakeAll q))
  | .mutexHold m => do
      let s ← lift read
      if 0 < s.count m then do
        let reason ← notedWaitOnQueue idle (.mutex m)
        if reason ≠ .wakeup then pure enodev else lift (invoke (.mutexHold m))
      else do
        lift (change (acquire m))
        pure 0
  | .handlers => do
      match ← lift pick with
      | .stop => pure 0
      | op => do
          notedHandle idle op
          lift (invoke .handlers)
  | .blocking => do
      match ← lift pick with
      | .stop => do
          let s ← lift read
          if tiReferPreemptCount s.cpu.word = 0 ∧ tiReferIrqCount s.cpu.word = 0 then pure 0 else lift (invoke .blocking)
      | op => do
          notedPerform idle may op
          lift (invoke .blocking)
  | .user => do
      match ← lift pick with
      | .exit => do
          notedExit idle
          lift (invoke .forever)
      | op => do
          notedPerform idle may op
          lift (invoke .user)
  | .reap => do
      let _ ← lift (invoke .drain)
      let _ ← notedWaitOnQueue idle .reaper
      let _ ← lift (invoke .blocking)
      lift (invoke .reap)
  | .forever => lift (body idle may .forever)
  | .reaper => lift (body idle may .reaper)
  | .drain => lift (body idle may .drain)

def noted (may : τ → Word → Bool) : System τ (Noted τ μ ν) (Proc μ ν) Int (Op τ μ ν) Fault :=
    ⟨notedBody idle may,fun s => s.1.cpu.current⟩

def notedStart (reaper : τ) : Machine τ (Noted τ μ ν) (Proc μ ν) Int (Op τ μ ν) Fault :=
    ⟨(boot idle,noNotes),idle,fun t => lift (main idle reaper t)⟩

end Programs

section Erasure
variable [DecidableEq τ] [DecidableEq μ] [DecidableEq ν] {idle reaper : τ}

theorem wakeupErases (q) (reason : Reason) : Erases (notedWakeup idle q reason : NotedProg τ μ ν Unit) (wqueWakeup idle q reason) :=
  erasesBind (erasesLift _) fun _ => erasesIf (.done ()) (erasesBind (erasesLift _) fun _ => erasesBind (erasesMark _ _) fun _ => erasesLift _)

theorem waitErases (q : Wq μ ν) : Erases (notedWaitOnQueue idle q : NotedProg τ μ ν Reason) (wqueWaitOnQueue idle q) :=
  erasesBind (erasesLift _) fun _ => erasesBind (erasesMark _ _) fun _ => erasesBind (erasesLift _) fun _ => erasesBind (erasesMark _ _) fun _ =>
    erasesBind (erasesLift _) fun _ => .done _

theorem releaseErases (m : μ) : Erases (notedRelease idle m : NotedProg τ μ ν Unit) (mutexRelease idle m) :=
  erasesBind (erasesMark _ _) fun _ => erasesBind (wakeupErases _ _) fun _ => erasesMark _ _

theorem eventErases (q : Wq μ ν) (m : μ) : Erases (notedWaitOnEvent idle q m : NotedProg τ μ ν Reason) (wqueWaitOnEventWithMutex idle q m) :=
  erasesBind (erasesLift _) fun _ => erasesBind (erasesMark _ _) fun _ => erasesBind (releaseErases m) fun _ => erasesBind (erasesLift _) fun _ =>
    erasesBind (erasesLift _) fun _ => erasesBind (erasesMark _ _) fun _ => erasesBind (erasesLift _) fun _ => .done _

theorem addExitErases (thr : τ) : Erases (notedAddExitThread idle thr : NotedProg τ μ ν Unit) (reaperAddExitThread idle thr) :=
  erasesBind (erasesLift _) fun _ => erasesIf (.done ()) (erasesBind (erasesLift _) fun _ => wakeupErases _ _)

theorem exitErases : Erases (notedExit idle : NotedProg τ μ ν Unit) (thrExitThread idle) :=
  erasesBind (erasesLift _) fun _ => erasesBind (erasesLift _) fun _ => erasesBind (addExitErases _) fun _ => erasesBind (erasesLift _) fun _ =>
    erasesLift _

theorem handleErases (idle : τ) (op : Op τ μ ν) : Erases (notedHandle idle op) (handle idle op) := by
  cases op with
  | wakeup q reason => exact erasesIf (.done ()) (wakeupErases q reason)
  | release m => exact erasesBind (erasesLift _) fun _ => erasesIf (releaseErases m) (.done ())
  | create | schedule | delayDisptach | rotateQueue | preempt | tryHold | hold | waitOnQueue | waitOnEvent | exit | stop => exact erasesLift _

theorem performErases (idle : τ) (may : τ → Word → Bool) (op : Op τ μ ν) : Erases (notedPerform idle may op) (perform idle may op) := by
  have handles := handleErases idle op
  cases op with
  | waitOnQueue q => exact erasesBind (erasesLift _) fun _ => erasesIf (erasesBind (waitErases q) fun _ => .done ()) (.done ())
  | waitOnEvent q m => exact erasesBind (erasesLift _) fun _ => erasesIf (erasesBind (eventErases q m) fun _ => .done ()) (.done ())
  | hold m => exact erasesLift _
  | wakeup | release | create | schedule | delayDisptach | rotateQueue | preempt | tryHold | exit | stop => exact handles

theorem bodyErases (may : τ → Word → Bool) (p : Proc μ ν) : Erases (notedBody idle may p) (body idle may p) := by
  cases p with
  | wakeAll q => exact erasesBind (erasesLift _) fun _ => erasesIf (.done 0) (erasesBind (erasesMark _ _) fun _ => erasesLift _)
  | mutexHold m =>
    refine erasesBind (erasesLift _) fun _ => erasesIf ?_ (erasesBind (erasesLift _) fun _ => .done 0)
    exact erasesBind (waitErases _) fun _ => erasesIf (.done _) (erasesLift _)
  | handlers =>
    refine erasesBind (erasesLift _) fun op => ?_
    have loop := erasesBind (handleErases idle op) fun _ => erasesLift (invoke (P := Proc μ ν) .handlers)
    cases op
    case stop => exact .done 0
    all_goals exact loop
  | blocking =>
    refine erasesBind (erasesLift _) fun op => ?_
    have loop := erasesBind (performErases idle may op) fun _ => erasesLift (invoke (P := Proc μ ν) .blocking)
    cases op
    case stop => exact erasesBind (erasesLift _) fun _ => erasesIf (.done 0) (erasesLift _)
    all_goals exact loop
  | user =>
    refine erasesBind (erasesLift _) fun op => ?_
    have loop := erasesBind (performErases idle may op) fun _ => erasesLift (invoke (P := Proc μ ν) .user)
    cases op
    case exit => exact erasesBind exitErases fun _ => erasesLift _
    all_goals exact loop
  | reap =>
    exact erasesBind (erasesLift _) fun _ => erasesBind (waitErases _) fun _ => erasesBind (erasesLift _) fun _ => erasesLift _
  | forever | reaper | drain => exact erasesLift _

omit [DecidableEq μ] [DecidableEq ν] in
theorem startShadows : Shadows (notedStart idle reaper : Machine τ (Noted τ μ ν) _ _ _ _) (start idle reaper) :=
    ⟨rfl,rfl,fun _ => erasesLift _⟩

theorem notedReaches {may : τ → Word → Bool} {s : Kernel τ μ ν} {t : τ} :
    (∃ m, (kernel idle may).Reached (start idle reaper) m ∧ m.shared = s ∧ m.running = t) ↔
      ∃ m, (noted idle may).Reached (notedStart idle reaper) m ∧ m.shared.1 = s ∧ m.running = t := by
  constructor
  · rintro ⟨m,run,rfl,rfl⟩
    obtain ⟨m',run',shadows⟩ : ∃ m', (noted idle may).Reached (notedStart idle reaper) m' ∧ Shadows m' m :=
      reachedNoted (bodyErases may) (fun _ => rfl) startShadows run
    exact ⟨m',run',shadows.shared,shadows.running⟩
  · rintro ⟨m',run,rfl,rfl⟩
    obtain ⟨m,run',shadows⟩ := reachedErased (y := kernel idle may) (bodyErases may) (fun _ => rfl) startShadows run
    exact ⟨m,run',shadows.shared.symm,shadows.running.symm⟩

end Erasure

section Moves

structure Still (s s' : Kernel τ μ ν) : Prop where
  waits : s'.waits = s.waits
  reason : s'.reason = s.reason
  count : s'.count = s.count
  owner : s'.owner = s.owner
  holders : s'.holders = s.holders

variable [DecidableEq τ] [DecidableEq μ] [DecidableEq ν]

inductive Move : Noted τ μ ν → Noted τ μ ν → Prop where
  | other {s s' : Kernel τ μ ν} {n : Notes τ μ ν} (still : Still s s') : Move (s,n) (s',n)
  | sleeps {s s' : Kernel τ μ ν} {n : Notes τ μ ν} {q : Wq μ ν} {ep : Ent τ} (free : n.waiting ep = none)
    (ran : fallAsleep q ep s = .ok s') :
      Move (s,n) (s',sleeps q ep n)
  | removes {s s' : Kernel τ μ ν} {n : Notes τ μ ν} {q : Wq μ ν} (ran : wakeOne q s = .ok s') : Move (s,n) (s',removes q s n)
  | gives {s : Kernel τ μ ν} {n : Notes τ μ ν} (q : Wq μ ν) (reason : Reason) :
      Move (s,n) ({s with reason := update s.reason q reason},gives q reason s n)
  | returns {s : Kernel τ μ ν} {n : Notes τ μ ν} {q : Wq μ ν} {ep : Ent τ} (waits : n.waiting ep = some q) :
      Move (s,n) (wqueRemoveEntry ep s,returns q ep s n)
  | acquires {s : Kernel τ μ ν} {n : Notes τ μ ν} {m : μ} (free : ¬ 0 < s.count m) : Move (s,n) (acquire m s,n)
  | enters {s : Kernel τ μ ν} {n : Notes τ μ ν} {m : μ} (held : s.cpu.current ∈ s.holders m) : Move (s,n) (decrement m s,enters m s n)
  | leaves {s : Kernel τ μ ν} {n : Notes τ μ ν} (m : μ) : Move (s,n) ({s with owner := update s.owner m none},leaves m s n)

structure Stands (frames : List Frame) (t : τ) (s : Noted τ μ ν) : Prop where
  here : s.1.cpu.current = t
  free : ∀ b ∈ frames, s.2.waiting (t,b) = none

structure Goes (t : τ) (s s' : Noted τ μ ν) : Prop where
  here : s'.1.cpu.current = t
  waiting : ∀ b, s'.2.waiting (t,b) = s.2.waiting (t,b)

def needs : Proc μ ν → List Frame
  | .wakeAll _ | .handlers | .forever => []
  | .mutexHold _ => [.waitOnQueue]
  | .blocking | .user | .reaper | .reap | .drain => [.waitOnQueue,.waitOnEvent]

def Relies : Option τ → Noted τ μ ν → Noted τ μ ν → Prop
  | none,s,s' => Relation.ReflTransGen Move s s'
  | some t,s,s' => ∀ b, s'.2.waiting (t,b) = s.2.waiting (t,b)

def logic : Logic (Option τ) (Noted τ μ ν) (Proc μ ν) Int Fault where
  inv _ := True
  rely := Relies
  refl u s := by
    cases u with
    | none => exact .refl
    | some t => exact fun _ => rfl
  trans u s s' s'' first second := by
    cases u with
    | none => exact Relation.ReflTransGen.trans first second
    | some t => exact fun b => (second b).trans (first b)
  pre u p s := ∃ t, u = some t ∧ Stands (needs p) t s
  post u _ s _ s' := ∀ t, u = some t → Goes t s s'
  faults _ := True

abbrev Wp {α : Type} (t : τ) (x : NotedProg τ μ ν α) (Q : α → Noted τ μ ν → Prop) (s : Noted τ μ ν) : Prop :=
  wp logic (fun s => some s.1.cpu.current) (some t) x Q s

def Passes {α : Type} (frames : List Frame) (x : NotedProg τ μ ν α) : Prop := ∀ t s, Stands frames t s → Wp t x (fun _ => Goes t s) s

end Moves

section Walk
variable {α β : Type} {s' s'' : Noted τ μ ν}

theorem goesTrans (first : Goes t s s') (second : Goes t s' s'') : Goes t s s'' :=
  ⟨second.here,fun b => (second.waiting b).trans (first.waiting b)⟩

theorem goesStands (stands : Stands frames t s) (goes : Goes t s s') : Stands frames t s' :=
  ⟨goes.here,fun b member => (goes.waiting b).trans (stands.free b member)⟩

theorem standsGoes (stands : Stands frames t s) : Goes t s s := ⟨stands.here,fun _ => rfl⟩

variable [DecidableEq τ] [DecidableEq μ] [DecidableEq ν]

theorem passesThen {x} {f : α → NotedProg τ μ ν β} (first : Passes frames x) (rest : ∀ a, Passes frames (f a)) :
    Passes frames (x >>= f) := by
  intro t s stands
  refine wpSeq (first t s stands) fun a s' goes => wpMono (rest a t s' (goesStands stands goes)) fun _ s'' goes' => ?_
  exact goesTrans goes goes'

theorem passesPure (a) : Passes frames (pure a : NotedProg τ μ ν α) := fun _ _ stands => standsGoes stands

theorem passesIf {c : Prop} [Decidable c] {x y : NotedProg τ μ ν α} (pos : Passes frames x) (neg : Passes frames y) :
    Passes frames (if c then x else y) := by
  split
  · exact pos
  · exact neg

theorem passesRead {f : Kernel τ μ ν → NotedProg τ μ ν β} (rest : ∀ s, Passes frames (f s)) : Passes frames (lift read >>= f) :=
  fun t s stands => wpLook (rest s.1 t s stands)

theorem passesPick {f : Op τ μ ν → NotedProg τ μ ν β} (rest : ∀ op, Passes frames (f op)) : Passes frames (lift pick >>= f) :=
  fun t s stands op => rest op t s stands

theorem passesLiftThen {x : Prog τ μ ν α} {f : α → Prog τ μ ν β} (first : Passes frames (lift x))
    (rest : ∀ a, Passes frames (lift (f a))) :
    Passes frames (lift (x >>= f) : NotedProg τ μ ν β) := by
  rw [liftBind]
  exact passesThen first rest

theorem passesLiftRead {f : Kernel τ μ ν → Prog τ μ ν β} (rest : ∀ s, Passes frames (lift (f s))) :
    Passes frames (lift (read >>= f) : NotedProg τ μ ν β) :=
  fun t s stands => wpLiftRead (rest s.1 t s stands)

theorem passesLiftIf {c : Prop} [Decidable c] {x y : Prog τ μ ν α} (pos : Passes frames (lift x)) (neg : Passes frames (lift y)) :
    Passes frames (lift (if c then x else y) : NotedProg τ μ ν α) := by
  split
  · exact pos
  · exact neg

theorem passesInvoke {p : Proc μ ν} (enough : ∀ b ∈ needs p, b ∈ frames) : Passes frames (lift (invoke p) : NotedProg τ μ ν Int) :=
  fun t _ stands => ⟨⟨t,rfl,stands.here,fun b member => stands.free b (enough b member)⟩,fun _ _ goes => goes t rfl⟩

theorem relies (move : Move s s') (waiting : ∀ u, u ≠ t → ∀ b, s'.2.waiting (u,b) = s.2.waiting (u,b)) (u) (other : u ≠ some t) :
    Relies u s s' := by
  cases u with
  | none => exact .single move
  | some u => exact waiting u fun same => other (congrArg some same)

theorem passesStill {g : Kernel τ μ ν → Except Fault (Kernel τ μ ν)}
    (still : ∀ s s', g s = .ok s' → Still s s' ∧ s'.cpu.current = s.cpu.current) :
    Passes frames (lift (run g) : NotedProg τ μ ν Unit) := by
  intro t s stands
  refine wpLiftRun (fun s' ran => ?_) fun _ _ => trivial
  obtain ⟨still,current⟩ := still s.1 s' ran
  exact ⟨relies (.other still) fun _ _ _ => rfl,current.trans stands.here,fun _ => rfl⟩

theorem passesSame {g : Kernel τ μ ν → Kernel τ μ ν} (still : ∀ s, Still s (g s) ∧ (g s).cpu.current = s.cpu.current) :
    Passes frames (lift (change g) : NotedProg τ μ ν Unit) := by
  refine passesStill fun s s' ran => ?_
  cases ran
  exact still s

theorem passesMarked {g : Kernel τ μ ν → Kernel τ μ ν} {note : Kernel τ μ ν → Notes τ μ ν → Notes τ μ ν}
    (move : Move s (g s.1,note s.1 s.2))
    (current : (g s.1).cpu.current = s.1.cpu.current) (waiting : (note s.1 s.2).waiting = s.2.waiting) (stands : Stands frames t s) :
    Wp t (marked g note) (fun _ => Goes t s) s := by
  refine wpMark (fun s' ran => ?_) fun e failed => by cases failed
  cases ran
  refine ⟨relies move fun u _ b => by rw [waiting],current.trans stands.here,fun b => ?_⟩
  rw [waiting]

end Walk

section Functions
variable [DecidableEq τ] [DecidableEq μ] [DecidableEq ν] {idle : τ} {q : Wq μ ν} {m : μ}

theorem schedulePasses : Passes frames (lift (schedSchedule idle) : NotedProg τ μ ν Unit) := by
  intro t s stands
  unfold schedSchedule
  refine wpLiftRead (wpLiftBind (wpLiftRun (fun s₁ ran => ?_) fun _ _ => trivial))
  obtain ⟨cpu,_,ran⟩ := bindOk ran
  cases ran
  refine ⟨relies (.other ⟨rfl,rfl,rfl,rfl,rfl⟩) fun _ _ _ => rfl,wpLiftRead (wpLiftIf (fun same => ?_) fun _ => ?_)⟩
  · exact ⟨same.trans stands.here,fun _ => rfl⟩
  · refine ⟨trivial,fun s' _ waiting back => ?_⟩
    have resumes : Passes [] (lift (change fun s => (s.setStatus s.cpu.current .run).setCpu (Preempt.resume s.cpu)) : NotedProg τ μ ν Unit) :=
      passesSame fun _ => ⟨⟨rfl,rfl,rfl,rfl,rfl⟩,rfl⟩
    refine wpMono (resumes t s' ⟨Option.some.inj back,fun _ member => absurd member List.not_mem_nil⟩) fun _ s'' goes =>
      ⟨goes.here,fun b => ?_⟩
    exact (goes.waiting b).trans (waiting b)

theorem delayPasses : Passes frames (lift (schedDelayDisptach idle) : NotedProg τ μ ν Unit) :=
  passesLiftRead fun _ => passesLiftIf (passesPure ()) (passesLiftIf (passesPure ()) (passesLiftIf (passesPure ())
    (passesLiftThen (passesSame fun _ => ⟨⟨rfl,rfl,rfl,rfl,rfl⟩,rfl⟩) fun _ => schedulePasses)))

theorem wakeupPasses (q) (reason : Reason) : Passes frames (notedWakeup idle q reason : NotedProg τ μ ν Unit) := by
  refine passesRead fun _ => passesIf (passesPure ()) (passesThen (passesInvoke fun _ member => absurd member List.not_mem_nil) fun _ =>
    passesThen (fun t s stands => ?_) fun _ => schedulePasses)
  exact passesMarked (.gives q reason) rfl rfl stands

theorem acquirePasses (stands : Stands frames t s) (free : ¬ 0 < s.1.count m) : Wp t (lift (change (acquire m))) (fun _ => Goes t s) s := by
  refine wpLiftRun (fun s' ran => ?_) fun e failed => by cases failed
  cases ran
  exact ⟨relies (.acquires free) fun _ _ _ => rfl,stands.here,fun _ => rfl⟩

theorem tryHoldPasses (m : μ) : Passes frames (lift (mutexTryHold m) : NotedProg τ μ ν Int) := by
  intro t s stands
  refine wpLiftRead (wpLiftIf (fun _ => standsGoes stands) fun free => wpLiftBind ?_)
  exact wpMono (acquirePasses stands free) fun _ _ goes => goes

theorem releasePasses (held : s.1.cpu.current ∈ s.1.holders m) (stands : Stands frames t s) : Wp t (notedRelease idle m) (fun _ => Goes t s) s := by
  refine wpSeq (passesMarked (.enters held) rfl rfl stands) fun _ s₁ first => ?_
  have rest : Passes frames (notedWakeup idle (.mutex m) .wakeup >>= fun _ =>
      marked (fun s : Kernel τ μ ν => {s with owner := update s.owner m none}) (leaves m)) :=
    passesThen (wakeupPasses _ _) fun _ _ _ stands => passesMarked (.leaves m) rfl rfl stands
  exact wpMono (rest t s₁ (goesStands stands first)) fun _ _ second => goesTrans first second

theorem sleepPasses {b} (here : s.1.cpu.current = t) (free : s.2.waiting (t,b) = none) :
    Wp t (mark (fallAsleep q (t,b)) fun _ => sleeps q (t,b))
      (fun _ s' => s'.1.cpu.current = t ∧ s'.1.holders = s.1.holders ∧ s'.2.waiting = update s.2.waiting (t,b) (some q)) s := by
  refine wpMark (fun s' ran => ?_) fun _ _ => trivial
  obtain ⟨same,current⟩ := MutexThreads.asleepUntouched ran
  refine ⟨relies (.sleeps free ran) fun u other c => ?_,current.trans here,same.holders,rfl⟩
  exact update_of_ne (fun same => other (congrArg Prod.fst same)) ..

theorem returnPasses {b : Frame} (here : s.1.cpu.current = t) (waits : s.2.waiting (t,b) = some q) :
    Wp t (do marked (wqueRemoveEntry (t,b)) (returns q (t,b)); let s ← lift read; pure (s.reason q))
      (fun r s' => s'.1.cpu.current = t ∧ s'.2.waiting = update s.2.waiting (t,b) none ∧
        s'.2.results q = (s.2.given (t,b),r) :: s.2.results q) s := by
  refine wpBind (wpMark (fun s' ran => ?_) fun e failed => by cases failed)
  cases ran
  refine ⟨relies (.returns waits) fun u other c => ?_,wpLook ⟨here,rfl,?_⟩⟩
  · exact update_of_ne (fun same => other (congrArg Prod.fst same)) ..
  · exact update_self ..

omit [DecidableEq μ] [DecidableEq ν] in
theorem waitedGoes {b : Frame} {s₁ s₂ s₃ : Noted τ μ ν} (free : s.2.waiting (t,b) = none)
    (asleep : s₁.2.waiting = update s.2.waiting (t,b) (some q))
    (goes : Goes t s₁ s₂) (here : s₃.1.cpu.current = t) (back : s₃.2.waiting = update s₂.2.waiting (t,b) none) : Goes t s s₃ := by
  refine ⟨here,fun c => ?_⟩
  rw [back]
  by_cases same : c = b
  · subst same
    rw [update_self,free]
  · have apart : (t,c) ≠ (t,b) := fun equal => same (congrArg Prod.snd equal)
    rw [update_of_ne apart,goes.waiting,asleep,update_of_ne apart]

omit [DecidableEq μ] [DecidableEq ν] in
theorem goesWaiting {b : Frame} {s₁ s₂ : Noted τ μ ν} (asleep : s₁.2.waiting = update s.2.waiting (t,b) (some q)) (goes : Goes t s₁ s₂) :
    s₂.2.waiting (t,b) = some q := by
  rw [goes.waiting,asleep,update_self]

theorem waitPasses (q) (stands : Stands frames t s) (free : .waitOnQueue ∈ frames) : Wp t (notedWaitOnQueue idle q) (fun r s' => Goes t s s' ∧
    ∃ given earlier, s'.2.results q = (given,r) :: earlier) s := by
  have here := stands.here
  subst here
  have free := stands.free _ free
  refine wpLook (wpSeq (sleepPasses rfl free) fun _ s₁ asleep => ?_)
  have stands₁ : Stands [] s.1.cpu.current s₁ := ⟨asleep.1,fun _ member => absurd member List.not_mem_nil⟩
  refine wpSeq (schedulePasses _ s₁ stands₁) fun _ s₂ goes => ?_
  refine wpMono (returnPasses goes.here (goesWaiting asleep.2.2 goes)) fun r s₃ back => ⟨waitedGoes free asleep.2.2 goes back.1 back.2.1,?_⟩
  exact ⟨_,_,back.2.2⟩

theorem eventPasses (q : Wq μ ν) (stands : Stands frames t s) (free : ∀ b, b ∈ frames) (held : s.1.cpu.current ∈ s.1.holders m) :
    Wp t (notedWaitOnEvent idle q m) (fun r s' => Goes t s s' ∧ ∃ given earlier, s'.2.results q = (given,r) :: earlier) s := by
  have here := stands.here
  subst here
  have alone := stands.free .waitOnEvent (free _)
  refine wpLook (wpSeq (sleepPasses rfl alone) fun _ s₁ asleep => ?_)
  have stands₁ : Stands [.waitOnQueue] s.1.cpu.current s₁ := by
    refine ⟨asleep.1,fun b member => ?_⟩
    obtain rfl := List.mem_singleton.mp member
    have apart : (s.1.cpu.current,Frame.waitOnQueue) ≠ (s.1.cpu.current,Frame.waitOnEvent) := nofun
    rw [asleep.2.2,update_of_ne apart]
    exact stands.free _ (free _)
  have held₁ : s₁.1.cpu.current ∈ s₁.1.holders m := by
    rw [asleep.1,asleep.2.1]
    exact held
  refine wpSeq (releasePasses held₁ stands₁) fun _ s₂ released => ?_
  refine wpSeq (schedulePasses _ s₂ (goesStands stands₁ released)) fun _ s₃ switched => ?_
  have goes₃ := goesTrans released switched
  refine wpSeq (passesInvoke (fun _ member => member) _ s₃ (goesStands stands₁ goes₃)) fun _ s₄ holds => ?_
  have goes := goesTrans goes₃ holds
  refine wpMono (returnPasses goes.here (goesWaiting asleep.2.2 goes)) fun r s₅ back => ⟨waitedGoes alone asleep.2.2 goes back.1 back.2.1,?_⟩
  exact ⟨_,_,back.2.2⟩

omit [DecidableEq μ] [DecidableEq ν] in
theorem createStill {attrp memalign thr} {k k' : Kernel τ μ ν}
    (ok : Threads.thrCreateThread attrp memalign thr k = .ok k') : Still k k' ∧ k'.cpu.current = k.cpu.current := by
  obtain ⟨⟨rc,q⟩,_,ok⟩ := bindOk ok
  dsimp only at ok
  split at ok
  · cases ok
    exact ⟨⟨rfl,rfl,rfl,rfl,rfl⟩,rfl⟩
  · split at ok <;> cases ok <;> exact ⟨⟨rfl,rfl,rfl,rfl,rfl⟩,rfl⟩

omit [DecidableEq μ] [DecidableEq ν] in
theorem leaveStill {k k' : Kernel τ μ ν} (ok : leaveReady k = .ok k') : Still k k' ∧ k'.cpu.current = k.cpu.current := by
  obtain ⟨s₁,removed,ok⟩ := bindOk ok
  obtain ⟨q,rfl⟩ := MutexThreads.removeRuns removed
  cases ok
  exact ⟨⟨rfl,rfl,rfl,rfl,rfl⟩,rfl⟩

theorem asleepStill {ep : Ent τ} {k k' : Kernel τ μ ν} (ok : fallAsleep q ep k = .ok k') :
    Still {k with waits := listAdd (initListNode (initListNode k.waits (.node ep)) (.node ep)) (.head q) (.node ep)} k' := by
  obtain ⟨s₁,removed,ok⟩ := bindOk ok
  obtain ⟨_,rfl⟩ := MutexThreads.removeRuns removed
  cases ok
  exact ⟨rfl,rfl,rfl,rfl,rfl⟩

theorem wokenStill {k k' : Kernel τ μ ν} (ok : wakeOne q k = .ok k') :
    k'.cpu.current = k.cpu.current ∧ ∃ ep, listRefTop k.waits (.head q) = .node ep ∧
    Still {k with waits := initListNode (listDel (listDel k.waits (.node ep)) (.node ep)) (.node ep)} k' := by
  unfold wakeOne at ok
  split at ok
  · cases ok
  · rename_i ep waits top
    obtain ⟨first,rfl⟩ := Prod.mk.inj top
    split at ok
    · cases ok
    · obtain ⟨s₁,added,ok⟩ := bindOk ok
      obtain ⟨_,_,added⟩ := bindOk added
      cases added
      cases ok
      refine ⟨rfl,ep,first,?_,rfl,rfl,rfl,rfl⟩
      show initListNode (listDel (listDel k.waits (listRefTop k.waits (.head q))) (.node ep)) (.node ep) = _
      rw [first]

omit [DecidableEq τ] in
theorem removesWaiting {k} {n : Notes τ μ ν} : (removes q k n).waiting = n.waiting := by
  unfold removes
  split
  · rfl
  · rfl

theorem handlePasses (idle : τ) (op : Op τ μ ν) : Passes frames (notedHandle idle op) := by
  cases op with
  | wakeup q reason => exact passesIf (passesPure ()) (wakeupPasses q reason)
  | release m => exact fun t s stands => wpLook (wpIf (fun held => releasePasses held stands) fun _ => standsGoes stands)
  | create attrp memalign thr =>
    exact passesLiftRead fun _ => passesLiftIf (passesStill fun _ _ ran => createStill ran) (passesPure ())
  | schedule => exact schedulePasses
  | delayDisptach => exact delayPasses
  | rotateQueue => exact passesSame (g := schedRotateQueue) fun _ => ⟨⟨rfl,rfl,rfl,rfl,rfl⟩,rfl⟩
  | preempt w => exact passesSame (g := fun s => s.setCpu (s.cpu.setWord w)) fun _ => ⟨⟨rfl,rfl,rfl,rfl,rfl⟩,rfl⟩
  | tryHold m => exact passesLiftThen (tryHoldPasses m) fun _ => passesPure ()
  | hold | waitOnQueue | waitOnEvent | exit | stop => exact passesPure ()

theorem performPasses (idle : τ) (may : τ → Word → Bool) (op : Op τ μ ν) (free : ∀ b, b ∈ frames) :
    Passes frames (notedPerform idle may op) := by
  have handles : Passes frames _ := handlePasses idle op
  cases op with
  | waitOnQueue q =>
    refine fun t s stands => wpLook (wpIf (fun _ => wpBind ?_) fun _ => standsGoes stands)
    exact wpMono (waitPasses q stands (free _)) fun _ _ done => done.1
  | waitOnEvent q m =>
    refine fun t s stands => wpLook (wpIf (fun allowed => wpBind ?_) fun _ => standsGoes stands)
    exact wpMono (eventPasses q stands free allowed.2.2) fun _ _ done => done.1
  | hold m =>
    exact passesLiftRead fun _ => passesLiftIf (passesLiftThen (passesInvoke fun b _ => free b) fun _ => passesPure ()) (passesPure ())
  | wakeup | release | create | schedule | delayDisptach | rotateQueue | preempt | tryHold | exit | stop => exact handles

theorem exitPasses : Passes frames (notedExit idle : NotedProg τ μ ν Unit) := by
  refine passesRead fun _ => passesThen (passesStill fun _ _ ran => leaveStill ran) fun _ => passesThen ?_ fun _ =>
    passesThen (passesInvoke fun _ member => absurd member List.not_mem_nil) fun _ => schedulePasses
  exact passesRead fun _ => passesIf (passesPure ()) (passesThen (passesSame fun _ => ⟨⟨rfl,rfl,rfl,rfl,rfl⟩,rfl⟩) fun _ => wakeupPasses _ _)

theorem destroyPasses (thr) (free : ∀ b, b ∈ frames) : Passes frames (lift (thrDestroyThread thr) : NotedProg τ μ ν Int) :=
  passesLiftRead fun _ => passesLiftIf (passesLiftThen (passesSame fun _ => ⟨⟨rfl,rfl,rfl,rfl,rfl⟩,rfl⟩) fun _ => passesPure _)
    (passesLiftThen (passesSame fun _ => ⟨⟨rfl,rfl,rfl,rfl,rfl⟩,rfl⟩) fun _ => passesLiftThen (passesInvoke fun b _ => free b) fun _ =>
      passesLiftThen (passesInvoke fun b _ => free b) fun _ => passesPure _)

theorem bodyPasses (may : τ → Word → Bool) (p : Proc μ ν) : Passes (needs p) (notedBody idle may p) := by
  have all : ∀ b, b ∈ [Frame.waitOnQueue,Frame.waitOnEvent] := fun b => by cases b <;> decide
  have none : ∀ b, b ∈ ([] : List Frame) → b ∈ ([] : List Frame) := fun _ => id
  cases p with
  | wakeAll q =>
    refine passesRead fun _ => passesIf (passesPure _) (passesThen (fun t s stands => ?_) fun _ => passesInvoke none)
    refine wpMark (fun s' ran => ⟨relies (.removes ran) fun u _ b => ?_,(wokenStill ran).1.trans stands.here,fun b => ?_⟩) fun _ _ => trivial
    · rw [removesWaiting]
    · rw [removesWaiting]
  | mutexHold m =>
    refine fun t s stands => wpLook (wpIf (fun _ => wpBind ?_) fun free => wpSeq (acquirePasses stands free) fun _ _ goes => goes)
    refine wpMono (waitPasses _ stands List.mem_cons_self) fun reason s' done => ?_
    refine wpIf (fun _ => done.1) fun _ => wpMono (passesInvoke (fun _ => id) t s' (goesStands stands done.1)) fun _ _ goes => goesTrans done.1 goes
  | handlers =>
    refine passesPick fun op => ?_
    have loop := passesThen (handlePasses idle op) fun _ => passesInvoke (p := .handlers) none
    cases op
    case stop => exact passesPure 0
    all_goals exact loop
  | blocking =>
    refine passesPick fun op => ?_
    have loop := passesThen (performPasses idle may op all) fun _ => passesInvoke (p := .blocking) fun b _ => all b
    cases op
    case stop => exact passesRead fun _ => passesIf (passesPure 0) (passesInvoke fun b _ => all b)
    all_goals exact loop
  | user =>
    refine passesPick fun op => ?_
    have loop := passesThen (performPasses idle may op all) fun _ => passesInvoke (p := .user) fun b _ => all b
    cases op
    case exit => exact passesThen exitPasses fun _ => passesInvoke fun b _ => all b
    all_goals exact loop
  | reap =>
    refine passesThen (passesInvoke fun b _ => all b) fun _ => passesThen (fun t s stands => ?_) fun _ =>
      passesThen (passesInvoke fun b _ => all b) fun _ =>
      passesInvoke fun b _ => all b
    exact wpMono (waitPasses _ stands (all _)) fun _ _ done => done.1
  | forever => exact passesLiftThen (passesInvoke none) fun _ => passesInvoke none
  | reaper => exact passesLiftThen (passesInvoke fun b _ => all b) fun _ => passesInvoke fun b _ => all b
  | drain =>
    refine passesLiftRead fun s => passesLiftIf (passesPure _) ?_
    split
    · exact fun _ _ _ => trivial
    · exact passesLiftThen (passesSame fun _ => ⟨⟨rfl,rfl,rfl,rfl,rfl⟩,rfl⟩) fun _ => passesLiftThen (destroyPasses _ all) fun _ =>
        passesInvoke fun b _ => all b

theorem reachedMoves {may : τ → Word → Bool} {reaper} {m : Machine τ (Noted τ μ ν) (Proc μ ν) Int (Op τ μ ν) Fault}
    (run : (noted idle may).Reached (notedStart idle reaper) m) : Relation.ReflTransGen Move (boot idle,noNotes) m.shared := by
  have sound : Sound logic (observed (noted idle may : System τ (Noted τ μ ν) _ _ _ _)) := by
    rintro u p s ⟨t,rfl,stands⟩
    refine wpMono (bodyPasses may p t s stands) fun _ s' goes u same => ?_
    cases same
    exact goes
  have mains : ∀ t, Passes [.waitOnQueue,.waitOnEvent] (lift (main idle reaper t) : NotedProg τ μ ν Unit) := fun t =>
    passesLiftThen (passesInvoke fun b _ => by cases b <;> decide) fun _ => passesPure ()
  have begins : Good logic (observed (noted idle may)) (observing (notedStart idle reaper : Machine τ (Noted τ μ ν) _ _ _ _)) := by
    refine ⟨?_,fun u other s _ waiting back => ?_⟩
    · exact wpMono (mains idle idle (boot idle,noNotes) ⟨rfl,fun _ _ => rfl⟩) fun _ _ _ => trivial
    · cases u with
      | none => cases back
      | some t => exact wpMono (mains t t s ⟨Option.some.inj back,fun b _ => waiting b⟩) fun _ _ _ => trivial
  exact observedRely sound begins run

end Functions
end TskSw.NotedThreads
