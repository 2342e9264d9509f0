import TskSw.Preempt
import TskSw.Coroutines

/-! Threads as `kern/thread.c`, `kern/wqueue.c`, `kern/mutex.c`, `kern/reaper.c` and
`kern/sched.c` run them on one processor. Interrupts are off inside these functions, so a
thread loses the processor only in `sched_schedule`; what interrupt handlers do is done by
the thread that they interrupt. -/
namespace TskSw.Threads
open CircularLists KernList ReadyQueue Coroutines
open Preempt (Cpu Word tiReferPreemptCount tiReferIrqCount tiCheckPreemptActive tiCheckNeedDispatch tiClrDelayDispatch)
open BlkIo (Fault)
open Function (update)

inductive Status where
  | run | wait | exit | dead
  deriving DecidableEq

def Reason : Type := UInt32
  deriving DecidableEq

def Reason.wakeup : Reason := (0 : UInt32)
def Reason.destroy : Reason := (1 : UInt32)

inductive Wq (μ ν : Type) where
  | mutex (m : μ)
  | reaper
  | event (n : ν)
  deriving DecidableEq

inductive Frame where
  | waitOnQueue | waitOnEvent
  deriving DecidableEq

abbrev Ent (τ : Type) := τ × Frame

structure Destroyed (τ : Type) where
  thr : τ
  rc : Int
  used : Bool

structure Kernel (τ μ ν : Type) where
  cpu : Cpu τ
  status : τ → Status
  waits : Links (Node (Wq μ ν) (Ent τ))
  thr : Ent τ → Option τ
  reason : Wq μ ν → Reason
  count : μ → BitVec 32
  owner : μ → Option τ
  -- What happened so far: threads that were created, threads that increased `mtx->count` and did
  -- not decrease it yet, and threads that exited, came to the reaper and were destroyed.
  created : τ → Bool
  holders : μ → List τ
  exits : List τ
  enqueued : List τ
  destroyed : List (Destroyed τ)

inductive Proc (μ ν : Type) where
  | wakeAll (q : Wq μ ν)
  | mutexHold (m : μ)
  | handlers
  | blocking
  | user
  | forever
  | reaper
  | reap
  | drain

inductive Op (τ μ ν : Type) where
  | create (attrp : Option Attr) (memalign : Bool) (thr : Option τ)
  | schedule
  | delayDisptach
  | rotateQueue
  | wakeup (q : Wq μ ν) (reason : Reason)
  | preempt (w : Word)
  | tryHold (m : μ)
  | release (m : μ)
  | hold (m : μ)
  | waitOnQueue (q : Wq μ ν)
  | waitOnEvent (q : Wq μ ν) (m : μ)
  | exit
  | stop

abbrev Prog (τ μ ν α : Type) := Co (Kernel τ μ ν) (Proc μ ν) Int (Op τ μ ν) Fault α

section Functions
variable {τ μ ν : Type} [DecidableEq τ] [DecidableEq μ] [DecidableEq ν]

def Kernel.setStatus (s : Kernel τ μ ν) (t : τ) (x : Status) : Kernel τ μ ν := {s with status := update s.status t x}

def Kernel.setRdq (s : Kernel τ μ ν) (q : RunQueue τ) : Kernel τ μ ν := {s with cpu := {s.cpu with rdq := q}}

def Kernel.setCpu (s : Kernel τ μ ν) (cpu : Cpu τ) : Kernel τ μ ν := {s with cpu := cpu}

def schedSetReady (t : τ) (s : Kernel τ μ ν) : Except Fault (Kernel τ μ ν) := do
  let q ← rdqAddThread t s.cpu.rdq
  pure (s.setRdq q)

def removeThread (t : τ) (s : Kernel τ μ ν) : Except Fault (Kernel τ μ ν) := do
  let q ← rdqRemoveThread t s.cpu.rdq
  pure (s.setRdq q)

def schedRotateQueue (s : Kernel τ μ ν) : Kernel τ μ ν := s.setRdq (rdqRotateQueue s.cpu.rdq)

def wqueAddThread (q : Wq μ ν) (ep : Ent τ) (thr : τ) (s : Kernel τ μ ν) : Kernel τ μ ν :=
  {s.setRdq {s.cpu.rdq with links := listDel s.cpu.rdq.links (.node thr)} with
    waits := listAdd (initListNode s.waits (.node ep)) (.head q) (.node ep), thr := update s.thr ep (some thr)}

def wqueRemoveEntry (ep : Ent τ) (s : Kernel τ μ ν) : Kernel τ μ ν :=
  {s with waits := initListNode (listDel s.waits (.node ep)) (.node ep), thr := update s.thr ep none}

def fallAsleep (q : Wq μ ν) (ep : Ent τ) (s : Kernel τ μ ν) : Except Fault (Kernel τ μ ν) := do
  let s ← removeThread s.cpu.current {s with waits := initListNode s.waits (.node ep)}
  let s := wqueAddThread q ep s.cpu.current s
  pure (s.setStatus s.cpu.current .wait)

def wakeOne (q : Wq μ ν) (s : Kernel τ μ ν) : Except Fault (Kernel τ μ ν) :=
  match listGetTop s.waits (.head q) with
  | (.head _,_) => .error .outOfBounds
  | (.node ep,waits) =>
    match s.thr ep with
    | none => .error .nullPointer
    | some thr => do
        let s ← schedSetReady thr ({s with waits := initListNode (listDel waits (.node ep)) (.node ep)}.setStatus thr .run)
        pure {s with thr := update s.thr ep none}

def acquire (m : μ) (s : Kernel τ μ ν) : Kernel τ μ ν :=
  {s with count := update s.count m (s.count m + 1), owner := update s.owner m (some s.cpu.current),
          holders := update s.holders m (s.cpu.current :: s.holders m)}

def decrement (m : μ) (s : Kernel τ μ ν) : Kernel τ μ ν :=
  {s with count := update s.count m (s.count m - 1), holders := update s.holders m ((s.holders m).erase s.cpu.current)}

def thrCreateThread (attrp : Option Attr) (memalign : Bool) (thr : Option τ) (s : Kernel τ μ ν) : Except Fault (Kernel τ μ ν) := do
  let (rc,q) ← ReadyQueue.thrCreateThread attrp memalign thr s.cpu.rdq
  match thr with
  | none => pure s
  | some t =>
    if rc = 0 then pure {(s.setCpu {s.cpu with rdq := q, preempt := update s.cpu.preempt t 0}).setStatus t .run with
      created := update s.created t true}
    else pure s

def leaveReady (s : Kernel τ μ ν) : Except Fault (Kernel τ μ ν) := do
  let s ← removeThread s.cpu.current s
  pure {s.setStatus s.cpu.current .exit with exits := s.cpu.current :: s.exits}

def thrAddThreadQueue (thr : τ) (s : Kernel τ μ ν) : Kernel τ μ ν :=
  {(s.setStatus thr .dead).setRdq {s.cpu.rdq with links := listAdd s.cpu.rdq.links (.head .reaper) (.node thr)} with enqueued := thr :: s.enqueued}

def inUse (thr : τ) (s : Kernel τ μ ν) : Bool :=
  decide (thr = s.cpu.current) || listIsLinked s.cpu.rdq.links (.node thr) || listIsLinked s.waits (.node (thr,.waitOnQueue)) ||
    listIsLinked s.waits (.node (thr,.waitOnEvent))

def record (thr : τ) (rc : Int) (s : Kernel τ μ ν) : Kernel τ μ ν := {s with destroyed := ⟨thr,rc,inUse thr s⟩ :: s.destroyed}

end Functions

section Programs
variable {τ μ ν : Type} [DecidableEq τ] [DecidableEq μ] [DecidableEq ν] (idle : τ)

def change (f : Kernel τ μ ν → Kernel τ μ ν) : Prog τ μ ν Unit := run fun s => .ok (f s)

def schedSchedule : Prog τ μ ν Unit := do
  let before ← read
  run fun s => do
    let cpu ← Preempt.schedSchedule idle s.cpu
    pure (s.setCpu cpu)
  let after ← read
  if after.cpu.current = before.cpu.current then pure ()
  else do
    switch
    change fun s => (s.setStatus s.cpu.current .run).setCpu (Preempt.resume s.cpu)

def schedDelayDisptach : Prog τ μ ν Unit := do
  let s ← read
  if 0 < tiReferPreemptCount s.cpu.word ∨ 0 < tiReferIrqCount s.cpu.word then pure ()
  else if tiCheckPreemptActive s.cpu.word ≠ 0 then pure ()
  else if tiCheckNeedDispatch s.cpu.word = false then pure ()
  else do
    change fun s => s.setCpu (s.cpu.setWord (tiClrDelayDispatch s.cpu.word))
    schedSchedule idle

def wqueWakeup (q : Wq μ ν) (reason : Reason) : Prog τ μ ν Unit := do
  let s ← read
  if listIsEmpty s.waits (.head q) then pure ()
  else do
    let _ ← invoke (.wakeAll q)
    change fun s => {s with reason := update s.reason q reason}
    schedSchedule idle

def wqueWaitOnQueue (q : Wq μ ν) : Prog τ μ ν Reason := do
  let s ← read
  let ep := (s.cpu.current,Frame.waitOnQueue)
  run (fallAsleep q ep)
  schedSchedule idle
  change (wqueRemoveEntry ep)
  let s ← read
  pure (s.reason q)

def mutexTryHold (m : μ) : Prog τ μ ν Int := do
  let s ← read
  if 0 < s.count m then pure eagain
  else do
    change (acquire m)
    pure 0

def mutexRelease (m : μ) : Prog τ μ ν Unit := do
  change (decrement m)
  wqueWakeup idle (.mutex m) .wakeup
  change fun s => {s with owner := update s.owner m none}

def wqueWaitOnEventWithMutex (q : Wq μ ν) (m : μ) : Prog τ μ ν Reason := do
  let s ← read
  let ep := (s.cpu.current,Frame.waitOnEvent)
  run (fallAsleep q ep)
  mutexRelease idle m
  schedSchedule idle
  let _ ← invoke (.mutexHold m)
  change (wqueRemoveEntry ep)
  let s ← read
  pure (s.reason q)

def reaperAddExitThread (thr : τ) : Prog τ μ ν Unit := do
  let s ← read
  if s.status thr ≠ .exit then pure ()
  else do
    change (thrAddThreadQueue thr)
    wqueWakeup idle .reaper .wakeup

def thrExitThread : Prog τ μ ν Unit := do
  let s ← read
  run leaveReady
  reaperAddExitThread idle s.cpu.current
  let _ ← invoke .handlers
  schedSchedule idle

def thrDestroyThread (thr : τ) : Prog τ μ ν Int := do
  let s ← read
  if s.status thr ≠ .dead then do
    change (record thr ebusy)
    pure ebusy
  else do
    change (record thr 0)
    let _ ← invoke .blocking
    let _ ← invoke .blocking
    pure 0

def fresh (s : Kernel τ μ ν) (thr : Option τ) : Bool :=
  match thr with
  | none => true
  | some t => decide (t ≠ idle) && !s.created t

-- What interrupt handlers and the idle thread do as well. Only the reaper's own code uses its
-- queue, and a thread releases what it holds.
def handle : Op τ μ ν → Prog τ μ ν Unit
  | .create attrp memalign thr => do
      let s ← read
      if fresh idle s thr then run (thrCreateThread attrp memalign thr) else pure ()
  | .schedule => schedSchedule idle
  | .delayDisptach => schedDelayDisptach idle
  | .rotateQueue => change schedRotateQueue
  | .wakeup q reason => if q = .reaper then pure () else wqueWakeup idle q reason
  | .preempt w => change fun s => s.setCpu (s.cpu.setWord w)
  | .tryHold m => do
      let _ ← mutexTryHold m
      pure ()
  | .release m => do
      let s ← read
      if s.cpu.current ∈ s.holders m then mutexRelease idle m else pure ()
  | _ => pure ()

def perform (may : τ → Word → Bool) : Op τ μ ν → Prog τ μ ν Unit
  | .hold m => do
      let s ← read
      if may s.cpu.current s.cpu.word then do
        let _ ← invoke (.mutexHold m)
        pure ()
      else pure ()
  | .waitOnQueue q => do
      let s ← read
      if may s.cpu.current s.cpu.word ∧ q ≠ .reaper then do
        let _ ← wqueWaitOnQueue idle q
        pure ()
      else pure ()
  | .waitOnEvent q m => do
      let s ← read
      if may s.cpu.current s.cpu.word ∧ q ≠ .reaper ∧ s.cpu.current ∈ s.holders m then do
        let _ ← wqueWaitOnEventWithMutex idle q m
        pure ()
      else pure ()
  | op => handle idle op

def body (may : τ → Word → Bool) : Proc μ ν → Prog τ μ ν Int
  | .wakeAll q => do
      let s ← read
      if listIsEmpty s.waits (.head q) then pure 0
      else do
        run (wakeOne q)
        invoke (.wakeAll q)
  | .mutexHold m => do
      let s ← read
      if 0 < s.count m then do
        let reason ← wqueWaitOnQueue idle (.mutex m)
        if reason ≠ .wakeup then pure enodev else invoke (.mutexHold m)
      else do
        change (acquire m)
        pure 0
  | .handlers => do
      match ← pick with
      | .stop => pure 0
      | op => do
          handle idle op
          invoke .handlers
  | .blocking => do
      match ← pick with
      | .stop => do
          let s ← read
          if tiReferPreemptCount s.cpu.word = 0 ∧ tiReferIrqCount s.cpu.word = 0 then pure 0 else invoke .blocking
      | op => do
          perform idle may op
          invoke .blocking
  | .user => do
      match ← pick with
      | .exit => do
          thrExitThread idle
          invoke .forever
      | op => do
          perform idle may op
          invoke .user
  | .forever => do
      let _ ← invoke .handlers
      invoke .forever
  | .reaper => do
      let _ ← invoke .blocking
      invoke .reap
  | .reap => do
      let _ ← invoke .drain
      let _ ← wqueWaitOnQueue idle .reaper
      let _ ← invoke .blocking
      invoke .reap
  | .drain => do
      let s ← read
      if listIsEmpty s.cpu.rdq.links (.head .reaper) then pure 0
      else
        match listGetTop s.cpu.rdq.links (.head .reaper) with
        | (.head _,_) => .fail .outOfBounds
        | (.node thr,links) => do
            change fun s => s.setRdq {s.cpu.rdq with links := links}
            let _ ← thrDestroyThread thr
            invoke .drain

def kernel (may : τ → Word → Bool) : System τ (Kernel τ μ ν) (Proc μ ν) Int (Op τ μ ν) Fault :=
    ⟨body idle may,fun s => s.cpu.current⟩

def main (reaper t : τ) : Prog τ μ ν Unit := do
  let _ ← invoke (if t = idle then .forever else if t = reaper then .reaper else .user)
  pure ()

def boot : Kernel τ μ ν :=
  ⟨⟨rdqInitReadyQueue,idle,fun _ => 0⟩,fun _ => .run,unlinked,fun _ => none,fun _ => .wakeup,fun _ => 0,fun _ => none,fun _ => false,fun _ =>
    [],[],[],[]⟩

def start (reaper : τ) : Machine τ (Kernel τ μ ν) (Proc μ ν) Int (Op τ μ ν) Fault := ⟨boot idle,idle,main idle reaper⟩

end Programs

def later {τ μ ν : Type} (n : Nat) (op : Op τ μ ν) : List (Op τ μ ν) := List.replicate n .stop ++ [op]

end TskSw.Threads
