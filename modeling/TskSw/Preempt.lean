import TskSw.ReadyQueue

/-! The preempt word of `thread_info` and the decision to switch in `sched_schedule` and
`sched_delay_disptach` of `kern/sched.c`. The trap handlers of both HALs count exceptions
and interrupts apart, but the scheduler asks only for the interrupt and preempt counts. -/
namespace TskSw.Preempt
open CircularLists KernList ReadyQueue
open BlkIo (Fault)

abbrev Word := BitVec 64

def thrPrecntShift : Nat := 16
def thrIrqcntShift : Nat := 8
def thrExccntShift : Nat := 0
def thrCntrMask : Word := 0xff
def preemptActive : Word := 0x80 <<< 56
def reschedDelayed : Word := 0x40 <<< 56

def tiUpdatePreemptCount (preempt : Word) (shift : Nat) (diff : Word) : Word :=
  let cnt := preempt >>> shift &&& thrCntrMask
  let cnt := cnt + diff
  let cnt := cnt <<< shift &&& thrCntrMask <<< shift
  preempt &&& ~~~(thrCntrMask <<< shift) ||| cnt

def tiReferPreCount (preempt : Word) (shift : Nat) : BitVec 8 := (preempt >>> shift &&& thrCntrMask).setWidth 8

def tiReferPreemptCount (preempt : Word) : BitVec 8 := tiReferPreCount preempt thrPrecntShift
def tiReferIrqCount (preempt : Word) : BitVec 8 := tiReferPreCount preempt thrIrqcntShift
def tiReferExcCount (preempt : Word) : BitVec 8 := tiReferPreCount preempt thrExccntShift

def tiSetDelayDispatch (preempt : Word) : Word := preempt ||| reschedDelayed
def tiClrDelayDispatch (preempt : Word) : Word := preempt &&& ~~~reschedDelayed
def tiCheckNeedDispatch (preempt : Word) : Bool := preempt &&& reschedDelayed ≠ 0
def tiSetPreemptActive (preempt : Word) : Word := preempt ||| preemptActive
def tiClrPreemptActive (preempt : Word) : Word := preempt &&& ~~~preemptActive

-- The masked word is returned as an `int`, which drops the upper half.
def tiCheckPreemptActive (preempt : Word) : BitVec 32 := (preempt &&& preemptActive).setWidth 32

section Fields
variable {w : Word} {s r i : Nat}

theorem maskBit (i) : thrCntrMask.getLsbD i = decide (i < 8) := by
  have ones : thrCntrMask = (BitVec.allOnes 8).setWidth 64 := by decide
  rw [ones,BitVec.getLsbD_setWidth,BitVec.getLsbD_allOnes]
  grind

theorem referBit (low : i < 8) : (tiReferPreCount w s).getLsbD i = w.getLsbD (s+i) := by
  rw [tiReferPreCount,BitVec.getLsbD_setWidth,BitVec.getLsbD_and,BitVec.getLsbD_ushiftRight,maskBit]
  simp [low]

theorem updateBit (d : Word) (inside : s+8 ≤ 64) (i : Nat) : (tiUpdatePreemptCount w s d).getLsbD i =
    if s ≤ i ∧ i < s+8 then (tiReferPreCount w s + d.setWidth 8).getLsbD (i-s) else w.getLsbD i := by
  have sum : (tiReferPreCount w s + d.setWidth 8) = ((w >>> s &&& thrCntrMask) + d).setWidth 8 := (BitVec.setWidth_add _ _ (by decide)).symm
  rw [sum,BitVec.getLsbD_setWidth]
  simp only [tiUpdatePreemptCount,BitVec.getLsbD_or,BitVec.getLsbD_and,BitVec.getLsbD_not,BitVec.getLsbD_shiftLeft,maskBit]
  by_cases wide : i < 64
  · grind
  · rw [BitVec.getLsbD_of_ge w i (by omega)]
    grind

theorem updateSame (d : Word) (inside : s+8 ≤ 64) : tiReferPreCount (tiUpdatePreemptCount w s d) s = tiReferPreCount w s + d.setWidth 8 := by
  refine BitVec.eq_of_getLsbD_eq fun i low => ?_
  rw [referBit low,updateBit d inside,if_pos (by omega),Nat.add_sub_cancel_left]

theorem updateOther (d : Word) (inside : s+8 ≤ 64) (apart : s+8 ≤ r ∨ r+8 ≤ s) :
    tiReferPreCount (tiUpdatePreemptCount w s d) r = tiReferPreCount w r := by
  refine BitVec.eq_of_getLsbD_eq fun i low => ?_
  rw [referBit low,referBit low,updateBit d inside,if_neg (by omega)]

theorem referZero : tiReferPreCount w s = 0 ↔ ∀ i < 8, w.getLsbD (s+i) = false := by
  constructor
  · intro zero i low
    rw [← referBit low,zero]
    simp
  · intro clear
    refine BitVec.eq_of_getLsbD_eq fun i low => ?_
    rw [referBit low,clear i low]
    simp

theorem countPos (c : BitVec 8) : 0 < c ↔ c ≠ 0 := by
  rw [← not_iff_not,not_not,BitVec.not_lt]
  exact BitVec.le_zero_iff

theorem delayedBit (i) : reschedDelayed.getLsbD i = decide (i = 62) := oneBit (w := 64) (p := 62) i (by decide)

theorem activeBit (i : Nat) : preemptActive.getLsbD i = decide (i = 63) := oneBit (w := 64) (p := 63) i (by decide)

theorem testBit {flag p} (bit : ∀ i, flag.getLsbD i = decide (i = p)) (w : Word) : decide (w &&& flag ≠ 0) = w.getLsbD p := by
  rw [Bool.eq_iff_iff,decide_eq_true_iff]
  constructor
  · intro some
    by_contra clear
    refine some (BitVec.eq_of_getLsbD_eq fun j _ => ?_)
    rw [BitVec.getLsbD_and,bit]
    by_cases here : j = p
    · subst here
      simp [Bool.eq_false_iff.mpr clear]
    · simp [here]
  · intro set zero
    have both := congrArg (fun y => y.getLsbD p) zero
    rw [BitVec.getLsbD_and,set,bit] at both
    simp at both

theorem needBit (w) : tiCheckNeedDispatch w = w.getLsbD 62 := testBit delayedBit w

theorem activeUnseen (w : Word) : tiCheckPreemptActive w = 0 := by
  refine BitVec.eq_of_getLsbD_eq fun i low => ?_
  have far : i ≠ 63 := by omega
  rw [tiCheckPreemptActive,BitVec.getLsbD_setWidth,BitVec.getLsbD_and,activeBit]
  simp [far]

theorem referFlagged {flag} (clear : ∀ i < s+8, flag.getLsbD i = false) : tiReferPreCount (w ||| flag) s = tiReferPreCount w s := by
  refine BitVec.eq_of_getLsbD_eq fun i low => ?_
  rw [referBit low,referBit low,BitVec.getLsbD_or,clear _ (by omega),Bool.or_false]

theorem referUnflagged {flag : Word} (inside : s+8 ≤ 64) (clear : ∀ i < s+8, flag.getLsbD i = false) :
    tiReferPreCount (w &&& ~~~flag) s = tiReferPreCount w s := by
  refine BitVec.eq_of_getLsbD_eq fun i low => ?_
  rw [referBit low,referBit low,BitVec.getLsbD_and,BitVec.getLsbD_not,clear _ (by omega)]
  have wide : s+i < 64 := by omega
  simp [wide]

theorem delayedClear (low : s ≤ 48) : ∀ i < s+8, reschedDelayed.getLsbD i = false := fun i below => by
  rw [delayedBit]
  exact decide_eq_false (by omega)

theorem activeClear (low : s ≤ 48) : ∀ i < s+8, preemptActive.getLsbD i = false := fun i below => by
  rw [activeBit]
  exact decide_eq_false (by omega)

end Fields

structure Cpu (τ : Type) where
  rdq : RunQueue τ
  current : τ
  preempt : τ → Word

section Functions
variable {τ : Type} [DecidableEq τ]

def Cpu.word (s : Cpu τ) : Word := s.preempt s.current

def Cpu.setWord (s : Cpu τ) (w : Word) : Cpu τ := {s with preempt := Function.update s.preempt s.current w}

def schedSchedule (idle : τ) (s : Cpu τ) : Except Fault (Cpu τ) :=
  let w := tiSetPreemptActive s.word
  if 0 < tiReferPreemptCount w ∨ 0 < tiReferIrqCount w then
    pure (s.setWord (tiClrPreemptActive (tiSetDelayDispatch w)))
  else do
    let next ← selectNextThread idle s.rdq
    if next = s.current then pure (s.setWord (tiClrPreemptActive w))
    else pure {s.setWord w with current := next}

def resume (s : Cpu τ) : Cpu τ := s.setWord (tiClrPreemptActive s.word)

def schedDelayDisptach (idle : τ) (s : Cpu τ) : Except Fault (Cpu τ) :=
  if 0 < tiReferPreemptCount s.word ∨ 0 < tiReferIrqCount s.word then pure s
  else if tiCheckPreemptActive s.word ≠ 0 then pure s
  else if tiCheckNeedDispatch s.word = false then pure s
  else schedSchedule idle (s.setWord (tiClrDelayDispatch s.word))

def trapShift (irq : Bool) : Nat := if irq then thrIrqcntShift else thrExccntShift

inductive Event (τ : Type) where
  | trap (irq : Bool)
  | leave (irq : Bool)
  | wakeup (threads : List τ)
  | wait
  | rotate
  | schedule
  | delayDispatch
  | resume

def addAll (ts : List τ) (q : RunQueue τ) : Except Fault (RunQueue τ) := ts.foldlM (fun q t => rdqAddThread t q) q

def exec (idle : τ) : Event τ → Cpu τ → Except Fault (Cpu τ)
  | .trap irq,s => pure (s.setWord (tiUpdatePreemptCount s.word (trapShift irq) 1))
  | .leave irq,s => pure (s.setWord (tiUpdatePreemptCount s.word (trapShift irq) (-1)))
  | .wakeup threads,s => do
      let q ← addAll threads s.rdq
      schedSchedule idle {s with rdq := q}
  | .wait,s => do
      let q ← rdqRemoveThread s.current s.rdq
      schedSchedule idle {s with rdq := q}
  | .rotate,s => pure {s with rdq := rdqRotateQueue s.rdq}
  | .schedule,s => schedSchedule idle s
  | .delayDispatch,s => schedDelayDisptach idle s
  | .resume,s => pure (resume s)

def Possible (s : Cpu τ) : Event τ → Prop
  | .wakeup threads => threads.Nodup ∧ ∀ t ∈ threads, listIsLinked s.rdq.links (.node t) = false
  | _ => True

inductive Reached (idle : τ) : Cpu τ → Prop where
  | start {f : Fifo τ} {s : Cpu τ} (holds : Holds f s.rdq) : Reached idle s
  | step {e : Event τ} {s s' : Cpu τ} (before : Reached idle s) (possible : Possible s e) (next : exec idle e s = .ok s') : Reached idle s'

def Leads (idle : τ) (q : RunQueue τ) (t : τ) : Prop :=
  (∃ p, listRefTop q.links (.head (.ready p)) = .node t ∧ ∀ r, p < r → listIsEmpty q.links (.head (.ready r)) = true) ∨
    t = idle ∧ ∀ p, listIsEmpty q.links (.head (.ready p)) = true

def InTask (w : Word) : Prop := tiReferIrqCount w = 0 ∧ tiReferExcCount w = 0 ∧ tiReferPreemptCount w = 0

structure Disciplined (idle : τ) (s : Cpu τ) : Prop where
  schedule : ∀ s', schedSchedule idle s = .ok s' → s'.current ≠ s.current → InTask s.word
  delay : ∀ s', schedDelayDisptach idle s = .ok s' → s'.current ≠ s.current → InTask s.word
  defers : ¬ InTask s.word → ∃ s', schedSchedule idle s = .ok s' ∧ s'.current = s.current ∧ tiCheckNeedDispatch s'.word = true

end Functions

section Rule
variable {τ : Type} [DecidableEq τ] {idle : τ} {s s' : Cpu τ} {f : Fifo τ}

theorem bindOk {α β : Type} {m} {k : α → Except Fault β} {b} (ok : m >>= k = .ok b) :
    ∃ a, m = .ok a ∧ k a = .ok b := by
  cases m with
  | error e => cases ok
  | ok a => exact ⟨a,rfl,ok⟩

theorem preemptActivated (w) : tiReferPreemptCount (tiSetPreemptActive w) = tiReferPreemptCount w :=
  referFlagged (activeClear (by decide))

theorem irqActivated (w : Word) : tiReferIrqCount (tiSetPreemptActive w) = tiReferIrqCount w := referFlagged (activeClear (by decide))

theorem scheduleRdq (ok : schedSchedule idle s = .ok s') : s'.rdq = s.rdq := by
  simp only [schedSchedule] at ok
  split at ok
  · cases ok
    rfl
  · obtain ⟨next,_,ok⟩ := bindOk ok
    split at ok <;> cases ok <;> rfl

theorem addAllHolds {q ts} (h : Holds f q) (nodup : ts.Nodup) (fresh : ∀ t ∈ ts, ∀ k, t ∉ f.queue k) :
    ∃ q' f', addAll ts q = .ok q' ∧ Holds f' q' := by
  induction ts generalizing f q with
  | nil => exact ⟨q,f,rfl,h⟩
  | cons t rest ih =>
    obtain ⟨off,nodup⟩ := List.nodup_cons.mp nodup
    obtain ⟨q',added,holds⟩ := addHolds h (fresh t List.mem_cons_self)
    obtain ⟨last,f',ran,done⟩ := ih holds nodup fun u member k inside => by
      rcases enteredMem inside with ⟨rfl,_⟩ | old
      · exact off member
      · exact fresh u (List.mem_cons_of_mem _ member) k old
    refine ⟨last,f',?_,done⟩
    rw [addAll,List.foldlM_cons,added]
    exact ran

theorem execHolds {e} (h : Holds f s.rdq) (possible : Possible s e) (ok : exec idle e s = .ok s') : ∃ f', Holds f' s'.rdq := by
  cases e with
  | trap irq | leave irq | resume =>
    cases ok
    exact ⟨f,h⟩
  | wakeup threads =>
    obtain ⟨q,f',added,holds⟩ := addAllHolds h possible.1 fun t member => (isLinkedForest h.forest).mp (possible.2 t member)
    simp only [exec,added] at ok
    exact ⟨f',by rw [scheduleRdq ok]; exact holds⟩
  | wait =>
    obtain ⟨q,removed,holds⟩ := removeHolds h s.current
    simp only [exec,removed] at ok
    exact ⟨_,by rw [scheduleRdq ok]; exact holds⟩
  | rotate =>
    cases ok
    exact ⟨_,rotateHolds h⟩
  | schedule => exact ⟨f,by rw [scheduleRdq ok]; exact h⟩
  | delayDispatch =>
    simp only [exec,schedDelayDisptach] at ok
    split at ok
    · cases ok
      exact ⟨f,h⟩
    · split at ok
      · cases ok
        exact ⟨f,h⟩
      · split at ok
        · cases ok
          exact ⟨f,h⟩
        · exact ⟨f,by rw [scheduleRdq ok]; exact h⟩

theorem reachedHolds (run : Reached idle s) : ∃ f, Holds f s.rdq := by
  induction run with
  | start holds => exact ⟨_,holds⟩
  | step _ possible next ih =>
    obtain ⟨f,holds⟩ := ih
    exact execHolds holds possible next

theorem selectLeads {q} (h : Holds f q) (idle) : ∃ t, selectNextThread idle q = .ok t ∧ ∀ u, Leads idle q u ↔ u = t := by
  have empty : ∀ p : Prio, listIsEmpty q.links (.head (.ready p)) = true ↔ f.queue (.ready p) = [] := fun p => isEmptyForest h.forest
  have top : ∀ (p : Prio) u, listRefTop q.links (.head (.ready p)) = .node u ↔ (f.queue (.ready p)).head? = some u := by
    intro p u
    rw [listRefTop,forestFirst h.forest]
    cases f.queue (.ready p) <;> simp
  simp only [Leads,empty,top]
  rcases selectHolds h idle with ⟨p,t,ran,first,above⟩ | ⟨ran,none⟩
  · refine ⟨t,ran,fun u => ⟨?_,?_⟩⟩
    · rintro (⟨r,other,higher⟩ | ⟨_,none⟩)
      · rcases Nat.lt_trichotomy p r with less | same | more
        · rw [above r less] at other
          cases other
        · rw [Fin.ext same,other] at first
          exact Option.some.inj first
        · rw [higher p more] at first
          cases first
      · rw [none p] at first
        cases first
    · rintro rfl
      exact Or.inl ⟨p,first,above⟩
  · refine ⟨idle,ran,fun u => ⟨?_,fun same => Or.inr ⟨same,none⟩⟩⟩
    rintro (⟨r,other,_⟩ | ⟨same,_⟩)
    · rw [none r] at other
      cases other
    · exact same

theorem scheduleDeferred (busy : 0 < tiReferPreemptCount s.word ∨ 0 < tiReferIrqCount s.word) :
    schedSchedule idle s = .ok (s.setWord (tiClrPreemptActive (tiSetDelayDispatch (tiSetPreemptActive s.word)))) := by
  simp only [schedSchedule,preemptActivated,irqActivated,if_pos busy]
  rfl

theorem scheduleSelects {t} (free : ¬ (0 < tiReferPreemptCount s.word ∨ 0 < tiReferIrqCount s.word))
    (selected : selectNextThread idle s.rdq = .ok t) :
    schedSchedule idle s = .ok (if t = s.current then s.setWord (tiClrPreemptActive (tiSetPreemptActive s.word))
      else {s.setWord (tiSetPreemptActive s.word) with current := t}) := by
  simp only [schedSchedule,preemptActivated,irqActivated,if_neg free,selected]
  by_cases same : t = s.current
  · simp [same,bind,Except.bind,pure,Except.pure]
  · simp [same,bind,Except.bind,pure,Except.pure]

theorem setWordWord (s : Cpu τ) (w) : (s.setWord w).word = w := by simp [Cpu.word,Cpu.setWord]

theorem needCleared (w : Word) : tiCheckNeedDispatch (tiClrPreemptActive w) = tiCheckNeedDispatch w := by
  rw [needBit,needBit,tiClrPreemptActive,BitVec.getLsbD_and,BitVec.getLsbD_not,activeBit]
  simp

theorem needSet (w : Word) : tiCheckNeedDispatch (tiSetDelayDispatch w) = true := by
  rw [needBit,tiSetDelayDispatch,BitVec.getLsbD_or,delayedBit]
  simp

theorem needActivated (w : Word) : tiCheckNeedDispatch (tiSetPreemptActive w) = tiCheckNeedDispatch w := by
  rw [needBit,needBit,tiSetPreemptActive,BitVec.getLsbD_or,activeBit]
  simp

theorem delayCurrent {t} (selected : selectNextThread idle s.rdq = .ok t) (ok : schedDelayDisptach idle s = .ok s')
    (switched : s'.current ≠ s.current) : t ≠ s.current ∧ ¬ (0 < tiReferPreemptCount s.word ∨ 0 < tiReferIrqCount s.word) := by
  simp only [schedDelayDisptach] at ok
  split at ok
  · cases ok
    exact absurd rfl switched
  · rename_i free
    refine ⟨?_,free⟩
    rintro rfl
    split at ok
    · cases ok
      exact switched rfl
    · split at ok
      · cases ok
        exact switched rfl
      · have counts : tiReferPreemptCount (tiClrDelayDispatch s.word) = tiReferPreemptCount s.word ∧
            tiReferIrqCount (tiClrDelayDispatch s.word) = tiReferIrqCount s.word :=
          ⟨referUnflagged (by decide) (delayedClear (by decide)),referUnflagged (by decide) (delayedClear (by decide))⟩
        have ran := scheduleSelects (s := s.setWord (tiClrDelayDispatch s.word)) (by rw [setWordWord,counts.1,counts.2]; exact free) selected
        rw [ok,if_pos (show s.current = (s.setWord _).current from rfl)] at ran
        cases ran
        exact switched rfl

theorem dispatchRule (run : Reached idle s) : Disciplined idle s ↔
    tiReferExcCount s.word = 0 ∨ 0 < tiReferIrqCount s.word ∨ 0 < tiReferPreemptCount s.word ∨
      tiCheckNeedDispatch s.word = true ∧ Leads idle s.rdq s.current := by
  obtain ⟨f,holds⟩ := reachedHolds run
  obtain ⟨t,selected,leads⟩ := selectLeads holds idle
  by_cases busy : 0 < tiReferPreemptCount s.word ∨ 0 < tiReferIrqCount s.word
  · refine iff_of_true ⟨fun s' ok switched => ?_,fun s' ok switched => ?_,fun _ => ?_⟩ (Or.inr (by tauto))
    · rw [scheduleDeferred busy] at ok
      cases ok
      exact absurd rfl switched
    · exact absurd busy (delayCurrent selected ok switched).2
    · refine ⟨_,scheduleDeferred busy,rfl,?_⟩
      rw [setWordWord,needCleared,needSet]
  have counts : tiReferPreemptCount s.word = 0 ∧ tiReferIrqCount s.word = 0 := by
    simpa only [not_or,countPos,not_not] using busy
  have task : InTask s.word ↔ tiReferExcCount s.word = 0 := by simp [InTask,counts]
  have ran := scheduleSelects busy selected
  have current : Leads idle s.rdq s.current ↔ t = s.current := (leads s.current).trans eq_comm
  rw [counts.1,counts.2,current]
  constructor
  · intro rule
    by_cases quiet : tiReferExcCount s.word = 0
    · exact Or.inl quiet
    obtain ⟨s',ok,stays,need⟩ := rule.defers (fun e => quiet (task.mp e))
    rw [ran] at ok
    cases ok
    split at stays
    · rename_i same
      rw [if_pos same,setWordWord,needCleared,needActivated] at need
      exact Or.inr (Or.inr (Or.inr ⟨need,same⟩))
    · rename_i other
      exact absurd stays other
  · rintro (quiet | absurdIrq | absurdPre | ⟨need,same⟩)
    · exact ⟨fun _ _ _ => task.mpr quiet,fun _ _ _ => task.mpr quiet,fun outside => absurd (task.mpr quiet) outside⟩
    · exact absurd absurdIrq (by decide)
    · exact absurd absurdPre (by decide)
    · rw [if_pos same] at ran
      refine ⟨fun s' ok switched => ?_,fun s' ok switched => absurd same (delayCurrent selected ok switched).1,fun _ => ⟨_,ran,rfl,?_⟩⟩
      · rw [ran] at ok
        cases ok
        exact absurd rfl switched
      · rw [setWordWord,needCleared,needActivated,need]

end Rule

theorem oneReady (w) : ∃ q, rdqAddThread 2 rdqInitReadyQueue = .ok q ∧ Reached 0 ⟨q,1,fun _ : Nat => w⟩ := by
  have first : Runs 0 [] (rdqInitReadyQueue : RunQueue Nat) := .start
  obtain ⟨q,ran,holds⟩ := addHolds (t := 2) (runsHold first).1 fun _ => List.not_mem_nil
  exact ⟨q,ran,.start holds⟩

theorem interruptDefers : ∃ q, rdqAddThread 2 rdqInitReadyQueue = .ok q ∧ Disciplined 0 ⟨q,1,fun _ : Nat => 0x100⟩ := by
  obtain ⟨q,ran,reached⟩ := oneReady 0x100
  exact ⟨q,ran,(dispatchRule reached).mpr (Or.inr (Or.inl (show 0 < tiReferIrqCount 0x100 by decide)))⟩

theorem exceptionSwitches : ∃ q, rdqAddThread 2 rdqInitReadyQueue = .ok q ∧ Reached 0 ⟨q,1,fun _ : Nat => 1⟩ ∧ tiReferExcCount 1 = 1 ∧
    ∃ s', schedSchedule 0 ⟨q,1,fun _ => 1⟩ = .ok s' ∧ s'.current = 2 := by
  obtain ⟨q,ran,reached⟩ := oneReady 1
  cases ran
  exact ⟨_,rfl,reached,by decide,_,rfl,by decide⟩

end TskSw.Preempt
