import TskSw.TrapCounts
import TskSw.Wheels

/-! The time slices of the round robin threads: `timer_update_thread_time` of `kern/timer.c`
in a timer interrupt, with the way out of the trap in `hal/x64/traps.S` and
`hal/aarch64/vector.S`. Ready threads have the status `THR_TSTATE_RUN` already, so a switch
does not change it. -/
namespace TskSw.RoundRobin
open ReadyQueue Preempt CircularLists
open TrapCounts (Flag Kind put putBit count countPut)
open Wheels (Wheel turn agenda served Turning)
open BlkIo (Fault)
open Function (update update_of_ne update_self)

structure Timed (τ : Type) where
  cpu : Cpu τ
  slice : τ → Nat

variable {τ : Type} {idle t : τ} {f : Fifo τ}

section Functions
variable [DecidableEq τ]

def thrIsRoundRobinThread (q : RunQueue τ) (t : τ) : Bool := q.prio t = BitVec.ofNat 32 rdqUserRrPriority

def timerUpdateThreadTime (idle : τ) (timeSlice : Nat) (s : Timed τ) : Except Fault (Timed τ × Option τ) :=
  let current := s.cpu.current
  if current = idle then pure (s,none)
  else if thrIsRoundRobinThread s.cpu.rdq current = false then pure (s,none)
  else
    let charged := if 0 < s.slice current then some current else none
    let slice := if 0 < s.slice current then update s.slice current (s.slice current - 1) else s.slice
    if slice current = 0 then do
      let slice := update slice current timeSlice
      let cpu ← exec idle .rotate s.cpu
      let cpu ← schedSchedule idle cpu
      pure (⟨cpu,slice⟩,charged)
    else pure (⟨s.cpu,slice⟩,charged)

def retFromTrap (idle : τ) (c : Cpu τ) : Except Fault (Cpu τ) :=
  if c.word &&& 0xffff ≠ 0 then pure c
  else do
    let next ← schedDelayDisptach idle c
    pure (if next.current = c.current then next else resume next)

def tick (idle : τ) (timeSlice : Nat) (s : Timed τ) : Except Fault (Timed τ × Option τ) := do
  let cpu ← exec idle (.trap true) s.cpu
  let (s,charged) ← timerUpdateThreadTime idle timeSlice {s with cpu := cpu}
  let cpu ← exec idle (.leave true) s.cpu
  let cpu ← retFromTrap idle cpu
  pure ({s with cpu := cpu},charged)

def ticks (idle : τ) (timeSlice : Nat) : Nat → Timed τ → Except Fault (Timed τ × List (Option τ))
  | 0,s => pure (s,[])
  | n+1,s => do
      let (s,charged) ← tick idle timeSlice s
      let (s,log) ← ticks idle timeSlice n s
      pure (s,charged :: log)

structure Start (idle : τ) (timeSlice : Nat) (f : Fifo τ) (s : Timed τ) : Prop where
  positive : 1 ≤ timeSlice
  holds : Holds f s.cpu.rdq
  above : ∀ p, 0 < p → f.queue (.ready p) = []
  first : (f.queue (.ready 0)).head? = some s.cpu.current
  awake : idle ∉ f.queue (.ready 0)
  full : ∀ t ∈ f.queue (.ready 0), s.slice t = timeSlice
  task : ∀ t ∈ f.queue (.ready 0), InTask (s.cpu.preempt t)

def unmarked (w : Word) : Word := tiClrDelayDispatch (tiClrPreemptActive w)

structure Alike (s s' : Timed τ) : Prop where
  rdq : s'.cpu.rdq = s.cpu.rdq
  current : s'.cpu.current = s.cpu.current
  slice : s'.slice = s.slice
  words : ∀ t, unmarked (s'.cpu.preempt t) = unmarked (s.cpu.preempt t)

def Settled (c : Cpu τ) (t : τ) : Prop :=
  (c.preempt t).getLsbD Flag.delayed.place = false ∧ (c.preempt t).getLsbD Flag.active.place = decide (t ≠ c.current)

instance (c : Cpu τ) (t : τ) : Decidable (Settled c t) := inferInstanceAs (Decidable (_ ∧ _))

end Functions

section Words
variable {v w : Word}

theorem unmarkedPuts (w) : unmarked w = put .delayed false (put .active false w) := rfl

theorem unmarkedBit (i : Nat) : (unmarked w).getLsbD i = if i = 62 ∨ i = 63 then false else w.getLsbD i := by
  rw [unmarkedPuts,putBit,putBit]
  grind [Flag.place]

theorem unmarkedPut (flag : Flag) (on : Bool) (w : Word) : unmarked (put flag on w) = unmarked w := by
  refine BitVec.eq_of_getLsbD_eq fun i _ => ?_
  rw [unmarkedBit,unmarkedBit,putBit]
  cases flag <;> grind [Flag.place]

theorem unmarkedExt (rest : unmarked v = unmarked w) (delayed : v.getLsbD Flag.delayed.place = w.getLsbD Flag.delayed.place)
    (active : v.getLsbD Flag.active.place = w.getLsbD Flag.active.place) : v = w := by
  refine BitVec.eq_of_getLsbD_eq fun i _ => ?_
  have bit := congrArg (fun x => x.getLsbD i) rest
  simp only [unmarkedBit] at bit
  grind [Flag.place]

theorem putActive {on} (clear : w.getLsbD Flag.delayed.place = false) :
    (put .active on w).getLsbD Flag.delayed.place = false ∧ (put .active on w).getLsbD Flag.active.place = on := by
  rw [putBit,putBit,if_neg (by decide),if_pos rfl]
  exact ⟨clear,rfl⟩

theorem putDelayed (w) : (put .delayed false w).getLsbD Flag.delayed.place = false := by rw [putBit,if_pos rfl]

theorem inTaskCounts : InTask w ↔ count .interrupt w = 0 ∧ count .exception w = 0 ∧ count .preempt w = 0 := Iff.rfl

theorem inTaskPut (flag : Flag) (on : Bool) : InTask (put flag on w) ↔ InTask w := by
  rw [inTaskCounts,inTaskCounts,countPut,countPut,countPut]

theorem inTaskUnmarked : InTask (unmarked w) ↔ InTask w := by rw [unmarkedPuts,inTaskPut,inTaskPut]

theorem updatePut (flag : Flag) (on : Bool) (d : Word) (k : Kind) :
    tiUpdatePreemptCount (put flag on w) k.shift d = put flag on (tiUpdatePreemptCount w k.shift d) := by
  have low := TrapCounts.shiftLow k
  have high : 62 ≤ flag.place := by cases flag <;> decide
  have same : tiReferPreCount (put flag on w) k.shift = tiReferPreCount w k.shift := countPut flag on
  refine BitVec.eq_of_getLsbD_eq fun i _ => ?_
  rw [updateBit d (by omega),same,putBit,putBit,updateBit d (by omega)]
  grind

theorem updateBack (k : Kind) : tiUpdatePreemptCount (tiUpdatePreemptCount w k.shift 1) k.shift (-1) = w := by
  have low := TrapCounts.shiftLow k
  have back : tiReferPreCount w k.shift + (1 : Word).setWidth 8 + (-1 : Word).setWidth 8 = tiReferPreCount w k.shift := by
    rw [BitVec.add_assoc]
    exact BitVec.add_zero _
  refine BitVec.eq_of_getLsbD_eq fun i _ => ?_
  rw [updateBit _ (by omega),updateSame _ (by omega),back]
  split
  · rename_i inside
    rw [referBit (by omega),Nat.add_sub_cancel' inside.1]
  · rename_i outside
    rw [updateBit _ (by omega),if_neg outside]

def expired (w : Word) : Word := put .active false (put .delayed true (put .active true w))

theorem expiredNeeds (w) : tiCheckNeedDispatch (expired w) = true := by
  rw [needBit,expired,putBit,putBit]
  rfl

theorem expiredUnmarked (w : Word) : unmarked (expired w) = unmarked w := by rw [expired,unmarkedPut,unmarkedPut,unmarkedPut]

theorem expiredInTask (task : InTask w) : InTask (expired w) := by rwa [expired,inTaskPut,inTaskPut,inTaskPut]

theorem expiredBack (w : Word) :
    tiUpdatePreemptCount (expired (tiUpdatePreemptCount w thrIrqcntShift 1)) thrIrqcntShift (-1) = expired w := by
  rw [expired,show thrIrqcntShift = Kind.shift .interrupt from rfl,updatePut,updatePut,updatePut,updateBack,expired]

theorem inTaskReturns (task : InTask w) : w &&& 0xffff = 0 := by
  obtain ⟨irq,exc,_⟩ := task
  have ones : (0xffff : Word) = (BitVec.allOnes 16).setWidth 64 := by decide
  refine BitVec.eq_of_getLsbD_eq fun i _ => ?_
  rw [BitVec.getLsbD_and,ones,BitVec.getLsbD_setWidth,BitVec.getLsbD_allOnes]
  by_cases small : i < 8
  · have clear := referZero.mp exc i small
    rw [show thrExccntShift+i = i from Nat.zero_add i] at clear
    simp [clear]
  · by_cases low : i < 16
    · have clear := referZero.mp irq (i-8) (by omega)
      rw [show thrIrqcntShift+(i-8) = i from Nat.add_sub_cancel' (Nat.le_of_not_lt small)] at clear
      simp [clear]
    · simp [low]

end Words

section Dispatch
variable [DecidableEq τ] {c : Cpu τ}

theorem setWordTwice (c : Cpu τ) (v w) : (c.setWord v).setWord w = c.setWord w := by simp [Cpu.setWord]

theorem setWordSame (c : Cpu τ) : c.setWord c.word = c := by simp [Cpu.setWord,Cpu.word]

theorem inTaskFree {w} (task : InTask w) : ¬ (0 < tiReferPreemptCount w ∨ 0 < tiReferIrqCount w) := by
  rw [task.1,task.2.2]
  decide

theorem delayRuns (task : InTask c.word) (selected : selectNextThread idle c.rdq = .ok t) :
    schedDelayDisptach idle c = .ok (if tiCheckNeedDispatch c.word = true then
      if t = c.current then c.setWord (put .active false (put .active true (put .delayed false c.word)))
      else {c.setWord (put .active true (put .delayed false c.word)) with current := t}
      else c) := by
  rw [schedDelayDisptach,if_neg (inTaskFree task),if_neg (by rw [activeUnseen]; simp)]
  cases need : tiCheckNeedDispatch c.word with
  | false => simp [pure,Except.pure]
  | true =>
    have cleared : InTask (c.setWord (tiClrDelayDispatch c.word)).word := by
      rw [setWordWord]
      exact (inTaskPut .delayed false).mpr task
    rw [if_neg (by decide),scheduleSelects (inTaskFree cleared) selected,setWordWord,setWordTwice,setWordTwice]
    rfl

@[simp] theorem setWordAt (c : Cpu τ) (w : Word) (u) : (c.setWord w).preempt u = if u = c.current then w else c.preempt u := by
  simp [Cpu.setWord,Function.update_apply]

theorem settledOf {u w away} (word : c.preempt u = w) (side : decide (u ≠ c.current) = away)
    (flags : w.getLsbD Flag.delayed.place = false ∧ w.getLsbD Flag.active.place = away) : Settled c u := by
  rw [Settled,word,side]
  exact flags

theorem settledFree {u : τ} (need : tiCheckNeedDispatch c.word = true) (settled : Settled c u) : u ≠ c.current := by
  rintro rfl
  have clear := settled.1
  rw [needBit] at need
  exact Bool.false_ne_true (clear.symm.trans need)

structure Dispatched (c c' : Cpu τ) (t : τ) : Prop where
  rdq : c'.rdq = c.rdq
  current : c'.current = t
  words : ∀ u, unmarked (c'.preempt u) = unmarked (c.preempt u)
  away : ∀ u, u ≠ c.current → u ≠ t → c'.preempt u = c.preempt u
  kept : ∀ u, Settled c u → Settled c' u
  spent : tiCheckNeedDispatch c.word = true → Settled c' c.current

theorem switchDispatches (other : t ≠ c.current) (need : tiCheckNeedDispatch c.word = true) :
    Dispatched c (resume {c.setWord (put .active true (put .delayed false c.word)) with current := t}) t := by
  have words : ∀ u, (resume {c.setWord (put .active true (put .delayed false c.word)) with current := t}).preempt u =
      if u = t then put .active false (c.preempt t)
      else if u = c.current then put .active true (put .delayed false c.word) else c.preempt u := by
    intro u
    simp only [resume,setWordAt,Cpu.word,if_neg other]
    rfl
  refine ⟨rfl,rfl,fun u => ?_,fun u off away => ?_,fun u settled => ?_,fun _ => ?_⟩
  · rw [words]
    split
    · rename_i here
      rw [unmarkedPut,here]
    · split
      · rename_i old
        rw [unmarkedPut,unmarkedPut,old]
        rfl
      · rfl
  · rw [words,if_neg away,if_neg off]
  · have off := settledFree need settled
    by_cases here : u = t
    · subst here
      exact settledOf ((words u).trans (if_pos rfl)) (decide_eq_false (not_not_intro rfl)) (putActive settled.1)
    · obtain ⟨clear,active⟩ := settled
      rw [decide_eq_true off] at active
      exact settledOf ((words u).trans ((if_neg here).trans (if_neg off))) (decide_eq_true here) ⟨clear,active⟩
  · exact settledOf ((words c.current).trans ((if_neg other.symm).trans (if_pos rfl))) (decide_eq_true other.symm) (putActive (putDelayed _))

theorem stayDispatches (need : tiCheckNeedDispatch c.word = true) :
    Dispatched c (c.setWord (put .active false (put .active true (put .delayed false c.word)))) c.current := by
  refine ⟨rfl,rfl,fun u => ?_,fun u off _ => ?_,fun u settled => ?_,fun _ => ?_⟩
  · rw [setWordAt]
    split
    · rename_i here
      rw [unmarkedPut,unmarkedPut,unmarkedPut,here]
      rfl
    · rfl
  · rw [setWordAt,if_neg off]
  · have off := settledFree need settled
    exact settledOf ((setWordAt _ _ u).trans (if_neg off)) rfl settled
  · exact settledOf ((setWordAt _ _ _).trans (if_pos rfl)) (decide_eq_false (not_not_intro rfl)) (putActive (putActive (putDelayed _)).1)

theorem retRuns (task : InTask c.word) (selected : selectNextThread idle c.rdq = .ok t)
    (due : t = c.current ∨ tiCheckNeedDispatch c.word = true) : ∃ c', retFromTrap idle c = .ok c' ∧ Dispatched c c' t := by
  rw [retFromTrap,if_neg (not_not_intro (inTaskReturns task)),delayRuns task selected]
  by_cases need : tiCheckNeedDispatch c.word = true
  · rw [if_pos need]
    by_cases same : t = c.current
    · subst same
      rw [if_pos rfl]
      exact ⟨_,congrArg Except.ok (if_pos rfl),stayDispatches need⟩
    · rw [if_neg same]
      exact ⟨_,congrArg Except.ok (if_neg same),switchDispatches same need⟩
  · obtain rfl := due.resolve_right need
    rw [if_neg need]
    refine ⟨c,congrArg Except.ok (if_pos rfl),rfl,rfl,fun _ => rfl,fun _ _ _ => rfl,fun _ settled => settled,?_⟩
    exact fun absurdNeed => absurd absurdNeed need

end Dispatch

section Lines

def turned (f : Fifo τ) (p : Prio) (line : List τ) : Fifo τ := {f with queue := update f.queue (.ready p) line}

theorem turnedSame (f : Fifo τ) : turned f 0 (f.queue (.ready 0)) = f := by rw [turned,Function.update_eq_self]

theorem turnedFirst (f : Fifo τ) (line : List τ) : (turned f 0 line).queue (.ready 0) = line := by simp [turned]

theorem turnedAbove (above : ∀ p, 0 < p → f.queue (.ready p) = []) (line) {p} (high : 0 < p) :
    (turned f 0 line).queue (.ready p) = [] := by
  have other : ThreadList.ready p ≠ .ready 0 := fun e => Fin.pos_iff_ne_zero.mp high (ThreadList.ready.inj e)
  exact (update_of_ne other line f.queue).trans (above p high)

theorem turnedRotates [DecidableEq τ] {line : List τ} {q : RunQueue τ} (h : Holds (turned f 0 line) q) :
    Holds (turned f 0 (line.rotate 1)) (rdqRotateQueue q) := by
  have rotated := rotateHolds h
  rw [turnedFirst] at rotated
  simpa only [turned,Function.update_idem] using rotated

end Lines

section Ticks
variable [DecidableEq τ] {timeSlice : Nat} {s s' s₀ : Timed τ} {w : Wheel τ}

theorem timerPlain (timeSlice) (running : s.cpu.current ≠ idle) (robin : thrIsRoundRobinThread s.cpu.rdq s.cpu.current = true)
    (more : 1 < s.slice s.cpu.current) : timerUpdateThreadTime idle timeSlice s =
      .ok (⟨s.cpu,update s.slice s.cpu.current (s.slice s.cpu.current - 1)⟩,some s.cpu.current) := by
  have some : 0 < s.slice s.cpu.current := by omega
  have rest : ¬ s.slice s.cpu.current - 1 = 0 := by omega
  simp only [timerUpdateThreadTime,if_neg running,robin,if_pos some,update_self,if_neg rest,Bool.true_eq_false,if_false]
  rfl

theorem timerExpires (timeSlice : Nat) (running : s.cpu.current ≠ idle) (robin : thrIsRoundRobinThread s.cpu.rdq s.cpu.current = true)
    (last : s.slice s.cpu.current = 1) (busy : 0 < tiReferIrqCount s.cpu.word) : timerUpdateThreadTime idle timeSlice s =
      .ok (⟨{s.cpu with rdq := rdqRotateQueue s.cpu.rdq}.setWord (expired s.cpu.word),
        update s.slice s.cpu.current timeSlice⟩,some s.cpu.current) := by
  have some : 0 < s.slice s.cpu.current := by omega
  have rest : s.slice s.cpu.current - 1 = 0 := by omega
  have deferred := @scheduleDeferred _ _ idle {s.cpu with rdq := rdqRotateQueue s.cpu.rdq} (Or.inr busy)
  simp only [timerUpdateThreadTime,if_neg running,robin,if_pos some,update_self,if_pos rest,Bool.true_eq_false,if_false,
    Function.update_idem,exec,pure,Except.pure,bind,Except.bind,deferred]
  rfl

theorem tickRuns {charged c}
    (timer : timerUpdateThreadTime idle timeSlice {s with cpu := s.cpu.setWord (tiUpdatePreemptCount s.cpu.word thrIrqcntShift 1)} = .ok (s',charged))
    (ret : retFromTrap idle (s'.cpu.setWord (tiUpdatePreemptCount s'.cpu.word thrIrqcntShift (-1))) = .ok c) :
    tick idle timeSlice s = .ok ({s' with cpu := c},charged) := by
  simp only [tick,exec,trapShift,pure,Except.pure,bind,Except.bind,if_true,timer,ret]

theorem tickPlain (timeSlice) {c : Cpu τ} (running : s.cpu.current ≠ idle) (robin : thrIsRoundRobinThread s.cpu.rdq s.cpu.current = true)
    (more : 1 < s.slice s.cpu.current) (ret : retFromTrap idle s.cpu = .ok c) : tick idle timeSlice s =
      .ok (⟨c,update s.slice s.cpu.current (s.slice s.cpu.current - 1)⟩,some s.cpu.current) := by
  have timer := timerPlain timeSlice (s := {s with cpu := s.cpu.setWord (tiUpdatePreemptCount s.cpu.word thrIrqcntShift 1)})
    running robin more
  refine tickRuns timer ?_
  have back : tiUpdatePreemptCount (tiUpdatePreemptCount s.cpu.word thrIrqcntShift 1) thrIrqcntShift (-1) = s.cpu.word := updateBack .interrupt
  simp only [setWordWord,setWordTwice,back,setWordSame]
  exact ret

theorem tickExpires (timeSlice : Nat) {c : Cpu τ} (running : s.cpu.current ≠ idle) (robin : thrIsRoundRobinThread s.cpu.rdq s.cpu.current = true)
    (last : s.slice s.cpu.current = 1) (task : InTask s.cpu.word)
    (ret : retFromTrap idle ({s.cpu with rdq := rdqRotateQueue s.cpu.rdq}.setWord (expired s.cpu.word)) = .ok c) :
    tick idle timeSlice s = .ok (⟨c,update s.slice s.cpu.current timeSlice⟩,some s.cpu.current) := by
  have busy : 0 < tiReferIrqCount (s.cpu.setWord (tiUpdatePreemptCount s.cpu.word thrIrqcntShift 1)).word := by
    have counted : tiReferIrqCount (tiUpdatePreemptCount s.cpu.word thrIrqcntShift 1) = tiReferIrqCount s.cpu.word + 1 := updateSame _ (by decide)
    rw [setWordWord,counted,task.1]
    decide
  have timer := timerExpires timeSlice (s := {s with cpu := s.cpu.setWord (tiUpdatePreemptCount s.cpu.word thrIrqcntShift 1)})
    running robin last busy
  refine tickRuns timer ?_
  simp only [setWordWord]
  change retFromTrap idle (Cpu.setWord ({s.cpu with rdq := rdqRotateQueue s.cpu.rdq}.setWord _ |>.setWord _) _) = _
  rw [setWordTwice,setWordTwice,expiredBack]
  exact ret

theorem ticksAppend {m n l l' u} (first : ticks idle timeSlice m s = .ok (s',l))
    (second : ticks idle timeSlice n s' = .ok (u,l')) : ticks idle timeSlice (m+n) s = .ok (u,l ++ l') := by
  induction m generalizing s l with
  | zero =>
    cases first
    rw [Nat.zero_add]
    exact second
  | succ m ih =>
    obtain ⟨⟨s₁,charged⟩,ran,first⟩ := bindOk first
    obtain ⟨⟨s₂,rest⟩,more,first⟩ := bindOk first
    cases first
    rw [Nat.succ_add,ticks,ran]
    simp only [bind,Except.bind,ih more,pure,Except.pure,List.cons_append]

theorem selectFirst {q} (h : Holds f q) (above : ∀ p, 0 < p → f.queue (.ready p) = [])
    (first : (f.queue (.ready 0)).head? = some t) (idle) : selectNextThread idle q = .ok t := by
  rcases selectHolds h idle with ⟨p,u,ran,top,_⟩ | ⟨_,empty⟩
  · by_cases low : p = 0
    · subst low
      rw [first] at top
      cases top
      exact ran
    · rw [above p (Fin.pos_iff_ne_zero.mpr low)] at top
      cases top
  · rw [empty 0] at first
    cases first

structure Stands (f : Fifo τ) (s₀ : Timed τ) (w : Wheel τ) (s : Timed τ) : Prop where
  holds : Holds (turned f 0 w.line) s.cpu.rdq
  bitmap : s.cpu.rdq.bitmap = s₀.cpu.rdq.bitmap
  prio : s.cpu.rdq.prio = s₀.cpu.rdq.prio
  members : ∀ t, t ∈ w.line ↔ t ∈ f.queue (.ready 0)
  first : w.line.head? = some s.cpu.current
  slice : s.slice = update s₀.slice s.cpu.current w.left
  words : ∀ t, unmarked (s.cpu.preempt t) = unmarked (s₀.cpu.preempt t)
  others : ∀ t, t ∉ w.line → s.cpu.preempt t = s₀.cpu.preempt t

theorem startStands (h : Start idle timeSlice f s) : Stands f s ⟨f.queue (.ready 0),timeSlice⟩ s := by
  refine ⟨?_,rfl,rfl,fun _ => Iff.rfl,h.first,?_,fun _ => rfl,fun _ _ => rfl⟩
  · rw [turnedSame]
    exact h.holds
  · rw [← h.full _ (List.mem_of_mem_head? h.first),Function.update_eq_self]

omit [DecidableEq τ] in
theorem startTurns (h : Start idle timeSlice f s) : Turning timeSlice ⟨f.queue (.ready 0),timeSlice⟩ := by
  refine ⟨fun empty => ?_,h.positive,Nat.le_refl _⟩
  have first := h.first
  rw [show f.queue (.ready 0) = [] from empty] at first
  cases first

structure Ticks (f : Fifo τ) (s₀ s s' : Timed τ) (timeSlice : Nat) (w : Wheel τ) : Prop where
  stands : Stands f s₀ (turn timeSlice w) s'
  kept : ∀ u, Settled s.cpu u → Settled s'.cpu u
  spent : w.left ≤ 1 → Settled s'.cpu s.cpu.current

theorem standsDispatched {c c' slice} (done : Dispatched c c' t) (h : Holds (turned f 0 w.line) c.rdq)
    (bitmap : c.rdq.bitmap = s₀.cpu.rdq.bitmap) (prio : c.rdq.prio = s₀.cpu.rdq.prio)
    (members : ∀ t, t ∈ w.line ↔ t ∈ f.queue (.ready 0)) (inside : c.current ∈ w.line)
    (words : ∀ t, unmarked (c.preempt t) = unmarked (s₀.cpu.preempt t)) (others : ∀ t, t ∉ w.line → c.preempt t = s₀.cpu.preempt t)
    (first : w.line.head? = some t) (slices : slice = update s₀.slice t w.left) :
    Stands f s₀ w ⟨c',slice⟩ := by
  have here := List.mem_of_mem_head? first
  refine ⟨?_,?_,?_,members,?_,?_,fun u => (done.words u).trans (words u),fun u outside => ?_⟩
  · rw [done.rdq]
    exact h
  · rw [done.rdq,bitmap]
  · rw [done.rdq,prio]
  · rw [done.current,first]
  · rw [done.current,slices]
  · have away : u ≠ c.current ∧ u ≠ t := ⟨fun e => outside (e ▸ inside),fun e => outside (e ▸ here)⟩
    exact (done.away u away.1 away.2).trans (others u outside)

theorem standsPlain (h : Start idle timeSlice f s₀) (stands : Stands f s₀ w s) (running : s.cpu.current ≠ idle)
    (robin : thrIsRoundRobinThread s.cpu.rdq s.cpu.current = true) (task : InTask s.cpu.word) (more : ¬ w.left ≤ 1) :
    ∃ s', tick idle timeSlice s = .ok (s',w.line.head?) ∧ Ticks f s₀ s s' timeSlice w := by
  have left : s.slice s.cpu.current = w.left := by rw [stands.slice,update_self]
  have selected := selectFirst stands.holds (fun p => turnedAbove h.above w.line)
    ((congrArg List.head? (turnedFirst f w.line)).trans stands.first) idle
  obtain ⟨c,ret,done⟩ := retRuns task selected (Or.inl rfl)
  have ran := tickPlain timeSlice running robin (by rw [left]; omega) ret
  have turns : turn timeSlice w = {w with left := w.left-1} := if_neg more
  rw [stands.first]
  refine ⟨_,ran,?_,done.kept,fun last => absurd last more⟩
  rw [turns]
  refine standsDispatched (w := {w with left := w.left-1}) done stands.holds stands.bitmap stands.prio stands.members
    (List.mem_of_mem_head? stands.first) stands.words stands.others stands.first ?_
  rw [left,stands.slice,Function.update_idem]

theorem standsExpires (h : Start idle timeSlice f s₀) (stands : Stands f s₀ w s) (turning : Turning timeSlice w)
    (running : s.cpu.current ≠ idle)
    (robin : thrIsRoundRobinThread s.cpu.rdq s.cpu.current = true) (task : InTask s.cpu.word) (last : w.left ≤ 1) :
    ∃ s', tick idle timeSlice s = .ok (s',w.line.head?) ∧ Ticks f s₀ s s' timeSlice w := by
  have one : w.left = 1 := Nat.le_antisymm last turning.low
  have left : s.slice s.cpu.current = 1 := by rw [stands.slice,update_self,one]
  have rotated := turnedRotates stands.holds
  have members : ∀ t, t ∈ w.line.rotate 1 ↔ t ∈ f.queue (.ready 0) := fun t => List.mem_rotate.trans (stands.members t)
  obtain ⟨t,first⟩ : ∃ t, (w.line.rotate 1).head? = some t := by
    cases line : w.line.rotate 1 with
    | nil => exact absurd (List.rotate_eq_nil_iff.mp line) turning.some
    | cons t rest => exact ⟨t,rfl⟩
  have here := (members t).mp (List.mem_of_mem_head? first)
  have current := (stands.members _).mp (List.mem_of_mem_head? stands.first)
  have selected := selectFirst rotated (fun p => turnedAbove h.above _) ((congrArg List.head? (turnedFirst f _)).trans first) idle
  have need : tiCheckNeedDispatch ({s.cpu with rdq := rdqRotateQueue s.cpu.rdq}.setWord (expired s.cpu.word)).word = true := by
    rw [setWordWord]
    exact expiredNeeds _
  obtain ⟨c,ret,done⟩ := retRuns (c := {s.cpu with rdq := rdqRotateQueue s.cpu.rdq}.setWord (expired s.cpu.word))
    (by rw [setWordWord]; exact expiredInTask task) selected (Or.inr need)
  have ran := tickExpires timeSlice running robin left task ret
  have turns : turn timeSlice w = ⟨w.line.rotate 1,timeSlice⟩ := if_pos last
  have spent := done.spent need
  rw [stands.first]
  refine ⟨_,ran,?_,fun u settled => ?_,fun _ => spent⟩
  · rw [turns]
    refine standsDispatched (w := ⟨w.line.rotate 1,timeSlice⟩) done rotated stands.bitmap stands.prio members
      ((members _).mpr current) (fun u => ?_) (fun u outside => ?_) first ?_
    · rw [setWordAt]
      split
      · rename_i same
        rw [expiredUnmarked,same,← stands.words]
        rfl
      · exact stands.words u
    · have off : u ≠ s.cpu.current := fun e => outside ((members u).mpr (e ▸ current))
      exact (setWordAt _ _ u).trans ((if_neg off).trans (stands.others u fun inside => outside (List.mem_rotate.mpr inside)))
    · rw [stands.slice,Function.update_idem,← h.full _ current,Function.update_eq_self,h.full _ current,← h.full t here,Function.update_eq_self]
  · by_cases same : u = s.cpu.current
    · subst same
      exact spent
    · exact done.kept u (settledOf ((setWordAt _ _ u).trans (if_neg same)) rfl settled)

theorem standsTick (h : Start idle timeSlice f s₀) (stands : Stands f s₀ w s) (turning : Turning timeSlice w) :
    ∃ s', tick idle timeSlice s = .ok (s',w.line.head?) ∧ Ticks f s₀ s s' timeSlice w := by
  have member := (stands.members _).mp (List.mem_of_mem_head? stands.first)
  have running : s.cpu.current ≠ idle := fun e => h.awake (e ▸ member)
  have robin : thrIsRoundRobinThread s.cpu.rdq s.cpu.current = true := by
    have own := (h.holds.prio s.cpu.current).trans (congrArg Fin.val (h.holds.own 0 _ member))
    rw [thrIsRoundRobinThread,stands.prio,decide_eq_true_iff]
    exact BitVec.eq_of_toNat_eq own
  have task : InTask s.cpu.word := by
    rw [← inTaskUnmarked,Cpu.word,stands.words,inTaskUnmarked]
    exact h.task _ member
  by_cases last : w.left ≤ 1
  · exact standsExpires h stands turning running robin task last
  · exact standsPlain h stands running robin task last

omit [DecidableEq τ] in
theorem servedSucc (w) (first : w.line.head? = some t) (n) :
    (served timeSlice (n+1) w).map some = some t :: (served timeSlice n (turn timeSlice w)).map some := by
  rw [served,List.take_one,first]
  rfl

theorem standsTicks (h : Start idle timeSlice f s₀) (stands : Stands f s₀ w s) (turning : Turning timeSlice w) (n : Nat) :
    ∃ s', ticks idle timeSlice n s = .ok (s',(served timeSlice n w).map some) ∧ Stands f s₀ ((turn timeSlice)^[n] w) s' ∧
      (∀ u, Settled s.cpu u → Settled s'.cpu u) ∧ (w.left ≤ n → Settled s'.cpu s.cpu.current) := by
  induction n generalizing s w with
  | zero => exact ⟨s,rfl,stands,fun _ settled => settled,fun none => absurd turning.low (by omega)⟩
  | succ n ih =>
    obtain ⟨s₁,ran,next⟩ := standsTick h stands turning
    obtain ⟨s',rest,done,kept,spent⟩ := ih next.stands (Wheels.turnTurning turning)
    refine ⟨s',?_,done,fun u settled => kept u (next.kept u settled),fun enough => ?_⟩
    · rw [servedSucc w stands.first,ticks,ran,stands.first]
      simp only [bind,Except.bind,rest,pure,Except.pure]
    · by_cases last : w.left ≤ 1
      · exact kept _ (next.spent last)
      · have turns : turn timeSlice w = {w with left := w.left-1} := if_neg last
        have first := next.stands.first
        rw [turns] at spent first
        have same : s.cpu.current = s₁.cpu.current := Option.some.inj (stands.first.symm.trans first)
        rw [same]
        exact spent (by dsimp only; omega)

theorem standsSettles (h : Start idle timeSlice f s) {n k log} (inside : k ≤ (f.queue (.ready 0)).length)
    (enough : k*timeSlice ≤ n) (ran : ticks idle timeSlice n s = .ok (s',log)) : ∀ t ∈ (f.queue (.ready 0)).take k, Settled s'.cpu t := by
  induction k with
  | zero => exact fun t absurd => by simp at absurd
  | succ k ih =>
    rw [Nat.succ_mul] at enough
    intro t member
    rw [List.take_add_one,List.mem_append] at member
    rcases member with before | here
    · exact ih (by omega) (by omega) t before
    · obtain ⟨s₁,first,stands,_⟩ := standsTicks h (startStands h) (startTurns h) (k*timeSlice)
      rw [Wheels.turnsMany h.positive] at stands
      have turning : Turning timeSlice ⟨(f.queue (.ready 0)).rotate k,timeSlice⟩ :=
        ⟨fun empty => (startTurns h).some (List.rotate_eq_nil_iff.mp empty),h.positive,Nat.le_refl _⟩
      obtain ⟨s₂,second,_,_,spent⟩ := standsTicks h stands turning (n-k*timeSlice)
      have whole := ticksAppend first second
      rw [Nat.add_sub_cancel' (by omega),ran] at whole
      cases whole
      have current : s₁.cpu.current = t := by
        have top := stands.first
        rw [List.head?_rotate (by omega)] at top
        rw [Option.mem_toList] at here
        exact Option.some.inj (top.symm.trans here)
      rw [← current]
      exact spent (by dsimp only; omega)

theorem standsAlike {u} (first : Stands f s₀ w s) (second : Stands f s₀ w u) : Alike s u := by
  have current : u.cpu.current = s.cpu.current := Option.some.inj (second.first.symm.trans first.first)
  refine ⟨?_,current,?_,fun t => (second.words t).trans (first.words t).symm⟩
  · have links := forestUnique first.holds.forest second.holds.forest
    have bitmap := second.bitmap.trans first.bitmap.symm
    have prio := second.prio.trans first.prio.symm
    revert links bitmap prio
    cases u.cpu.rdq
    cases s.cpu.rdq
    rintro rfl rfl rfl
    rfl
  · rw [first.slice,second.slice,current]

theorem standsSame {u} (first : Stands f s₀ w s) (second : Stands f s₀ w u) (before : ∀ t ∈ w.line, Settled s.cpu t)
    (after : ∀ t ∈ w.line, Settled u.cpu t) : u = s := by
  obtain ⟨rdq,current,slice,words⟩ := standsAlike first second
  have preempt : u.cpu.preempt = s.cpu.preempt := by
    funext t
    by_cases member : t ∈ w.line
    · obtain ⟨clear,active⟩ := before t member
      obtain ⟨clear',active'⟩ := after t member
      refine unmarkedExt (words t) (clear'.trans clear.symm) ?_
      rw [active,active',current]
    · exact (second.others t member).trans (first.others t member).symm
  obtain ⟨⟨rdq',current',preempt'⟩,slice'⟩ := u
  obtain ⟨⟨rdq₁,current₁,preempt₁⟩,slice₁⟩ := s
  cases rdq
  cases current
  cases slice
  cases preempt
  rfl

theorem ticksShared (h : Start idle timeSlice f s) (n : Nat) : ∃ log u v, ticks idle timeSlice n s = .ok (u,log) ∧
    ticks idle timeSlice ((f.queue (.ready 0)).length*timeSlice) u =
      .ok (v,(((f.queue (.ready 0)).flatMap (List.replicate timeSlice)).rotate n).map some) ∧
    Alike u v ∧
    ((f.queue (.ready 0)).length*timeSlice ≤ n ∨ (∀ t ∈ f.queue (.ready 0), Settled s.cpu t) → v = u) := by
  have turning := startTurns h
  obtain ⟨u,first,before,kept,_⟩ := standsTicks h (startStands h) turning n
  obtain ⟨v,second,after,keeps,_⟩ := standsTicks h before (Wheels.iterateTurning turning n) ((f.queue (.ready 0)).length*timeSlice)
  rw [Wheels.roundReturns h.positive] at after
  refine ⟨_,u,v,first,?_,standsAlike before after,fun settles => ?_⟩
  · rw [second,← Wheels.agendaFull,← Wheels.iterateAgenda turning,← Wheels.servedRound (Wheels.iterateTurning turning n),Wheels.iterateLength]
  · have settled : ∀ t ∈ f.queue (.ready 0), Settled u.cpu t := by
      rcases settles with long | start
      · have all := standsSettles h (Nat.le_refl _) long first
        rw [List.take_length] at all
        exact all
      · exact fun t member => kept t (start t member)
    have inside := before.members
    exact standsSame before after (fun t member => settled t ((inside t).mp member)) fun t member => keeps t (settled t ((inside t).mp member))

end Ticks

def twoRobins : List (Op Nat) := [.create none true (some 2),.create none true (some 1)]

theorem ticksSharedTwo : ∃ q, Start 0 2 (fifo twoRobins) ⟨⟨q,1,fun _ => 0⟩,fun _ => 2⟩ ∧
    ∃ log u v, ticks 0 2 3 ⟨⟨q,1,fun _ => 0⟩,fun _ => 2⟩ = .ok (u,log) ∧ ticks 0 2 4 u = .ok (v,[some 2,some 1,some 1,some 2]) ∧
      Alike u v := by
  have first : Legal 0 [] (.create none true (some 1)) := by
    rintro t ⟨⟩
    exact ⟨by decide,List.not_mem_nil⟩
  have second : Legal 0 [.create none true (some 1)] (.create none true (some 2)) := by
    rintro t ⟨⟩
    exact ⟨by decide,by decide⟩
  have run : Runs 0 twoRobins _ := .step (.step .start first rfl) second rfl
  have task : InTask 0 := by unfold InTask; decide
  have start : Start 0 2 (fifo twoRobins) ⟨⟨_,1,fun _ => 0⟩,fun _ => 2⟩ :=
    ⟨by decide,(runsHold run).1,by decide,by decide,by decide,fun _ _ => rfl,fun _ _ => task⟩
  obtain ⟨log,u,v,ran,round,alike,_⟩ := ticksShared start 3
  exact ⟨_,start,log,u,v,ran,round,alike⟩

end TskSw.RoundRobin
