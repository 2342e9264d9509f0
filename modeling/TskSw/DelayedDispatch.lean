import TskSw.Preempt

/-! Nested traps on one thread: `hal_common_trap_handler`, `ret_from_trap` of `traps.S` and
`sched_delay_disptach`, in steps between which an interrupt may come. A flag is cleared by a
load and a store of the whole word; interrupts are enabled where `ti_clr_preempt_active` and
`ti_clr_delay_dispatch` do that. Exception handlers do not call the scheduler. -/
namespace TskSw.DelayedDispatch
open Preempt

inductive Point where
  | running
  | unwinding (loaded : Option Word)
  | testing
  | testingActive
  | testingNeed
  | clearing (loaded : Option Word)
  | dispatching
  | finishing (loaded : Option Word)
  | leaving
  deriving DecidableEq

inductive Code where
  | task
  | trap (irq : Bool)
  deriving DecidableEq

structure Frame where
  code : Code
  point : Point
  deriving DecidableEq

structure Thread where
  word : Word
  frames : List Frame
  -- A dispatch was put off and no thread has been selected since.
  owed : Bool
  deriving DecidableEq

inductive Event where
  | trap (irq : Bool)
  | leave
  | schedule
  | run
  deriving DecidableEq

section Functions

def schedSchedule (w : Word) : Word × Bool :=
  let w := tiSetPreemptActive w
  if 0 < tiReferPreemptCount w ∨ 0 < tiReferIrqCount w then (tiSetDelayDispatch w,true) else (w,false)

theorem scheduleAlike {τ : Type} [DecidableEq τ] {idle : τ} {s s' : Cpu τ} (ok : Preempt.schedSchedule idle s = .ok s') :
    (s'.current = s.current → s'.word = tiClrPreemptActive (schedSchedule s.word).1) ∧
    (s'.current ≠ s.current → schedSchedule s.word = (s'.preempt s.current,false)) := by
  have here : ∀ w, (s.setWord w).preempt s.current = w := fun w => Function.update_self ..
  unfold Preempt.schedSchedule at ok
  dsimp only at ok
  split at ok
  · rename_i busy
    cases ok
    rw [show schedSchedule s.word = _ from if_pos busy]
    exact ⟨fun _ => here _,fun other => absurd rfl other⟩
  rename_i free
  have decided : schedSchedule s.word = _ := if_neg free
  cases selected : ReadyQueue.selectNextThread idle s.rdq with
  | error e =>
    rw [selected] at ok
    cases ok
  | ok next =>
    rw [selected] at ok
    change (if next = s.current then _ else _) = _ at ok
    split at ok
    · cases ok
      rw [decided]
      exact ⟨fun _ => here _,fun other => absurd rfl other⟩
    · rename_i other
      cases ok
      exact ⟨fun same => absurd same other,fun _ => decided.trans (by rw [here])⟩

def advance (p : Point) (w : Word) (owed : Bool) : Option (Option Point × Word × Bool) :=
  match p with
  | .running => none
  | .unwinding none => some (some (.unwinding (some w)),w,owed)
  | .unwinding (some v) => some (some .running,tiClrPreemptActive v,owed)
  | .testing => some (some (if 0 < tiReferPreemptCount w ∨ 0 < tiReferIrqCount w then .leaving else .testingActive),w,owed)
  | .testingActive => some (some (if tiCheckPreemptActive w ≠ 0 then .leaving else .testingNeed),w,owed)
  | .testingNeed => some (some (if tiCheckNeedDispatch w then .clearing none else .leaving),w,owed)
  | .clearing none => some (some (.clearing (some w)),w,owed)
  | .clearing (some v) => some (some .dispatching,tiClrDelayDispatch v,owed)
  | .dispatching => some (some (.finishing none),schedSchedule w)
  | .finishing none => some (some (.finishing (some w)),w,owed)
  | .finishing (some v) => some (some .leaving,tiClrPreemptActive v,owed)
  | .leaving => some (none,w,owed)

def step (e : Event) (s : Thread) : Option Thread :=
  match e,s.frames with
  | .trap irq,frames => some {s with word := tiUpdatePreemptCount s.word (trapShift irq) 1, frames := ⟨.trap irq,.running⟩ :: frames}
  | .leave,⟨.trap irq,.running⟩ :: rest =>
      let w := tiUpdatePreemptCount s.word (trapShift irq) (-1)
      some {s with word := w, frames := if w &&& 0xffff ≠ 0 then rest else ⟨.trap irq,.testing⟩ :: rest}
  | .schedule,⟨code,.running⟩ :: rest =>
      if code = .trap false then none
      else some ⟨(schedSchedule s.word).1,⟨code,.unwinding none⟩ :: rest,(schedSchedule s.word).2⟩
  | .run,f :: rest => (advance f.point s.word s.owed).map fun (p,w,owed) => ⟨w,(p.map fun p => ⟨f.code,p⟩).toList ++ rest,owed⟩
  | _,_ => none

def start : Thread := ⟨0,[⟨.task,.running⟩],false⟩

end Functions

def Point.inHandler : Point → Bool
  | .running | .unwinding _ => true
  | _ => false

def Frame.handling (irq : Bool) (f : Frame) : Bool := f.code == .trap irq && f.point.inHandler

def nesting (irq : Bool) (frames : List Frame) : Nat := frames.countP (Frame.handling irq)

def Shallow (s : Thread) : Event → Prop
  | .trap irq => nesting irq s.frames < 255
  | _ => True

inductive Reached : Thread → Prop where
  | start : Reached start
  | step {e : Event} {s s' : Thread} (before : Reached s) (shallow : Shallow s e) (next : step e s = some s') : Reached s'

def need (s : Thread) : Bool := tiCheckNeedDispatch s.word

def Frame.pending (f : Frame) : Bool :=
  match f.code,f.point with
  | .task,_ | _,.dispatching | _,.finishing _ | _,.leaving => false
  | _,_ => true

structure Fits (frames : List Frame) (w : Word) : Prop where
  irq : tiReferIrqCount w = BitVec.ofNat 8 (nesting true frames)
  exc : tiReferExcCount w = BitVec.ofNat 8 (nesting false frames)
  preempt : tiReferPreemptCount w = 0

inductive Stack : List Frame → Prop where
  | task {p : Point} (inside : p.inHandler = true)
      (load : ∀ v, p = .unwinding (some v) → Fits [] v ∧ tiCheckNeedDispatch v = false) : Stack [⟨.task,p⟩]
  | interrupt {p : Point} {rest : List Frame} (inside : p.inHandler = true) (below : Stack rest)
      (load : ∀ v, p = .unwinding (some v) → Fits (⟨.trap true,p⟩ :: rest) v ∧ tiCheckNeedDispatch v = true) :
      Stack (⟨.trap true,p⟩ :: rest)
  | exception {rest : List Frame} (below : Stack rest) : Stack (⟨.trap false,.running⟩ :: rest)
  | exit {irq : Bool} {p : Point} {rest : List Frame} (outside : p.inHandler = false) (below : Stack rest)
      (quiet : ∀ irq, nesting irq rest = 0) (load : ∀ v, p = .clearing (some v) ∨ p = .finishing (some v) → Fits [] v)
      (cleared : ∀ v, p = .finishing (some v) → tiCheckNeedDispatch v = false) : Stack (⟨.trap irq,p⟩ :: rest)

structure Inv (s : Thread) : Prop where
  stack : Stack s.frames
  fits : Fits s.frames s.word
  low : ∀ irq, nesting irq s.frames < 256
  quiet : ∀ f rest, s.frames = f :: rest → f.pending = false → tiCheckNeedDispatch s.word = false
  unwinding : ∀ l, ⟨.trap true,.unwinding l⟩ ∈ s.frames → tiCheckNeedDispatch s.word = true
  owed : s.owed = true → tiCheckNeedDispatch s.word = true ∨ ∃ c, ⟨c,.dispatching⟩ ∈ s.frames

variable {rest : List Frame} {w v : Word} {irq due : Bool} {p : Point} {s s' : Thread} {q : Option Point}

section Words
variable {frames : List Frame}

theorem nestingCons (irq f rest) :
    nesting irq (f :: rest) = nesting irq rest + if f.handling irq then 1 else 0 := List.countP_cons

theorem needTrap (irq : Bool) (d : Word) : tiCheckNeedDispatch (tiUpdatePreemptCount w (trapShift irq) d) = tiCheckNeedDispatch w := by
  rw [needBit,needBit,updateBit d (by cases irq <;> decide),if_neg (by cases irq <;> decide)]

theorem needUncleared : tiCheckNeedDispatch (tiClrDelayDispatch w) = false := by
  rw [needBit,tiClrDelayDispatch,BitVec.getLsbD_and,BitVec.getLsbD_not,delayedBit]
  simp

theorem fitsLike {v} (h : Fits frames w) (same : ∀ s, s ≤ 16 → tiReferPreCount v s = tiReferPreCount w s) : Fits frames v :=
  ⟨(same _ (by decide)).trans h.irq,(same _ (by decide)).trans h.exc,(same _ (by decide)).trans h.preempt⟩

theorem fitsSetActive (h : Fits frames w) : Fits frames (tiSetPreemptActive w) := fitsLike h fun _ low => referFlagged (activeClear (by omega))

theorem fitsClrActive (h : Fits frames w) : Fits frames (tiClrPreemptActive w) :=
  fitsLike h fun _ low => referUnflagged (by omega) (activeClear (by omega))

theorem fitsSetDelay (h : Fits frames w) : Fits frames (tiSetDelayDispatch w) := fitsLike h fun _ low => referFlagged (delayedClear (by omega))

theorem fitsClrDelay (h : Fits frames w) : Fits frames (tiClrDelayDispatch w) :=
  fitsLike h fun _ low => referUnflagged (by omega) (delayedClear (by omega))

theorem fitsNesting {frames'} (h : Fits frames w) (same : ∀ irq, nesting irq frames' = nesting irq frames) : Fits frames' w :=
  ⟨by rw [same]; exact h.irq,by rw [same]; exact h.exc,h.preempt⟩

theorem fitsTrap (irq) (h : Fits frames w) : Fits (⟨.trap irq,.running⟩ :: frames) (tiUpdatePreemptCount w (trapShift irq) 1) := by
  cases irq with
  | true =>
    refine ⟨?_,(updateOther 1 (by decide) (by decide)).trans ?_,(updateOther 1 (by decide) (by decide)).trans h.preempt⟩
    · refine (updateSame 1 (by decide)).trans ?_
      rw [nestingCons,BitVec.ofNat_add]
      exact congrArg (· + 1#8) h.irq
    · rw [nestingCons]
      exact h.exc
  | false =>
    refine ⟨(updateOther 1 (by decide) (by decide)).trans ?_,?_,(updateOther 1 (by decide) (by decide)).trans h.preempt⟩
    · rw [nestingCons]
      exact h.irq
    · refine (updateSame 1 (by decide)).trans ?_
      rw [nestingCons,BitVec.ofNat_add]
      exact congrArg (· + 1#8) h.exc

theorem fitsLeave (irq) (h : Fits (⟨.trap irq,.running⟩ :: rest) w) : Fits rest (tiUpdatePreemptCount w (trapShift irq) (-1)) := by
  have less : ∀ (c : BitVec 8) n, c = BitVec.ofNat 8 (n+1) → c + (-1 : Word).setWidth 8 = BitVec.ofNat 8 n := by
    rintro c n rfl
    have minus : (-1 : Word).setWidth 8 = -1#8 := by decide
    rw [BitVec.ofNat_add,minus,← BitVec.sub_eq_add_neg,BitVec.add_sub_cancel]
  cases irq with
  | true =>
    refine ⟨(updateSame (-1) (by decide)).trans (less _ _ ?_),(updateOther (-1) (by decide) (by decide)).trans ?_,
      (updateOther (-1) (by decide) (by decide)).trans h.preempt⟩
    · exact h.irq.trans (by rw [nestingCons]; rfl)
    · exact h.exc.trans (by rw [nestingCons]; rfl)
  | false =>
    refine ⟨(updateOther (-1) (by decide) (by decide)).trans ?_,(updateSame (-1) (by decide)).trans (less _ _ ?_),
      (updateOther (-1) (by decide) (by decide)).trans h.preempt⟩
    · exact h.irq.trans (by rw [nestingCons]; rfl)
    · exact h.exc.trans (by rw [nestingCons]; rfl)

theorem countZero {n} (low : n < 256) : BitVec.ofNat 8 n = 0 ↔ n = 0 := by
  rw [← BitVec.toNat_inj,BitVec.toNat_ofNat,Nat.mod_eq_of_lt low]
  rfl

theorem irqBusy (h : Fits frames w) (low : ∀ irq, nesting irq frames < 256) :
    (0 < tiReferPreemptCount w ∨ 0 < tiReferIrqCount w) ↔ nesting true frames ≠ 0 := by
  rw [h.preempt,h.irq,countPos,countPos,ne_eq (BitVec.ofNat _ _),countZero (low true)]
  simp

theorem trapBusy (h : Fits frames w) (low : ∀ irq, nesting irq frames < 256) :
    w &&& 0xffff ≠ 0 ↔ nesting true frames ≠ 0 ∨ nesting false frames ≠ 0 := by
  have half : w &&& 0xffff = 0 ↔ tiReferIrqCount w = 0 ∧ tiReferExcCount w = 0 := by
    have mask : ∀ i, (0xffff : Word).getLsbD i = decide (i < 16) := fun i => by
      have ones : (0xffff : Word) = (BitVec.allOnes 16).setWidth 64 := by decide
      rw [ones,BitVec.getLsbD_setWidth,BitVec.getLsbD_allOnes]
      grind
    have bits : w &&& 0xffff = 0 ↔ ∀ i < 16, w.getLsbD i = false := by
      constructor
      · intro zero i low
        have bit := congrArg (fun y => y.getLsbD i) zero
        rw [BitVec.getLsbD_and,mask,decide_eq_true low] at bit
        simpa using bit
      · intro clear
        refine BitVec.eq_of_getLsbD_eq fun i _ => ?_
        rw [BitVec.getLsbD_and,mask]
        by_cases low : i < 16
        · simp [clear i low]
        · simp [low]
    rw [bits,tiReferIrqCount,tiReferExcCount,referZero,referZero]
    simp only [thrIrqcntShift,thrExccntShift,Nat.zero_add]
    refine ⟨fun clear => ⟨fun i low => clear _ (by omega),fun i low => clear i (by omega)⟩,fun ⟨high,low⟩ i below => ?_⟩
    by_cases first : i < 8
    · exact low i first
    · have := high (i-8) (by omega)
      rwa [Nat.add_sub_cancel' (by omega)] at this
  rw [Ne,half,h.irq,h.exc,countZero (low true),countZero (low false),not_and_or]

end Words

section Steps
variable {owed : Bool}

theorem outsideNesting {irq p} (outside : p.inHandler = false) (c) : nesting c (⟨.trap irq,p⟩ :: rest) = nesting c rest := by
  rw [nestingCons]
  simp [Frame.handling,outside]

theorem taskNesting (p : Point) (irq : Bool) : nesting irq [⟨.task,p⟩] = 0 := by
  rw [nestingCons]
  rfl

theorem insidePending (inside : p.inHandler = true) : (Frame.mk (.trap irq) p).pending = true := by
  cases p <;> first | rfl | cases inside

theorem handlerOnTop (h : Stack rest) (busy : nesting true rest ≠ 0 ∨ nesting false rest ≠ 0) :
    ∃ f r, rest = f :: r ∧ f.pending = true := by
  cases h with
  | task => simp [taskNesting] at busy
  | interrupt inside => exact ⟨_,_,rfl,insidePending inside⟩
  | exception => exact ⟨_,_,rfl,rfl⟩
  | exit outside below quiet => simp [outsideNesting outside,quiet] at busy

theorem trapInv (h : Inv s) (shallow : Shallow s (.trap irq)) (next : step (.trap irq) s = some s') : Inv s' := by
  cases next
  have stack : Stack (⟨.trap irq,.running⟩ :: s.frames) := by
    cases irq with
    | true => exact .interrupt rfl h.stack fun _ absurd => by cases absurd
    | false => exact .exception h.stack
  refine ⟨stack,fitsTrap irq h.fits,fun c => ?_,fun f rest same idle => ?_,fun l member => ?_,fun owed => ?_⟩
  · have before := h.low c
    have shallow : nesting irq s.frames < 255 := shallow
    rw [nestingCons]
    split
    · rename_i same
      simp only [Frame.handling,Bool.and_eq_true,beq_iff_eq,Code.trap.injEq] at same
      rw [← same.1]
      omega
    · exact before
  · cases same
    cases idle
  · rw [needTrap]
    exact h.unwinding l (by simpa using member)
  · rw [needTrap]
    exact (h.owed owed).imp id fun ⟨c,member⟩ => ⟨c,List.mem_cons_of_mem _ member⟩

theorem leaveStep {s s'} (next : step .leave s = some s') : ∃ irq rest w, s.frames = ⟨.trap irq,.running⟩ :: rest ∧
    w = tiUpdatePreemptCount s.word (trapShift irq) (-1) ∧
    s' = ⟨w,if w &&& 0xffff ≠ 0 then rest else ⟨.trap irq,.testing⟩ :: rest,s.owed⟩ := by
  unfold step at next
  split at next <;> try contradiction
  cases next
  exact ⟨_,_,_,by assumption,rfl,rfl⟩

theorem leaveInv (h : Inv s) (next : step .leave s = some s') : Inv s' := by
  obtain ⟨irq,rest,w,same,rfl,rfl⟩ := leaveStep next
  have below : Stack rest := by
    have stack := h.stack
    rw [same] at stack
    cases stack with
    | interrupt _ below => exact below
    | exception below => exact below
    | exit outside => cases outside
  have fits : Fits rest (tiUpdatePreemptCount s.word (trapShift irq) (-1)) := fitsLeave irq (by rw [← same]; exact h.fits)
  have low : ∀ c, nesting c rest < 256 := fun c => by
    have before := h.low c
    rw [same,nestingCons] at before
    omega
  have unwinding : ∀ l, ⟨.trap true,.unwinding l⟩ ∈ rest → tiCheckNeedDispatch s.word = true := fun l member =>
    h.unwinding l (by rw [same]; exact List.mem_cons_of_mem _ member)
  have owed : s.owed = true → tiCheckNeedDispatch s.word = true ∨ ∃ c, ⟨c,.dispatching⟩ ∈ rest := fun owed => by
    refine (h.owed owed).imp id fun ⟨c,member⟩ => ⟨c,?_⟩
    rw [same] at member
    simpa using member
  by_cases busy : nesting true rest ≠ 0 ∨ nesting false rest ≠ 0
  · rw [if_pos ((trapBusy fits low).mpr busy)]
    refine ⟨below,fits,low,fun f r top idle => ?_,fun l member => ?_,fun due => ?_⟩
    · obtain ⟨g,_,rfl,pending⟩ := handlerOnTop below busy
      cases top
      rw [pending] at idle
      cases idle
    · rw [needTrap]
      exact unwinding l member
    · rw [needTrap]
      exact owed due
  · have quiet : ∀ c, nesting c rest = 0 := fun c => by
      cases c <;> omega
    rw [if_neg (fun e => busy ((trapBusy fits low).mp e))]
    have nest : ∀ c, nesting c (⟨.trap irq,.testing⟩ :: rest) = nesting c rest := outsideNesting rfl
    refine ⟨.exit rfl below quiet (fun _ absurd => by simp at absurd) (fun _ absurd => by cases absurd),fitsNesting fits nest,
      fun c => by rw [nest]; exact low c,fun f r top idle => ?_,fun l member => ?_,fun due => ?_⟩
    · cases top
      cases idle
    · rw [needTrap]
      exact unwinding l (by simpa using member)
    · rw [needTrap]
      exact (owed due).imp id fun ⟨c,member⟩ => ⟨c,List.mem_cons_of_mem _ member⟩

theorem scheduleStep {s s'} (next : step .schedule s = some s') : ∃ code rest, s.frames = ⟨code,.running⟩ :: rest ∧
    code ≠ .trap false ∧ s' = ⟨(schedSchedule s.word).1,⟨code,.unwinding none⟩ :: rest,(schedSchedule s.word).2⟩ := by
  unfold step at next
  split at next <;> try contradiction
  split at next <;> try contradiction
  cases next
  exact ⟨_,_,by assumption,by assumption,rfl⟩

theorem selects (h : Fits rest w) (low : ∀ irq, nesting irq rest < 256) (quiet : nesting true rest = 0) :
    schedSchedule w = (tiSetPreemptActive w,false) := if_neg (fun e => (irqBusy (fitsSetActive h) low).mp e quiet)

theorem putsOff (h : Fits rest w) (low : ∀ irq, nesting irq rest < 256) (busy : nesting true rest ≠ 0) :
    schedSchedule w = (tiSetDelayDispatch (tiSetPreemptActive w),true) := if_pos ((irqBusy (fitsSetActive h) low).mpr busy)

theorem scheduleInv {s s'} (h : Inv s) (next : step .schedule s = some s') : Inv s' := by
  obtain ⟨code,rest,same,caller,rfl⟩ := scheduleStep next
  have nest : ∀ c, nesting c (⟨code,.unwinding none⟩ :: rest) = nesting c s.frames := fun c => by
    rw [same,nestingCons,nestingCons]
    rfl
  have low : ∀ c, nesting c (⟨code,.unwinding none⟩ :: rest) < 256 := fun c => by rw [nest]; exact h.low c
  have stack := h.stack
  rw [same] at stack
  cases stack with
  | task =>
    have quiet := h.quiet _ _ same rfl
    have zero : nesting true s.frames = 0 := by rw [same,taskNesting]
    rw [selects h.fits h.low zero]
    refine ⟨.task rfl (fun _ absurd => by cases absurd),fitsNesting (fitsSetActive h.fits) nest,low,fun _ _ _ _ => ?_,
      fun l member => by simp at member,fun due => by cases due⟩
    rw [needActivated]
    exact quiet
  | interrupt _ below =>
    have busy : nesting true s.frames ≠ 0 := by
      rw [same,nestingCons]
      simp [Frame.handling,Point.inHandler]
    rw [putsOff h.fits h.low busy]
    exact ⟨.interrupt rfl below (fun _ absurd => by cases absurd),fitsNesting (fitsSetDelay (fitsSetActive h.fits)) nest,low,
      fun f r top idle => (by cases top; cases idle),fun l _ => needSet _,fun _ => Or.inl (needSet _)⟩
  | exception => exact absurd rfl caller
  | exit outside => cases outside

theorem runStep {s s'} (next : step .run s = some s') : ∃ f rest p w owed, s.frames = f :: rest ∧
    advance f.point s.word s.owed = some (p,w,owed) ∧ s' = ⟨w,(p.map fun p => ⟨f.code,p⟩).toList ++ rest,owed⟩ := by
  unfold step at next
  split at next <;> try contradiction
  obtain ⟨⟨p,w,owed⟩,moved,rfl⟩ := Option.map_eq_some_iff.mp next
  exact ⟨_,_,p,w,owed,by assumption,moved,rfl⟩

theorem noUnwinding (quiet : ∀ irq, nesting irq rest = 0) (l) : ⟨.trap true,.unwinding l⟩ ∉ rest :=
  fun member => List.countP_eq_zero.mp (quiet true) _ member rfl

theorem exitInv (below : Stack rest) (quiet : ∀ irq, nesting irq rest = 0) (outside : p.inHandler = false)
    (fits : Fits [] w) (load : ∀ v, p = .clearing (some v) ∨ p = .finishing (some v) → v = w)
    (done : (Frame.mk (.trap irq) p).pending = false → tiCheckNeedDispatch w = false)
    (due : owed = true → tiCheckNeedDispatch w = true ∨ p = .dispatching ∨ ∃ c, ⟨c,.dispatching⟩ ∈ rest) :
    Inv ⟨w,⟨.trap irq,p⟩ :: rest,owed⟩ := by
  have nest : ∀ c, nesting c (⟨.trap irq,p⟩ :: rest) = 0 := fun c => (outsideNesting outside c).trans (quiet c)
  refine ⟨.exit outside below quiet (fun v at' => ?_) (fun v at' => ?_),fitsNesting fits nest,fun c => by rw [nest]; decide,
    fun f r top idle => ?_,fun l member => ?_,fun owes => ?_⟩
  · rw [load v at']
    exact fits
  · rw [load v (Or.inr at')]
    exact done (by rw [at']; rfl)
  · cases top
    exact done idle
  · rcases List.mem_cons.mp member with same | member
    · cases same
      cases outside
    · exact absurd member (noUnwinding quiet l)
  · rcases due owes with need | rfl | ⟨c,member⟩
    · exact Or.inl need
    · exact Or.inr ⟨_,List.mem_cons_self⟩
    · exact Or.inr ⟨c,List.mem_cons_of_mem _ member⟩

theorem taskInv {p} (inside : p.inHandler = true) (load : ∀ v, p = .unwinding (some v) → v = w) (fits : Fits [] w)
    (quiet : tiCheckNeedDispatch w = false) : Inv ⟨w,[⟨.task,p⟩],false⟩ := by
  refine ⟨.task inside (fun v at' => ?_),fitsNesting fits (taskNesting p),fun c => ?_,fun _ _ _ _ => quiet,fun l member => ?_,nofun⟩
  · rw [load v at']
    exact ⟨fits,quiet⟩
  · rw [taskNesting]
    decide
  · simp at member

theorem taskSettled (h : Inv ⟨w,[⟨.task,p⟩],owed⟩) (inside : p.inHandler = true) : owed = false := by
  by_contra due
  rcases h.owed (by simpa using due) with need | ⟨c,member⟩
  · cases need.symm.trans (h.quiet _ _ rfl rfl)
  · rw [List.mem_singleton] at member
    cases member
    cases inside

theorem taskRun (h : Inv ⟨w,[⟨.task,p⟩],owed⟩) (inside : p.inHandler = true)
    (load : ∀ v, p = .unwinding (some v) → Fits [] v ∧ tiCheckNeedDispatch v = false) (moved : advance p w owed = some (q,v,due)) :
    Inv ⟨v,(q.map fun p => ⟨.task,p⟩).toList ++ [],due⟩ := by
  obtain rfl := taskSettled h inside
  cases p with
  | running => cases moved
  | unwinding l =>
    cases l with
    | none =>
      cases moved
      exact taskInv rfl (fun _ at' => by cases at'; rfl) (fitsNesting h.fits (taskNesting _ · |>.symm)) (h.quiet _ _ rfl rfl)
    | some u =>
      cases moved
      obtain ⟨fits,quiet⟩ := load u rfl
      exact taskInv rfl nofun (fitsClrActive fits) ((needCleared _).trans quiet)
  | _ => cases inside

theorem insideNesting {irq p q} (inside : p.inHandler = true) (inside' : q.inHandler = true) (c) :
    nesting c (⟨.trap irq,p⟩ :: rest) = nesting c (⟨.trap irq,q⟩ :: rest) := by
  rw [nestingCons,nestingCons,Frame.handling,Frame.handling,inside,inside']

theorem interruptInv (below : Stack rest) (inside : p.inHandler = true) (load : ∀ v, p = .unwinding (some v) → v = w)
    (fits : Fits (⟨.trap true,p⟩ :: rest) w) (low : ∀ c, nesting c (⟨.trap true,p⟩ :: rest) < 256) (need : tiCheckNeedDispatch w = true) :
    Inv ⟨w,⟨.trap true,p⟩ :: rest,owed⟩ := by
  refine ⟨.interrupt inside below (fun v at' => ?_),fits,low,fun f r top idle => ?_,fun _ _ => need,fun _ => Or.inl need⟩
  · rw [load v at']
    exact ⟨fits,need⟩
  · cases top
    rw [insidePending inside] at idle
    cases idle

theorem interruptRun (h : Inv ⟨w,⟨.trap true,p⟩ :: rest,owed⟩) (inside : p.inHandler = true)
    (below : Stack rest) (load : ∀ v, p = .unwinding (some v) → Fits (⟨.trap true,p⟩ :: rest) v ∧ tiCheckNeedDispatch v = true)
    (moved : advance p w owed = some (q,v,due)) : Inv ⟨v,(q.map fun p => ⟨.trap true,p⟩).toList ++ rest,due⟩ := by
  cases p with
  | running => cases moved
  | unwinding l =>
    have nest : ∀ q : Point, q.inHandler = true → ∀ c, nesting c (⟨.trap true,q⟩ :: rest) = nesting c
      (⟨.trap true,.unwinding l⟩ :: rest) :=
      fun q inside' => insideNesting inside' inside
    have low : ∀ q : Point, q.inHandler = true → ∀ c, nesting c (⟨.trap true,q⟩ :: rest) < 256 := fun q inside' c => by
      rw [nest q inside']
      exact h.low c
    cases l with
    | none =>
      cases moved
      exact interruptInv below rfl (fun _ at' => by cases at'; rfl) (fitsNesting h.fits (nest _ rfl)) (low _ rfl) (h.unwinding _ List.mem_cons_self)
    | some u =>
      cases moved
      obtain ⟨fits,need⟩ := load u rfl
      exact interruptInv below rfl nofun (fitsNesting (fitsClrActive fits) (nest _ rfl)) (low _ rfl) ((needCleared _).trans need)
  | _ => cases inside

theorem exitRun {irq p q v due} (h : Inv ⟨w,⟨.trap irq,p⟩ :: rest,owed⟩)
    (outside : p.inHandler = false) (below : Stack rest) (quiet : ∀ irq, nesting irq rest = 0)
    (load : ∀ v, p = .clearing (some v) ∨ p = .finishing (some v) → Fits [] v)
    (cleared : ∀ v, p = .finishing (some v) → tiCheckNeedDispatch v = false) (moved : advance p w owed = some (q,v,due)) :
    Inv ⟨v,(q.map fun p => ⟨.trap irq,p⟩).toList ++ rest,due⟩ := by
  have fits : Fits [] w := fitsNesting h.fits fun c => ((outsideNesting outside c).trans (quiet c)).symm
  have owes : p ≠ .dispatching → owed = true → tiCheckNeedDispatch w = true ∨ ∃ c, ⟨c,.dispatching⟩ ∈ rest := by
    intro other owes
    refine (h.owed owes).imp id fun ⟨c,member⟩ => ⟨c,(List.mem_cons.mp member).resolve_left fun same => ?_⟩
    cases same
    exact other rfl
  have idle : ¬ (0 < tiReferPreemptCount w ∨ 0 < tiReferIrqCount w) :=
    fun busy => (irqBusy fits (fun _ => Nat.zero_lt_succ _)).mp busy rfl
  have goesOn : ∀ q : Point, q.inHandler = false → p ≠ .dispatching →
    (∀ v, q = .clearing (some v) ∨ q = .finishing (some v) → v = w) →
      ((Frame.mk (.trap irq) q).pending = false → tiCheckNeedDispatch w = false) → Inv ⟨w,⟨.trap irq,q⟩ :: rest,owed⟩ :=
    fun q outside other load done => exitInv below quiet outside fits load done fun due => (owes other due).imp id Or.inr
  cases p with
  | running | unwinding => cases outside
  | testing =>
    simp only [advance,if_neg idle] at moved
    cases moved
    exact goesOn _ rfl (by decide) (fun _ at' => by simp at at') nofun
  | testingActive =>
    simp only [advance,activeUnseen] at moved
    cases moved
    exact goesOn _ rfl (by decide) (fun _ at' => by simp at at') nofun
  | testingNeed =>
    cases need : tiCheckNeedDispatch w with
    | true =>
      simp only [advance,need] at moved
      cases moved
      exact goesOn _ rfl (by decide) (fun _ at' => by simp at at') nofun
    | false =>
      simp only [advance,need] at moved
      cases moved
      exact goesOn _ rfl (by decide) (fun _ at' => by simp at at') (fun _ => need)
  | clearing l =>
    cases l with
    | none =>
      cases moved
      exact goesOn _ rfl (by simp) (fun _ at' => by simpa [eq_comm] using at') nofun
    | some u =>
      cases moved
      exact exitInv below quiet rfl (fitsClrDelay (load u (Or.inl rfl))) (fun _ at' => by simp at at') (fun _ => needUncleared)
        fun _ => Or.inr (Or.inl rfl)
  | dispatching =>
    simp only [advance,selects fits (fun _ => Nat.zero_lt_succ _) rfl] at moved
    cases moved
    exact exitInv below quiet rfl (fitsSetActive fits) (fun _ at' => by simp at at') (fun _ => (needActivated _).trans (h.quiet _ _ rfl rfl)) nofun
  | finishing l =>
    cases l with
    | none =>
      cases moved
      exact goesOn _ rfl (by simp) (fun _ at' => by simpa [eq_comm] using at') (fun _ => h.quiet _ _ rfl rfl)
    | some u =>
      cases moved
      refine exitInv below quiet rfl (fitsClrActive (load u (Or.inr rfl))) (fun _ at' => by simp at at')
        (fun _ => (needCleared _).trans (cleared u rfl)) fun due => ?_
      rcases owes (by simp) due with need | found
      · cases need.symm.trans (h.quiet _ _ rfl rfl)
      · exact Or.inr (Or.inr found)
  | leaving =>
    cases moved
    exact ⟨below,fitsNesting fits quiet,fun c => (quiet c).trans_lt (by decide),fun _ _ _ _ => h.quiet _ _ rfl rfl,
      fun l member => absurd member (noUnwinding quiet l),owes (by decide)⟩

theorem runInv {s s'} (h : Inv s) (next : step .run s = some s') : Inv s' := by
  obtain ⟨f,rest,p',w,owed,same,moved,rfl⟩ := runStep next
  obtain ⟨word,frames,before⟩ := s
  dsimp only at same moved
  subst same
  have stack := h.stack
  cases stack with
  | task inside load => exact taskRun h inside load moved
  | interrupt inside below load => exact interruptRun h inside below load moved
  | exception => cases moved
  | exit outside below quiet load cleared => exact exitRun h outside below quiet load cleared moved

theorem reachedInv {s} (run : Reached s) : Inv s := by
  induction run with
  | start =>
    exact ⟨.task rfl (fun _ at' => by cases at'),⟨by decide,by decide,by decide⟩,by decide,fun _ _ _ _ => by decide,
      fun l member => by simp [DelayedDispatch.start] at member,fun due => by cases due⟩
  | @step e s s' _ shallow next ih =>
    cases e with
    | trap irq => exact trapInv ih shallow next
    | leave => exact leaveInv ih next
    | schedule => exact scheduleInv ih next
    | run => exact runInv ih next

end Steps

def runAll (es : List Event) (s : Thread) : Option Thread := es.foldlM (fun s e => step e s) s

end TskSw.DelayedDispatch
