import TskSw.ThreadPlaces

/-! No thread is lost: whatever the threads do, each is in its place whenever the processor
goes to another one, and the reaper gets every thread that exits. -/
namespace TskSw.ThreadSafety
open CircularLists KernList ReadyQueue Coroutines Threads ThreadPlaces
open Preempt (Cpu Word tiReferPreCount tiReferPreemptCount tiReferIrqCount tiSetPreemptActive tiClrPreemptActive tiSetDelayDispatch
  tiClrDelayDispatch)
open BlkIo (Fault)
open Function (update update_of_ne update_self)

variable {τ μ ν : Type} {idle t : τ} {s s' : Kernel τ μ ν} {f : Fifo τ} {q : Wq μ ν → List (Ent τ)} {k : Wq μ ν}

section Logic
variable [DecidableEq τ] [DecidableEq μ] [DecidableEq ν]

def Rely (t : τ) (s s' : Kernel τ μ ν) : Prop := s'.cpu.preempt t = s.cpu.preempt t ∧ (s.status t = .dead → s'.status t = .dead)

def Rises (x y : Status) : Prop := y = x ∨ x = .wait ∧ y = .run

theorem risesTrans {x y z} (first : Rises x y) (second : Rises y z) : Rises x z := by
  rcases first with rfl | ⟨waits,runs⟩
  · exact second
  · rcases second with same | ⟨waits',_⟩
    · exact Or.inr ⟨waits,same.trans runs⟩
    · rw [runs] at waits'
      cases waits'

theorem risesWait {x y : Status} (h : Rises x y) (waits : y = .wait) : x = .wait := by
  rcases h with same | ⟨before,_⟩
  · exact same.symm.trans waits
  · exact before

theorem risesDead {x y : Status} (h : Rises x y) (dead : x = .dead) : y = .dead := by
  rcases h with same | ⟨waits,_⟩
  · exact same.trans dead
  · rw [dead] at waits
    cases waits

structure Step (idle t : τ) (s s' : Kernel τ μ ν) : Prop where
  here : At idle t s'
  status : Rises (s.status t) (s'.status t)
  free : Free s t → Free s' t

structure Task (idle t : τ) (s : Kernel τ μ ν) : Prop where
  here : At idle t s
  other : t ≠ idle
  runs : s.status t = .run

structure Woken (idle : τ) (k : Wq μ ν) (s s' : Kernel τ μ ν) : Prop where
  kept : Kept s s'
  status : ∀ u, Rises (s.status u) (s'.status u)
  lists : ∀ f q, Base idle f q s → ∃ f', Base idle f' (update q k []) s' ∧ f'.queue .reaper = f.queue .reaper

def Pre (idle t : τ) (s : Kernel τ μ ν) : Proc μ ν → Prop
  | .wakeAll _ => (∃ f q, Base idle f q s) ∧ s.cpu.current = t
  | .mutexHold _ | .reap | .drain => Task idle t s ∧ Free s t
  | .handlers | .forever => At idle t s ∧ s.status t ≠ .wait
  | .blocking | .user | .reaper => Task idle t s

def Post (idle t : τ) (s : Kernel τ μ ν) (s' : Kernel τ μ ν) : Proc μ ν → Prop
  | .wakeAll k => Woken idle k s s'
  | .mutexHold _ | .blocking => Task idle t s' ∧ Free s' t
  | .handlers => At idle t s' ∧ Rises (s.status t) (s'.status t)
  | .drain => Task idle t s' ∧ Free s' t ∧ listIsEmpty s'.cpu.rdq.links (.head .reaper) = true
  | .user | .forever | .reaper | .reap => False

def logic (idle : τ) : Logic τ (Kernel τ μ ν) (Proc μ ν) Int Fault where
  inv := Inv idle
  rely := Rely
  refl _ _ := ⟨rfl,id⟩
  trans _ _ _ _ first second := ⟨second.1.trans first.1,fun dead => second.2 (first.2 dead)⟩
  pre t p s := Pre idle t s p
  post t p s _ s' := Post idle t s s' p
  faults _ := False

abbrev Wp {α : Type} (idle t : τ) (x : Prog τ μ ν α) (Q : α → Kernel τ μ ν → Prop) (s : Kernel τ μ ν) : Prop :=
  wp (logic idle) (fun s => s.cpu.current) t x Q s

end Logic

section Words
variable {w : Word}

def Zero (w : Word) : Prop := tiReferPreemptCount w = 0 ∧ tiReferIrqCount w = 0

theorem zeroFlagged {flag} (clear : ∀ r ≤ 48, ∀ i < r+8, flag.getLsbD i = false) : Zero (w ||| flag) ↔ Zero w := by
  have counts : ∀ r ≤ 48, tiReferPreCount (w ||| flag) r = tiReferPreCount w r := fun r low => Preempt.referFlagged (clear r low)
  exact and_congr (by rw [tiReferPreemptCount,counts _ (by decide)]; rfl) (by rw [tiReferIrqCount,counts _ (by decide)]; rfl)

theorem zeroUnflagged {flag : Word} (clear : ∀ r ≤ 48, ∀ i < r+8, flag.getLsbD i = false) : Zero (w &&& ~~~flag) ↔ Zero w := by
  have counts : ∀ r ≤ 48, tiReferPreCount (w &&& ~~~flag) r = tiReferPreCount w r := fun r low => Preempt.referUnflagged (by omega) (clear r low)
  exact and_congr (by rw [tiReferPreemptCount,counts _ (by decide)]; rfl) (by rw [tiReferIrqCount,counts _ (by decide)]; rfl)

theorem zeroActivated : Zero (tiSetPreemptActive w) ↔ Zero w := zeroFlagged fun _ => Preempt.activeClear

theorem zeroInactive : Zero (tiClrPreemptActive w) ↔ Zero w := zeroUnflagged fun _ => Preempt.activeClear

theorem notBusy (free : Zero w) : ¬ (0 < tiReferPreemptCount w ∨ 0 < tiReferIrqCount w) := by
  rw [free.1,free.2]
  decide

end Words

section Scheduling
variable [DecidableEq τ]

theorem wordBase {cpu w} (h : Base idle f q s) (current : s.cpu.current = t) (born : t = idle ∨ s.created t = true)
    (rdq : cpu.rdq = s.cpu.rdq) (preempt : cpu.preempt = update s.cpu.preempt t w) : Base idle f q (s.setCpu cpu) := by
  refine cpuBase h (by rw [rdq]; exact h.holds) (fun _ _ => Iff.rfl) fun u unborn other => ?_
  have apart : u ≠ t := by
    rintro rfl
    rcases born with same | born
    · exact other same
    · rw [unborn] at born
      cases born
  rw [preempt,update_of_ne apart]

theorem wordRely {cpu : Cpu τ} {w : Word} (preempt : cpu.preempt = update s.cpu.preempt t w) (u : τ) (other : u ≠ t) :
    Rely u s (s.setCpu cpu) := by
  refine ⟨?_,id⟩
  show cpu.preempt u = s.cpu.preempt u
  rw [preempt,update_of_ne other]

theorem selectedReady (h : Base idle f q s) : ∃ u, selectNextThread idle s.cpu.rdq = .ok u ∧ Ready idle f u := by
  rcases selectHolds h.holds idle with ⟨p,u,ran,first,_⟩ | ⟨ran,_⟩
  · exact ⟨u,ran,Or.inr ⟨p,List.mem_of_mem_head? first⟩⟩
  · exact ⟨idle,ran,Or.inl rfl⟩

omit [DecidableEq τ] in
theorem readyRuns (h : Base idle f q s) (ready : Ready idle f t) : s.status t = .run ∧ (t = idle ∨ s.created t = true) := by
  rcases ready with rfl | ready
  · exact ⟨(h.unborn t h.idle).1,Or.inl rfl⟩
  · obtain ⟨born,runs⟩ := (h.placed t).ready.mp ready
    exact ⟨runs,Or.inr born⟩

variable [DecidableEq μ] [DecidableEq ν]

theorem resumeWp (inv : Inv idle s') (rely : Rely t s s') (current : s'.cpu.current = t) {Q : Unit → Kernel τ μ ν → Prop}
    (post : s.status t ≠ .dead → ∀ s'', At idle t s'' → s''.status t = .run → s''.cpu.preempt t = tiClrPreemptActive (s.cpu.preempt t) →
      Q () s'') :
    Wp idle t (change fun s => (s.setStatus s.cpu.current .run).setCpu (Preempt.resume s.cpu)) Q s' := by
  obtain ⟨f,q,base,quiet,ready⟩ := inv
  rw [current] at ready
  obtain ⟨runs,born⟩ := readyRuns base ready
  have same : s'.setStatus s'.cpu.current .run = s' := by
    rw [Kernel.setStatus,current,Function.update_eq_self_iff.mpr runs.symm]
  have set : (Preempt.resume s'.cpu).preempt = update s'.cpu.preempt t (tiClrPreemptActive (s'.cpu.preempt t)) := by
    rw [Preempt.resume,Cpu.setWord,Cpu.word,current]
  refine wpRunOk (by dsimp only; rw [same]) (wordRely set)
    (post (fun dead => ?_) _ ⟨⟨f,q,wordBase base current born rfl set,quiet⟩,current,born⟩ runs ?_)
  · rw [rely.2 dead] at runs
    cases runs
  · show (Preempt.resume s'.cpu).preempt t = _
    rw [set,update_self,rely.1]

theorem scheduleWp (here : At idle t s) (ok : s.status t = .wait → Free s t) {Q : Unit → Kernel τ μ ν → Prop}
    (post : ∀ s', Step idle t s s' → s'.status t ≠ .wait → Q () s') : Wp idle t (schedSchedule idle) Q s := by
  obtain ⟨⟨f,q,base,quiet⟩,current,born⟩ := here
  have word : s.cpu.word = s.cpu.preempt t := by rw [Cpu.word,current]
  have set : ∀ w, (s.cpu.setWord w).preempt = update s.cpu.preempt t w := fun w => by rw [Cpu.setWord,current]
  have stays : ∀ w, (Free s t → Zero w) → Step idle t s (s.setCpu (s.cpu.setWord w)) := fun w free => by
    refine ⟨⟨⟨f,q,wordBase base current born rfl (set w),quiet⟩,current,born⟩,Or.inl rfl,fun before => ?_⟩
    show Zero ((s.cpu.setWord w).preempt t)
    rw [set,update_self]
    exact free before
  unfold schedSchedule
  refine wpRead ?_
  by_cases busy : 0 < tiReferPreemptCount s.cpu.word ∨ 0 < tiReferIrqCount s.cpu.word
  · have taken : ¬ Free s t := fun free => notBusy (word ▸ free) busy
    have ran : Preempt.schedSchedule idle s.cpu = _ := Preempt.scheduleDeferred busy
    refine wpBind (wpRunOk (by simp only [ran]; rfl) (wordRely (set _)) (wpRead (wpIf (fun _ => ?_) fun changed => absurd rfl changed)))
    exact post _ (stays _ fun free => absurd free taken) fun waits => taken (ok waits)
  · obtain ⟨next,selected,ready⟩ := selectedReady base
    have ran := Preempt.scheduleSelects busy selected
    by_cases same : next = s.cpu.current
    · rw [if_pos same] at ran
      rw [same,current] at ready
      have runs := (readyRuns base ready).1
      refine wpBind (wpRunOk (by simp only [ran]; rfl) (wordRely (set _)) (wpRead (wpIf (fun _ => ?_) fun changed => absurd rfl changed)))
      refine post _ (stays _ fun free => ?_) fun (waits : s.status t = .wait) => ?_
      · rw [zeroInactive,zeroActivated,word]
        exact free
      · rw [runs] at waits
        cases waits
    · rw [if_neg same] at ran
      have others : ∀ u, u ≠ t → Rely u s (s.setCpu {s.cpu.setWord (tiSetPreemptActive s.cpu.word) with current := next}) := wordRely (set _)
      refine wpBind (wpRunOk (by simp only [ran]; rfl) others (wpRead (wpIf (fun unchanged => absurd unchanged same) fun _ => ?_)))
      refine wpBind ⟨⟨f,q,wordBase base current born rfl (set _),quiet,ready⟩,fun s' inv rely back => ?_⟩
      refine resumeWp inv rely back fun (alive : s.status t ≠ .dead) s'' here runs preempt =>
        post s'' ⟨here,?_,fun free => ?_⟩ (by rw [runs]; decide)
      · rw [runs]
        cases before : s.status t with
        | run => exact Or.inl rfl
        | wait => exact Or.inr ⟨rfl,rfl⟩
        | exit => exact absurd before (base.placed t).going
        | dead => exact absurd before alive
      · show Zero (s''.cpu.preempt t)
        rw [preempt,zeroInactive]
        show Zero ((s.cpu.setWord (tiSetPreemptActive s.cpu.word)).preempt t)
        rw [set,update_self,zeroActivated,word]
        exact free

omit [DecidableEq τ] [DecidableEq μ] [DecidableEq ν] in
theorem stepTrans {s''} (first : Step idle t s s') (second : Step idle t s' s'') : Step idle t s s'' :=
  ⟨second.here,risesTrans first.status second.status,fun free => second.free (first.free free)⟩

theorem delayWp (here : At idle t s) (awake : s.status t ≠ .wait) {Q : Unit → Kernel τ μ ν → Prop}
    (post : ∀ s', Step idle t s s' → Q () s') :
    Wp idle t (schedDelayDisptach idle) Q s := by
  have stays : Step idle t s s := ⟨here,Or.inl rfl,id⟩
  unfold schedDelayDisptach
  refine wpRead (wpIf (fun _ => post s stays) fun _ => wpIf (fun _ => post s stays) fun _ => wpIf (fun _ => post s stays) fun _ => ?_)
  obtain ⟨⟨f,q,base,quiet⟩,current,born⟩ := here
  have word : s.cpu.word = s.cpu.preempt t := by rw [Cpu.word,current]
  have set : (s.cpu.setWord (tiClrDelayDispatch s.cpu.word)).preempt = update s.cpu.preempt t (tiClrDelayDispatch s.cpu.word) := by
    rw [Cpu.setWord,current]
  have cleared : Step idle t s (s.setCpu (s.cpu.setWord (tiClrDelayDispatch s.cpu.word))) := by
    refine ⟨⟨⟨f,q,wordBase base current born rfl set,quiet⟩,current,born⟩,Or.inl rfl,fun free => ?_⟩
    show Zero ((s.cpu.setWord (tiClrDelayDispatch s.cpu.word)).preempt t)
    rw [set,update_self,word]
    exact (zeroUnflagged fun _ => Preempt.delayedClear).mpr free
  refine wpBind (wpRunOk rfl (wordRely set) (scheduleWp cleared.here (fun waits => absurd waits awake) fun s' done _ => ?_))
  exact post s' (stepTrans cleared done)

end Scheduling

section Waking
variable [DecidableEq τ] [DecidableEq μ] [DecidableEq ν]

structure Alike (s s' : Kernel τ μ ν) : Prop where
  cpu : s'.cpu = s.cpu
  status : s'.status = s.status
  waits : s'.waits = s.waits
  thr : s'.thr = s.thr
  created : s'.created = s.created
  exits : s'.exits = s.exits
  enqueued : s'.enqueued = s.enqueued
  destroyed : s'.destroyed = s.destroyed

omit [DecidableEq τ] [DecidableEq μ] [DecidableEq ν] in
theorem alikeBase (h : Base idle f q s) (same : Alike s s') : Base idle f q s' := by
  refine ⟨?_,?_,?_,fun u => placedSame (h.placed u) ⟨fun _ => Iff.rfl,fun _ _ => Iff.rfl,?_,?_,?_,?_⟩,?_,?_,
    endedKeep h.ended same.enqueued same.exits same.destroyed fun u => ?_⟩
  · rw [same.cpu]
    exact h.holds
  · rw [same.waits]
    exact h.forest
  · rw [same.thr]
    exact h.thr
  · rw [same.status]
  · rw [same.created]
  · rw [same.destroyed]
  · rw [same.enqueued]
  · rw [same.created,same.status,same.cpu]
    exact h.unborn
  · rw [same.created]
    exact h.idle
  · rw [same.status]
    exact id

omit [DecidableEq τ] [DecidableEq μ] [DecidableEq ν] in
theorem alikeStep (here : At idle t s) (same : Alike s s') : Step idle t s s' := by
  obtain ⟨⟨f,q,base,quiet⟩,current,born⟩ := here
  refine ⟨⟨⟨f,q,alikeBase base same,quiet⟩,?_,?_⟩,Or.inl (by rw [same.status]),fun free => ?_⟩
  · rw [same.cpu]
    exact current
  · rw [same.created]
    exact born
  · rw [Free,same.cpu]
    exact free

omit [DecidableEq τ] [DecidableEq μ] [DecidableEq ν] in
theorem alikeRely (same : Alike s s') (u : τ) (_ : u ≠ t) : Rely u s s' := by
  refine ⟨by rw [same.cpu],fun dead => ?_⟩
  rw [same.status]
  exact dead

theorem wakeAllWp (may : τ → Word → Bool) (lists : ∃ f q, Base idle f q s) (current : s.cpu.current = t) :
    Wp idle t (body idle may (.wakeAll k)) (fun _ s' => Woken idle k s s') s := by
  obtain ⟨f,q,base⟩ := lists
  unfold body
  refine wpRead (wpIf (fun empty => ⟨⟨rfl,rfl,rfl⟩,fun _ => Or.inl rfl,fun g r other => ⟨g,?_,rfl⟩⟩) fun filled => ?_)
  · rw [Function.update_eq_self_iff.mpr ((isEmptyForest other.forest).mp empty).symm]
    exact other
  · have pops : ∀ g r, Base idle g r s → ∃ u b rest, r k = (u,b) :: rest := fun g r other => by
      cases first : r k with
      | nil => exact absurd ((isEmptyForest other.forest).mpr first) filled
      | cons e rest => exact ⟨e.1,e.2,rest,rfl⟩
    obtain ⟨u,b,rest,first⟩ := pops f q base
    obtain ⟨s',ran,kept,status,after⟩ := wokenBase base first
    have waiting : s.status u = .wait := (base.placed u).queued.mp ⟨k,b,by rw [first]; exact List.mem_cons_self⟩
    have rose : ∀ v, Rises (s.status v) (s'.status v) := fun v => by
      rw [status]
      by_cases same : v = u
      · subst same
        exact Or.inr ⟨waiting,update_self _ _ _⟩
      · exact Or.inl (update_of_ne same _ _)
    refine wpBind (wpRunOk ran (fun v _ => ⟨by rw [kept.preempt],risesDead (rose v)⟩)
      (wpInvoke ⟨⟨_,_,after⟩,kept.current.trans current⟩ fun _ s'' woken =>
        ⟨?_,fun v => risesTrans (rose v) (woken.status v),fun g r other => ?_⟩))
    · exact ⟨woken.kept.current.trans kept.current,woken.kept.preempt.trans kept.preempt,woken.kept.created.trans kept.created⟩
    · obtain ⟨v,c,rest',first'⟩ := pops g r other
      obtain ⟨s₁,ran',_,_,after'⟩ := wokenBase other first'
      cases ran.symm.trans ran'
      obtain ⟨f',last,reaper⟩ := woken.lists _ _ after'
      rw [Function.update_idem] at last
      refine ⟨f',last,reaper.trans ?_⟩
      simp [Fifo.enter]

theorem wakeupWp (lists : ∃ f q, Base idle f q s ∧ (Quiet f q ∨ k = .reaper)) (current : s.cpu.current = t)
    (born : t = idle ∨ s.created t = true)
    (ok : s.status t = .wait → Free s t) (reason : Reason) {Q : Unit → Kernel τ μ ν → Prop} (post : ∀ s', Step idle t s s' → Q () s') :
    Wp idle t (wqueWakeup idle k reason) Q s := by
  obtain ⟨f,q,base,quiet⟩ := lists
  unfold wqueWakeup
  refine wpRead (wpIf (fun empty => post s ⟨⟨⟨f,q,base,?_⟩,current,born⟩,Or.inl rfl,id⟩) fun _ => ?_)
  · rcases quiet with quiet | rfl
    · exact quiet
    · exact Or.inl ((isEmptyForest base.forest).mp empty)
  · refine wpBind (wpInvoke ⟨⟨f,q,base⟩,current⟩ fun _ s₁ woken => ?_)
    obtain ⟨f',after,reaper⟩ := woken.lists f q base
    have here : At idle t s₁ := by
      refine ⟨⟨f',_,after,?_⟩,woken.kept.current.trans current,by rw [woken.kept.created]; exact born⟩
      by_cases same : k = .reaper
      · subst same
        exact Or.inl (update_self _ _ _)
      · rcases quiet.resolve_right same with none | none
        · exact Or.inl ((update_of_ne (Ne.symm same) _ _).trans none)
        · exact Or.inr (reaper.trans none)
    have first : Step idle t s s₁ := ⟨here,woken.status t,fun free => by rw [Free,woken.kept.preempt]; exact free⟩
    have alike : Alike s₁ {s₁ with reason := update s₁.reason k reason} := ⟨rfl,rfl,rfl,rfl,rfl,rfl,rfl,rfl⟩
    have second := stepTrans first (alikeStep here alike)
    refine wpBind (wpRunOk rfl (alikeRely alike) (scheduleWp second.here (fun waits => ?_) fun s' last _ => post s' (stepTrans second last)))
    exact second.free (ok (risesWait second.status waits))

end Waking

section Waiting
variable [DecidableEq τ] [DecidableEq μ] [DecidableEq ν]

omit [DecidableEq τ] [DecidableEq μ] [DecidableEq ν] in
theorem stepTask (task : Task idle t s) (done : Step idle t s s') : Task idle t s' := by
  refine ⟨done.here,task.other,?_⟩
  rcases done.status with same | ⟨waits,_⟩
  · exact same.trans task.runs
  · rw [task.runs] at waits
    cases waits

theorem asleepAt (task : Task idle t s) (k : Wq μ ν) (b : Frame) (rest : k = .reaper → listIsEmpty s.cpu.rdq.links (.head .reaper) = true) :
    ∃ s', fallAsleep k (t,b) s = .ok s' ∧ At idle t s' ∧ s'.status t = .wait ∧ (Free s t → Free s' t) ∧
      ∀ u, u ≠ t → Rely u s s' := by
  obtain ⟨⟨⟨f,q,base,quiet⟩,current,born⟩,other,runs⟩ := task
  have born := born.resolve_left other
  obtain ⟨s',ran,kept,status,after⟩ := asleepBase base current born runs k b
  have quiet' : Quiet {f with queue := fun l => (f.queue l).erase t} (update q k (q k ++ [(t,b)])) := by
    by_cases same : k = .reaper
    · refine Or.inr ?_
      show (f.queue .reaper).erase t = []
      rw [(isEmptyForest base.holds.forest).mp (rest same),List.erase_nil]
    · rcases quiet with none | none
      · exact Or.inl ((update_of_ne (Ne.symm same) _ _).trans none)
      · refine Or.inr ?_
        show (f.queue .reaper).erase t = []
        rw [none,List.erase_nil]
  refine ⟨s',ran,⟨⟨_,_,after,quiet'⟩,kept.current.trans current,Or.inr (by rw [kept.created]; exact born)⟩,?_,fun free => ?_,
    fun u apart => ⟨?_,fun dead => ?_⟩⟩
  · rw [status,update_self]
  · rw [Free,kept.preempt]
    exact free
  · rw [kept.preempt]
  · rw [status,update_of_ne apart]
    exact dead

theorem entryTask (task : Task idle t s) (b : Frame) : Task idle t (wqueRemoveEntry (t,b) s) := by
  obtain ⟨⟨⟨f,q,base,quiet⟩,current,born⟩,other,runs⟩ := task
  have none := noEntry (base.placed t) (by rw [runs]; decide)
  exact ⟨⟨⟨f,q,entryBase base fun l => none l b,quiet⟩,current,born⟩,other,runs⟩

omit [DecidableEq τ] [DecidableEq μ] [DecidableEq ν] in
theorem awakeTask (other : t ≠ idle) (up : s.status t = .wait ∨ s.status t = .run) (done : Step idle t s s')
    (awake : s'.status t ≠ .wait) : Task idle t s' := by
  refine ⟨done.here,other,?_⟩
  rcases done.status with same | ⟨_,runs⟩
  · rcases up with waits | runs
    · exact absurd (same.trans waits) awake
    · exact same.trans runs
  · exact runs

theorem waitWp (task : Task idle t s) (free : Free s t) (rest : k = .reaper → listIsEmpty s.cpu.rdq.links (.head .reaper) = true)
    {Q : Reason → Kernel τ μ ν → Prop} (post : ∀ r s', Task idle t s' → Free s' t → Q r s') :
    Wp idle t (wqueWaitOnQueue idle k) Q s := by
  have current := task.here.current
  subst current
  obtain ⟨s₁,ran,here,waits,keeps,rely⟩ := asleepAt task k .waitOnQueue rest
  unfold wqueWaitOnQueue
  refine wpRead (wpBind (wpRunOk ran rely (wpBind (scheduleWp here (fun _ => keeps free) fun s₂ done awake => ?_))))
  have back := awakeTask task.other (Or.inl waits) done awake
  exact wpBind (wpRunOk rfl (fun _ _ => ⟨rfl,id⟩) (wpRead (post _ _ (entryTask back _) (done.free (keeps free)))))

theorem mutexHoldWp (may : τ → Word → Bool) (m : μ) (task : Task idle t s) (free : Free s t) :
    Wp idle t (body idle may (.mutexHold m)) (fun _ s' => Task idle t s' ∧ Free s' t) s := by
  have alike : Alike s (acquire m s) := ⟨rfl,rfl,rfl,rfl,rfl,rfl,rfl,rfl⟩
  have taken := alikeStep task.here alike
  unfold body
  refine wpRead (wpIf (fun _ => wpBind (waitWp task free (fun same => by cases same) fun reason s₁ back free' => ?_)) fun _ => ?_)
  · exact wpIf (fun _ => ⟨back,free'⟩) fun _ => wpInvoke ⟨back,free'⟩ fun _ _ held => held
  · exact wpBind (wpRunOk rfl (alikeRely alike) ⟨stepTask task taken,taken.free free⟩)

theorem releaseWp (m : μ) (here : At idle t s) (ok : s.status t = .wait → Free s t) {Q : Unit → Kernel τ μ ν → Prop}
    (post : ∀ s', Step idle t s s' → Q () s') : Wp idle t (mutexRelease idle m) Q s := by
  have alike : Alike s (decrement m s) := ⟨rfl,rfl,rfl,rfl,rfl,rfl,rfl,rfl⟩
  have first := alikeStep here alike
  obtain ⟨f,q,base,quiet⟩ := first.here.lists
  unfold mutexRelease
  refine wpBind (wpRunOk rfl (alikeRely alike) (wpBind (wakeupWp ⟨f,q,base,Or.inl quiet⟩ first.here.current first.here.born
    (fun waits => first.free (ok (risesWait first.status waits))) .wakeup fun s₁ second => ?_)))
  have owner : Alike s₁ {s₁ with owner := update s₁.owner m none} := ⟨rfl,rfl,rfl,rfl,rfl,rfl,rfl,rfl⟩
  exact wpRunOk rfl (alikeRely owner) (post _ (stepTrans (stepTrans first second) (alikeStep second.here owner)))

theorem eventWp (m : μ) (task : Task idle t s) (free : Free s t) (event : k ≠ .reaper) {Q : Reason → Kernel τ μ ν → Prop}
    (post : ∀ r s', Task idle t s' → Q r s') : Wp idle t (wqueWaitOnEventWithMutex idle k m) Q s := by
  have current := task.here.current
  subst current
  obtain ⟨s₁,ran,here,waits,keeps,rely⟩ := asleepAt task k .waitOnEvent fun same => absurd same event
  unfold wqueWaitOnEventWithMutex
  refine wpRead (wpBind (wpRunOk ran rely (wpBind (releaseWp m here (fun _ => keeps free) fun s₂ released => ?_))))
  have free₂ := released.free (keeps free)
  refine wpBind (scheduleWp released.here (fun _ => free₂) fun s₃ done awake => ?_)
  have up : s₂.status s.cpu.current = .wait ∨ s₂.status s.cpu.current = .run := by
    rcases released.status with same | ⟨_,runs⟩
    · exact Or.inl (same.trans waits)
    · exact Or.inr runs
  have back := awakeTask task.other up done awake
  refine wpBind (wpInvoke ⟨back,done.free free₂⟩ fun _ s₄ held => ?_)
  exact wpBind (wpRunOk rfl (fun _ _ => ⟨rfl,id⟩) (wpRead (post _ _ (entryTask held.1 _))))

end Waiting

section Ending
variable [DecidableEq τ] [DecidableEq μ] [DecidableEq ν] {u : τ}

theorem exitWp (task : Task idle t s) {Q : Unit → Kernel τ μ ν → Prop} (post : ∀ s', At idle t s' → s'.status t ≠ .wait → Q () s') :
    Wp idle t (thrExitThread idle) Q s := by
  obtain ⟨⟨⟨f,q,base,quiet⟩,current,born⟩,other,runs⟩ := task
  have born := born.resolve_left other
  subst current
  obtain ⟨s₁,ran,kept,status,f',after⟩ := exitBase base rfl born runs
  have exits : s₁.status s.cpu.current = .exit := by rw [status,update_self]
  have dead : (thrAddThreadQueue s.cpu.current s₁).status s.cpu.current = .dead := update_self _ _ _
  unfold thrExitThread reaperAddExitThread
  refine wpRead (wpBind (wpRunOk ran (fun u apart => ⟨by rw [kept.preempt],fun gone => ?_⟩)
    (wpBind (wpRead (wpIf (fun wrong => absurd exits wrong)
    fun _ => wpBind (wpRunOk rfl (fun u apart => ⟨rfl,fun gone => ?_⟩) (wakeupWp ⟨f',q,after,Or.inr rfl⟩ kept.current (Or.inr ?_)
      (fun waits => ?_) .wakeup fun s₂ woken => ?_)))))))
  · rw [status,update_of_ne apart]
    exact gone
  · exact (update_of_ne apart _ _).trans gone
  · show s₁.created s.cpu.current = true
    rw [kept.created]
    exact born
  · rw [dead] at waits
    cases waits
  · have gone := risesDead woken.status dead
    refine wpBind (wpInvoke ⟨woken.here,by rw [gone]; decide⟩ fun _ s₃ handled => ?_)
    have still := risesDead handled.2 gone
    exact scheduleWp handled.1 (fun waits => by rw [still] at waits; cases waits) fun s₄ done awake => post s₄ done.here awake

theorem drainWp (may : τ → Word → Bool) (task : Task idle t s) (free : Free s t) :
    Wp idle t (body idle may .drain) (fun _ s' => Task idle t s' ∧ Free s' t ∧ listIsEmpty s'.cpu.rdq.links (.head .reaper) = true) s := by
  obtain ⟨⟨⟨f,q,base,quiet⟩,current,born⟩,other,runs⟩ := task
  unfold body
  refine wpRead (wpIf (fun empty => ⟨⟨⟨⟨f,q,base,quiet⟩,current,born⟩,other,runs⟩,free,empty⟩) fun filled => ?_)
  cases first : f.queue .reaper with
  | nil => exact absurd ((isEmptyForest base.holds.forest).mpr first) filled
  | cons u rest =>
    obtain ⟨top,dead,after⟩ := reapedBase base first (by rw [current]; exact runs)
    have asleep : q .reaper = [] := quiet.resolve_right (by rw [first]; nofun)
    have taken : listGetTop s.cpu.rdq.links (.head .reaper) = (.node u,(listGetTop s.cpu.rdq.links (.head .reaper)).2) := Prod.ext top rfl
    rw [taken]
    unfold thrDestroyThread
    refine wpBind (wpRunOk rfl (fun _ _ => ⟨rfl,id⟩) (wpBind (wpRead (wpIf (fun wrong => absurd dead wrong) fun _ =>
      wpBind (wpRunOk rfl (fun _ _ => ⟨rfl,id⟩) ?_)))))
    refine wpBind (wpInvoke ⟨⟨⟨_,q,after,Or.inl asleep⟩,current,born⟩,other,runs⟩ fun _ s₁ freed => ?_)
    refine wpBind (wpInvoke freed.1 fun _ s₂ freed' => ?_)
    exact wpInvoke freed' fun _ _ drained => drained

theorem handleWp (op : Op τ μ ν) (here : At idle t s) (awake : s.status t ≠ .wait) {Q : Unit → Kernel τ μ ν → Prop}
    (post : ∀ s', At idle t s' → Rises (s.status t) (s'.status t) → Q () s') : Wp idle t (handle idle op) Q s := by
  have stays : Q () s := post s here (Or.inl rfl)
  have moves : ∀ s', Step idle t s s' → Q () s' := fun s' done => post s' done.here done.status
  cases op with
  | create attrp memalign thr =>
    refine wpRead (wpIf (fun new => ?_) fun _ => stays)
    obtain ⟨⟨f,q,base,quiet⟩,current,born⟩ := here
    obtain ⟨s',ran,kept,preempt,status,created,f',after,reaper⟩ := createBase base attrp memalign new
    refine wpRunOk ran (fun u _ => ⟨by rw [preempt],fun dead => by rw [status]; exact dead⟩)
      (post s' ⟨⟨f',q,after,?_⟩,kept.trans current,born.imp_right (created t)⟩ (Or.inl (by rw [status])))
    rw [Quiet,reaper]
    exact quiet
  | schedule => exact scheduleWp here (fun waits => absurd waits awake) fun s' done _ => moves s' done
  | delayDisptach => exact delayWp here awake moves
  | rotateQueue =>
    obtain ⟨⟨f,q,base,quiet⟩,current,born⟩ := here
    show Wp idle t (change schedRotateQueue) Q s
    exact wpRunOk rfl (fun _ _ => ⟨rfl,id⟩) (post _ ⟨⟨_,q,rotateBase base,by simpa [Quiet] using quiet⟩,current,born⟩ (Or.inl rfl))
  | wakeup k reason =>
    obtain ⟨f,q,base,quiet⟩ := here.lists
    exact wpIf (fun _ => stays) fun _ => wakeupWp ⟨f,q,base,Or.inl quiet⟩ here.current here.born (fun waits => absurd waits awake) reason moves
  | preempt w =>
    obtain ⟨⟨f,q,base,quiet⟩,current,born⟩ := here
    have set : (s.cpu.setWord w).preempt = update s.cpu.preempt t w := by rw [Cpu.setWord,current]
    show Wp idle t (change fun s => s.setCpu (s.cpu.setWord w)) Q s
    exact wpRunOk rfl (wordRely set) (post _ ⟨⟨f,q,wordBase base current born rfl set,quiet⟩,current,born⟩ (Or.inl rfl))
  | tryHold m =>
    have alike : Alike s (acquire m s) := ⟨rfl,rfl,rfl,rfl,rfl,rfl,rfl,rfl⟩
    exact wpBind (wpRead (wpIf (fun _ => stays) fun _ => wpBind (wpRunOk rfl (alikeRely alike) (moves _ (alikeStep here alike)))))
  | release m => exact wpRead (wpIf (fun _ => releaseWp m here (fun waits => absurd waits awake) moves) fun _ => stays)
  | hold m | waitOnQueue q | waitOnEvent q m | exit | stop => exact stays

def Careful (idle : τ) (may : τ → Word → Bool) : Prop := ∀ t w, may t w = true → t ≠ idle ∧ Zero w

theorem performWp {may} (careful : Careful idle may) (op : Op τ μ ν) (task : Task idle t s) {Q : Unit → Kernel τ μ ν → Prop}
    (post : ∀ s', Task idle t s' → Q () s') : Wp idle t (perform idle may op) Q s := by
  have free : may s.cpu.current s.cpu.word = true → Free s t := fun allowed => by
    have zero := (careful _ _ allowed).2
    rw [Cpu.word,task.here.current] at zero
    exact zero
  have handles : Wp idle t (handle idle op) Q s := by
    refine handleWp op task.here (by rw [task.runs]; decide) fun s' here rises => post s' ⟨here,task.other,?_⟩
    rcases rises with same | ⟨waits,runs⟩
    · exact same.trans task.runs
    · exact runs
  cases op with
  | hold m => exact wpRead (wpIf (fun allowed => wpBind (wpInvoke ⟨task,free allowed⟩ fun _ s' held => post s' held.1)) fun _ => post s task)
  | waitOnQueue k =>
    exact wpRead (wpIf (fun allowed => wpBind (waitWp task (free allowed.1) (fun same => absurd same allowed.2) fun _ s' back _ => post s' back))
      fun _ => post s task)
  | waitOnEvent k m =>
    exact wpRead (wpIf (fun allowed => wpBind (eventWp m task (free allowed.1) allowed.2.1 fun _ s' back => post s' back)) fun _ => post s task)
  | create | schedule | delayDisptach | rotateQueue | wakeup | preempt | tryHold | release | exit | stop => exact handles

end Ending

section Runs
variable [DecidableEq τ] [DecidableEq μ] [DecidableEq ν] {reaper : τ} {may : τ → Word → Bool}

theorem bodiesSound (careful : Careful idle may) : Sound (logic idle) (kernel idle may : System τ (Kernel τ μ ν) _ _ _ _) := by
  intro t p s pre
  cases p with
  | wakeAll k => exact wakeAllWp may pre.1 pre.2
  | mutexHold m => exact mutexHoldWp may m pre.1 pre.2
  | handlers =>
    refine wpPick fun op => ?_
    have loop : Wp idle t (handle idle op >>= fun _ => invoke .handlers) (fun _ s' => Post idle t s s' .handlers) s := by
      refine wpBind (handleWp op pre.1 pre.2 fun s₁ here rises =>
        wpInvoke ⟨here,fun waits => pre.2 (risesWait rises waits)⟩ fun _ s₂ done => ?_)
      exact ⟨done.1,risesTrans rises done.2⟩
    cases op
    case stop => exact ⟨pre.1,Or.inl rfl⟩
    all_goals exact loop
  | blocking =>
    refine wpPick fun op => ?_
    have loop : Wp idle t (perform idle may op >>= fun _ => invoke .blocking) (fun _ s' => Post idle t s s' .blocking) s :=
      wpBind (performWp careful op pre fun s₁ task => wpInvoke task fun _ _ done => done)
    cases op
    case stop =>
      refine wpRead (wpIf (fun zero => ⟨pre,?_⟩) fun _ => wpInvoke pre fun _ _ done => done)
      rw [Cpu.word,pre.here.current] at zero
      exact zero
    all_goals exact loop
  | user =>
    refine wpPick fun op => ?_
    have loop : Wp idle t (perform idle may op >>= fun _ => invoke .user) (fun _ s' => Post idle t s s' .user) s :=
      wpBind (performWp careful op pre fun s₁ task => wpInvoke task fun _ _ done => done)
    cases op
    case exit => exact wpBind (exitWp pre fun s₁ here awake => wpInvoke ⟨here,awake⟩ fun _ _ => id)
    all_goals exact loop
  | forever => exact wpBind (wpInvoke pre fun _ s₁ handled => wpInvoke ⟨handled.1,fun waits => pre.2 (risesWait handled.2 waits)⟩ fun _ _ => id)
  | reaper => exact wpBind (wpInvoke pre fun _ s₁ opened => wpInvoke opened fun _ _ => id)
  | reap =>
    refine wpBind (wpInvoke pre fun _ s₁ drained => wpBind (waitWp drained.1 drained.2.1 (fun _ => drained.2.2) fun _ s₂ back free => ?_))
    exact wpBind (wpInvoke back fun _ s₃ enabled => wpInvoke enabled fun _ _ => id)
  | drain => exact drainWp may pre.1 pre.2

omit [DecidableEq μ] [DecidableEq ν] in
theorem bootBase : Base idle (fifo []) (fun _ => []) (boot idle : Kernel τ μ ν) := by
  have holds := (runsHold (Runs.start : Runs idle [] _)).1
  refine ⟨holds,forestStart,fun _ _ member => absurd member List.not_mem_nil,fun t => ?_,fun t _ => ⟨rfl,fun _ => rfl⟩,rfl,
    rfl,List.nodup_nil,List.nodup_nil,fun _ member => absurd member List.not_mem_nil⟩
  refine ⟨?_,?_,fun _ _ _ _ member => absurd member List.not_mem_nil,?_,?_,?_⟩ <;> simp [boot,fifo]

theorem startGood : Good (logic idle) (kernel idle may) (start idle reaper : Machine τ (Kernel τ μ ν) _ _ _ _) := by
  refine ⟨?_,fun t other s inv _ current => ?_⟩
  · have here : At idle idle (boot idle : Kernel τ μ ν) := ⟨⟨_,_,bootBase,Or.inl rfl⟩,rfl,Or.inl rfl⟩
    show Wp idle idle (main idle reaper idle) (fun _ _ => True) (boot idle)
    unfold main
    rw [if_pos rfl]
    exact wpBind (wpInvoke ⟨here,nofun⟩ fun _ _ _ => trivial)
  · have other : t ≠ idle := other
    obtain ⟨f,q,base,quiet,ready⟩ := inv
    rw [show s.cpu.current = t from current] at ready
    obtain ⟨runs,born⟩ := readyRuns base ready
    have task : Task idle t s := ⟨⟨⟨f,q,base,quiet⟩,current,born⟩,other,runs⟩
    show Wp idle t (main idle reaper t) (fun _ _ => True) s
    unfold main
    rw [if_neg other]
    split
    · exact wpBind (wpInvoke task fun _ _ _ => trivial)
    · exact wpBind (wpInvoke task fun _ _ _ => trivial)

theorem switchedInv {m : Machine τ (Kernel τ μ ν) (Proc μ ν) Int (Threads.Op τ μ ν) Fault} (careful : Careful idle may)
    (run : (kernel idle may).Reached (start idle reaper) m) (switching : m.switching = true) : Inv idle m.shared :=
  switchInv (reachedGood (bodiesSound careful) startGood run) switching

structure Lists (f : Fifo τ) (q : Wq μ ν → List (Ent τ)) (s : Kernel τ μ ν) : Prop where
  lines : ∀ l, Ring s.cpu.rdq.links (.head l) ((f.queue l).map .node)
  queues : ∀ k, Ring s.waits (.head k) ((q k).map .node)
  prio : ∀ t, (s.cpu.rdq.prio t).toNat = f.prio t
  thr : ∀ k e, e ∈ q k → s.thr e = some e.1

structure InReady (f : Fifo τ) (q : Wq μ ν → List (Ent τ)) (s : Kernel τ μ ν) (t : τ) : Prop where
  status : s.status t = .run
  lines : ∀ l, (f.queue l).count t = if l = .ready (f.prio t) then 1 else 0
  queues : ∀ k b, (t,b) ∉ q k

structure InQueue (f : Fifo τ) (q : Wq μ ν → List (Ent τ)) (s : Kernel τ μ ν) (t : τ) : Prop where
  status : s.status t = .wait
  lines : ∀ l, t ∉ f.queue l
  queues : ∃ k b, (q k).count (t,b) = 1 ∧ ∀ k' b', (t,b') ∈ q k' → k' = k ∧ b' = b

structure InReaper (f : Fifo τ) (q : Wq μ ν → List (Ent τ)) (s : Kernel τ μ ν) (t : τ) : Prop where
  status : s.status t = .dead
  lines : ∀ l, (f.queue l).count t = if l = .reaper ∧ t ∉ s.destroyed.map Destroyed.thr then 1 else 0
  queues : ∀ k b, (t,b) ∉ q k

omit [DecidableEq μ] [DecidableEq ν] in
theorem lineCount (base : Base idle f q s) (l : ThreadList) : (f.queue l).count t = if t ∈ f.queue l then 1 else 0 :=
  (forestNodup base.holds.forest l).count

omit [DecidableEq μ] [DecidableEq ν] in
theorem placeFound (base : Base idle f q s) (born : s.created t = true) : InReady f q s t ∨ InQueue f q s t ∨ InReaper f q s t := by
  have placed := base.placed t
  cases status : s.status t with
  | run =>
    refine Or.inl ⟨status,fun l => ?_,noEntry placed (by rw [status]; decide)⟩
    obtain ⟨p,member⟩ := placed.ready.mpr ⟨born,status⟩
    have own := base.holds.own p t member
    rw [lineCount base]
    congr 1
    rw [eq_iff_iff]
    constructor
    · intro inside
      rw [own]
      exact base.holds.forest.apart t l _ inside member
    · rintro rfl
      rw [own]
      exact member
  | wait =>
    obtain ⟨k,b,member⟩ := placed.queued.mpr status
    refine Or.inr (Or.inl ⟨status,noLine placed (by rw [status]; decide) (by rw [status]; decide),k,b,?_,fun k' b' other =>
      placed.once k' b' k b other member⟩)
    exact List.count_eq_one_of_mem (forestNodup base.forest k) member
  | exit => exact absurd status placed.going
  | dead =>
    refine Or.inr (Or.inr ⟨status,fun l => ?_,noEntry placed (by rw [status]; decide)⟩)
    rw [lineCount base]
    congr 1
    rw [eq_iff_iff]
    cases l with
    | ready p =>
      refine iff_of_false (fun member => ?_) (fun wrong => by cases wrong.1)
      have := (placed.ready.mp ⟨p,member⟩).2
      rw [status] at this
      cases this
    | reaper =>
      rw [placed.dead]
      simp [status]

variable {m : Machine τ (Kernel τ μ ν) (Proc μ ν) Int (Threads.Op τ μ ν) Fault}

theorem neverFaults (careful : Careful idle may) (run : (kernel idle may).Reached (start idle reaper) m) (c : Threads.Op τ μ ν) (e : Fault) :
    (kernel idle may).step c m ≠ .error e :=
  stepFault (reachedGood (bodiesSound careful) startGood run)

theorem threadsPlaced (careful : Careful idle may) (run : (kernel idle may).Reached (start idle reaper) m) (switching : m.switching = true) :
    ∃ f q, Lists f q m.shared ∧
      (∀ t, m.shared.created t = true → InReady f q m.shared t ∨ InQueue f q m.shared t ∨ InReaper f q m.shared t) ∧
      (m.shared.cpu.current = idle ∨ InReady f q m.shared m.shared.cpu.current) := by
  obtain ⟨f,q,base,_,ready⟩ := switchedInv careful run switching
  refine ⟨f,q,⟨base.holds.forest.ring,base.forest.ring,base.holds.prio,base.thr⟩,fun t => placeFound base,?_⟩
  obtain ⟨runs,born⟩ := readyRuns base ready
  refine born.imp_right fun born => ?_
  rcases placeFound base born with here | here | here
  · exact here
  · exact absurd (runs.symm.trans here.status) nofun
  · exact absurd (runs.symm.trans here.status) nofun

theorem exitsReaped (careful : Careful idle may) (run : (kernel idle may).Reached (start idle reaper) m) (switching : m.switching = true) :
    (listIsEmpty m.shared.waits (.head .reaper) = false → listIsEmpty m.shared.cpu.rdq.links (.head .reaper) = true ∧
      ∀ t ∈ m.shared.exits, t ∈ m.shared.destroyed.map Destroyed.thr) ∧
    m.shared.enqueued = m.shared.exits ∧ m.shared.exits.Nodup ∧ (m.shared.destroyed.map Destroyed.thr).Nodup ∧
    (∀ d ∈ m.shared.destroyed, d.thr ∈ m.shared.exits ∧ d.rc = 0 ∧ d.used = false) ∧
    (∀ t ∈ m.shared.exits, t ∉ m.shared.destroyed.map Destroyed.thr →
      ∃ l : List τ, Ring m.shared.cpu.rdq.links (.head .reaper) (l.map .node) ∧ t ∈ l) := by
  obtain ⟨f,q,base,quiet,_⟩ := switchedInv careful run switching
  have dead : ∀ t, t ∈ m.shared.exits ↔ m.shared.status t = .dead := fun t => by rw [← base.ended.enqueued,(base.placed t).ended]
  have queued : ∀ t ∈ m.shared.exits, t ∉ m.shared.destroyed.map Destroyed.thr → t ∈ f.queue .reaper :=
    fun t exited left => (base.placed t).dead.mpr ⟨(dead t).mp exited,left⟩
  refine ⟨fun asleep => ?_,base.ended.enqueued,?_,base.ended.destroyed,fun d member => ?_,fun t exited left => ?_⟩
  · have empty : f.queue .reaper = [] := quiet.resolve_left fun none => by
      rw [(isEmptyForest base.forest).mpr none] at asleep
      cases asleep
    refine ⟨(isEmptyForest base.holds.forest).mpr empty,fun t exited => ?_⟩
    by_contra left
    have inside := queued t exited left
    rw [empty] at inside
    cases inside
  · rw [← base.ended.enqueued]
    exact base.ended.once
  · obtain ⟨rc,used,gone⟩ := base.ended.clean d member
    exact ⟨(dead d.thr).mpr gone,rc,used⟩
  · exact ⟨f.queue .reaper,base.holds.forest.ring .reaper,queued t exited left⟩

end Runs

section Examples

def mayWait (t : Nat) (w : Word) : Bool := decide (t ≠ 0 ∧ w = 0)

theorem mayWaitCareful : Careful 0 mayWait := by
  intro t w allowed
  obtain ⟨other,rfl⟩ : t ≠ 0 ∧ w = 0 := by simpa [mayWait] using allowed
  exact ⟨other,by decide,by decide⟩

def creations : List (Threads.Op Nat Unit Unit) :=
  later 2 (.create (some ⟨0,0,3⟩) true (some 2)) ++ later 4 (.create (some ⟨0,0,7⟩) true (some 1)) ++ later 4 .schedule

theorem reaperNeverFaults : ∃ m : Machine Nat (Kernel Nat Unit Unit) _ _ _ _, (kernel 0 mayWait).Reached (start 0 1) m ∧
    m.shared.cpu.current = 1 ∧ ∀ c e, (kernel 0 mayWait).step c m ≠ .error e := by
  have ran : ((kernel 0 mayWait).play (creations ++ later 3 .stop) (start 0 1 : Machine Nat (Kernel Nat Unit Unit) _ _ _ _)).toOption.map
      (fun m => m.shared.cpu.current) = some 1 := by decide +kernel
  obtain ⟨m,run,current⟩ := played ran
  exact ⟨m,run,current,neverFaults mayWaitCareful run⟩

theorem reaperBegins : ∃ (m : Machine Nat (Kernel Nat Unit Unit) _ _ _ _) (f : Fifo Nat) (q : Wq Unit Unit → List (Ent Nat)),
    (kernel 0 mayWait).Reached (start 0 1) m ∧ m.switching = true ∧ m.shared.created 2 = true ∧ Lists f q m.shared ∧
      InReady f q m.shared 1 := by
  have ran : ((kernel 0 mayWait).play (creations ++ later 3 .stop) (start 0 1 : Machine Nat (Kernel Nat Unit Unit) _ _ _ _)).toOption.map
      (fun m => (m.switching,m.shared.created 2,m.shared.cpu.current)) = some (true,true,1) := by decide +kernel
  obtain ⟨m,run,seen⟩ := played ran
  obtain ⟨switching,created,current⟩ : m.switching = true ∧ m.shared.created 2 = true ∧ m.shared.cpu.current = 1 := by simpa using seen
  obtain ⟨f,q,lists,_,ready⟩ := threadsPlaced mayWaitCareful run switching
  rw [current] at ready
  exact ⟨m,f,q,run,switching,created,lists,ready.resolve_left nofun⟩

theorem reaperSleeps : ∃ m : Machine Nat (Kernel Nat Unit Unit) _ _ _ _, (kernel 0 mayWait).Reached (start 0 1) m ∧ m.switching = true ∧
    m.shared.exits = [2] ∧
    2 ∈ m.shared.destroyed.map Destroyed.thr ∧ listIsEmpty m.shared.cpu.rdq.links (.head .reaper) = true := by
  have ran : ((kernel 0 mayWait).play (creations ++ later 21 .exit ++ later 50 .stop)
    (start 0 1 : Machine Nat (Kernel Nat Unit Unit) _ _ _ _)).toOption.map
      (fun m => (m.switching,m.shared.exits,listIsEmpty m.shared.waits (.head .reaper))) = some (true,[2],false) := by decide +kernel
  obtain ⟨m,run,seen⟩ := played ran
  obtain ⟨switching,exits,asleep⟩ : m.switching = true ∧ m.shared.exits = [2] ∧ listIsEmpty m.shared.waits (.head .reaper) = false := by
    simpa using seen
  obtain ⟨empty,all⟩ := (exitsReaped mayWaitCareful run switching).1 asleep
  exact ⟨m,run,switching,exits,all 2 (by rw [exits]; decide),empty⟩

end Examples

end TskSw.ThreadSafety
