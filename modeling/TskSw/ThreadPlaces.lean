import TskSw.Threads

/-! Where the threads are: in the ready list of their priority, waiting with one entry in one
queue, or dead and on the way to the reaper. Every function keeps this, also while a thread
runs that is itself in none of the lists. -/
namespace TskSw.ThreadPlaces
open CircularLists KernList ReadyQueue Coroutines Threads
open Preempt (Cpu Word tiReferPreemptCount tiReferIrqCount)
open BlkIo (Fault)
open Function (update update_of_ne update_self)

section Invariant
variable {τ μ ν : Type} [DecidableEq τ]

structure Placed (f : Fifo τ) (q : Wq μ ν → List (Ent τ)) (s : Kernel τ μ ν) (t : τ) : Prop where
  ready : (∃ p, t ∈ f.queue (.ready p)) ↔ s.created t = true ∧ s.status t = .run
  queued : (∃ k b, (t,b) ∈ q k) ↔ s.status t = .wait
  once : ∀ k b k' b', (t,b) ∈ q k → (t,b') ∈ q k' → k = k' ∧ b = b'
  dead : t ∈ f.queue .reaper ↔ s.status t = .dead ∧ t ∉ s.destroyed.map Destroyed.thr
  going : s.status t ≠ .exit
  ended : t ∈ s.enqueued ↔ s.status t = .dead

structure Ended (s : Kernel τ μ ν) : Prop where
  enqueued : s.enqueued = s.exits
  once : s.enqueued.Nodup
  destroyed : (s.destroyed.map Destroyed.thr).Nodup
  clean : ∀ d ∈ s.destroyed, d.rc = 0 ∧ d.used = false ∧ s.status d.thr = .dead

structure Base (idle : τ) (f : Fifo τ) (q : Wq μ ν → List (Ent τ)) (s : Kernel τ μ ν) : Prop where
  holds : Holds f s.cpu.rdq
  forest : Forest s.waits q
  thr : ∀ k e, e ∈ q k → s.thr e = some e.1
  placed : ∀ t, Placed f q s t
  unborn : ∀ t, s.created t = false → s.status t = .run ∧ (t ≠ idle → s.cpu.preempt t = 0)
  idle : s.created idle = false
  ended : Ended s

def Quiet (f : Fifo τ) (q : Wq μ ν → List (Ent τ)) : Prop := q .reaper = [] ∨ f.queue .reaper = []

def Ready (idle : τ) (f : Fifo τ) (t : τ) : Prop := t = idle ∨ ∃ p, t ∈ f.queue (.ready p)

def Inv (idle : τ) (s : Kernel τ μ ν) : Prop := ∃ f q, Base idle f q s ∧ Quiet f q ∧ Ready idle f s.cpu.current

def Free (s : Kernel τ μ ν) (t : τ) : Prop := tiReferPreemptCount (s.cpu.preempt t) = 0 ∧ tiReferIrqCount (s.cpu.preempt t) = 0

structure At (idle t : τ) (s : Kernel τ μ ν) : Prop where
  lists : ∃ f q, Base idle f q s ∧ Quiet f q
  current : s.cpu.current = t
  born : t = idle ∨ s.created t = true

end Invariant

section Moves
variable {τ μ ν : Type} [DecidableEq τ] [DecidableEq μ] [DecidableEq ν] {idle t u : τ} {f f' : Fifo τ} {q q' : Wq μ ν → List (Ent τ)}
  {s s' : Kernel τ μ ν} {k : Wq μ ν} {b : Frame}

structure Same (f : Fifo τ) (q : Wq μ ν → List (Ent τ)) (s : Kernel τ μ ν) (f' : Fifo τ) (q' : Wq μ ν → List (Ent τ))
    (s' : Kernel τ μ ν) (u : τ) : Prop where
  lines : ∀ l, u ∈ f'.queue l ↔ u ∈ f.queue l
  entries : ∀ k b, (u,b) ∈ q' k ↔ (u,b) ∈ q k
  status : s'.status u = s.status u
  created : s'.created u = s.created u
  destroyed : u ∈ s'.destroyed.map Destroyed.thr ↔ u ∈ s.destroyed.map Destroyed.thr
  enqueued : u ∈ s'.enqueued ↔ u ∈ s.enqueued

omit [DecidableEq τ] [DecidableEq μ] [DecidableEq ν] in
theorem placedSame (h : Placed f q s u) (same : Same f q s f' q' s' u) : Placed f' q' s' u := by
  refine ⟨?_,?_,fun k b k' b' first second => ?_,?_,?_,?_⟩
  · simp only [same.lines,same.status,same.created]
    exact h.ready
  · simp only [same.entries,same.status]
    exact h.queued
  · exact h.once k b k' b' ((same.entries k b).mp first) ((same.entries k' b').mp second)
  · rw [same.lines,same.status,same.destroyed]
    exact h.dead
  · rw [same.status]
    exact h.going
  · rw [same.enqueued,same.status]
    exact h.ended

omit [DecidableEq τ] [DecidableEq μ] [DecidableEq ν] in
theorem noEntry (h : Placed f q s t) (status : s.status t ≠ .wait) (k : Wq μ ν) (b : Frame) : (t,b) ∉ q k :=
  fun member => status (h.queued.mp ⟨k,b,member⟩)

omit [DecidableEq τ] [DecidableEq μ] [DecidableEq ν] in
theorem noLine (h : Placed f q s t) (notRun : s.status t ≠ .run) (notDead : s.status t ≠ .dead) (l : ThreadList) : t ∉ f.queue l := by
  intro member
  cases l with
  | ready p => exact notRun (h.ready.mp ⟨p,member⟩).2
  | reaper => exact notDead (h.dead.mp member).1

structure Kept (s s' : Kernel τ μ ν) : Prop where
  current : s'.cpu.current = s.cpu.current
  preempt : s'.cpu.preempt = s.cpu.preempt
  created : s'.created = s.created

omit [DecidableEq μ] [DecidableEq ν] in
theorem baseMove (h : Base idle f q s) (kept : Kept s s') (born : s.created t = true) (holds : Holds f' s'.cpu.rdq) (forest : Forest s'.waits q')
    (thr : ∀ k e, e ∈ q' k → s'.thr e = some e.1) (mine : Placed f' q' s' t) (others : ∀ u, u ≠ t → Same f q s f' q' s' u)
    (ended : Ended s') :
    Base idle f' q' s' := by
  refine ⟨holds,forest,thr,fun u => ?_,fun u unborn => ?_,by rw [kept.created]; exact h.idle,ended⟩
  · by_cases same : u = t
    · exact same ▸ mine
    · exact placedSame (h.placed u) (others u same)
  · rw [kept.created] at unborn
    have other : u ≠ t := fun same => by
      rw [same,born] at unborn
      cases unborn
    rw [(others u other).status,kept.preempt]
    exact h.unborn u unborn

omit [DecidableEq τ] [DecidableEq μ] [DecidableEq ν] in
theorem endedKeep (h : Ended s) (enqueued : s'.enqueued = s.enqueued) (exits : s'.exits = s.exits) (destroyed : s'.destroyed = s.destroyed)
    (dead : ∀ t, s.status t = .dead → s'.status t = .dead) : Ended s' := by
  refine ⟨?_,?_,?_,fun d member => ?_⟩
  · rw [enqueued,exits]
    exact h.enqueued
  · rw [enqueued]
    exact h.once
  · rw [destroyed]
    exact h.destroyed
  · rw [destroyed] at member
    obtain ⟨rc,used,gone⟩ := h.clean d member
    exact ⟨rc,used,dead d.thr gone⟩

omit [DecidableEq μ] [DecidableEq ν] in
theorem deadStays {x} (alive : s.status t ≠ .dead) (u : τ) (dead : s.status u = .dead) : update s.status t x u = .dead := by
  have other : u ≠ t := fun same => alive (same ▸ dead)
  rwa [update_of_ne other]

theorem asleepBase (h : Base idle f q s) (current : s.cpu.current = t) (born : s.created t = true) (runs : s.status t = .run) (k : Wq μ ν)
    (b : Frame) :
    ∃ s', fallAsleep k (t,b) s = .ok s' ∧ Kept s s' ∧ s'.status = update s.status t .wait ∧
      Base idle {f with queue := fun l => (f.queue l).erase t} (update q k (q k ++ [(t,b)])) s' := by
  have fresh := noEntry (h.placed t) (by rw [runs]; decide)
  have alone : s.waits.alone (.node (t,b)) := (forestAlone h.forest).mpr fun l => fresh l b
  obtain ⟨rdq,removed,holds⟩ := removeHolds h.holds t
  have away : ∀ l, t ∉ (f.queue l).erase t := fun l member => ((erasedMem h.holds.forest).mp member).2 rfl
  have gone : rdq.links.alone (.node t) := (forestAlone holds.forest).mpr away
  have ran : fallAsleep k (t,b) s = .ok {s.setRdq rdq with
      waits := listAdd s.waits (.head k) (.node (t,b)), thr := update s.thr (t,b) (some t),
      status := update s.status t .wait} := by
    simp only [fallAsleep,removeThread,isolateAlone alone,current,removed]
    simp only [bind,Except.bind,pure,Except.pure,wqueAddThread,Kernel.setRdq,Kernel.setStatus,isolateAlone alone,listDel,current,unlinkAlone gone]
  have entry : ∀ l c, (t,c) ∈ update q k (q k ++ [(t,b)]) l ↔ l = k ∧ c = b := fun l c => by simp [appendedMem,fresh l c]
  refine ⟨_,ran,⟨rfl,rfl,rfl⟩,rfl,baseMove (t := t) h ⟨rfl,rfl,rfl⟩ born holds (addForest h.forest fun l => fresh l b)
    (fun l e member => ?_) ?_
    (fun u other => ⟨fun l => ?_,fun l c => ?_,update_of_ne other _ _,rfl,Iff.rfl,Iff.rfl⟩)
    (endedKeep h.ended rfl rfl rfl (deadStays (by rw [runs]; decide)))⟩
  · rcases appendedMem.mp member with old | ⟨_,rfl⟩
    · have other : e ≠ (t,b) := fun same => fresh l b (same ▸ old)
      exact (update_of_ne other _ _).trans (h.thr l e old)
    · exact update_self _ _ _
  · have before : t ∉ s.enqueued := fun member => by
      rw [(h.placed t).ended,runs] at member
      cases member
    refine ⟨?_,?_,fun l c l' c' first second => ?_,?_,?_,?_⟩
    · simp [away]
    · simp [entry]
    · obtain ⟨rfl,rfl⟩ := (entry l c).mp first
      obtain ⟨rfl,rfl⟩ := (entry l' c').mp second
      exact ⟨rfl,rfl⟩
    · simp [away]
    · simp
    · simp [Kernel.setRdq,before]
  · simp [erasedMem h.holds.forest,other]
  · simp [appendedMem,other]

theorem wokenBase (h : Base idle f q s) {rest : List (Ent τ)} (first : q k = (t,b) :: rest) :
    ∃ s', wakeOne k s = .ok s' ∧ Kept s s' ∧ s'.status = update s.status t .run ∧ Base idle (f.enter t) (update q k rest) s' := by
  have member : (t,b) ∈ q k := by rw [first]; exact List.mem_cons_self
  have waiting := (h.placed t).queued.mp ⟨k,b,member⟩
  have born : s.created t = true := by
    by_contra unborn
    rw [(h.unborn t (by simpa using unborn)).1] at waiting
    cases waiting
  have absent : ∀ l, t ∉ f.queue l := noLine (h.placed t) (by rw [waiting]; decide) (by rw [waiting]; decide)
  obtain ⟨top,popped⟩ := getTopForest h.forest first
  have fresh := poppedFresh h.forest first
  have alone := (forestAlone popped).mpr fresh
  obtain ⟨rdq,added,holds⟩ := addHolds h.holds absent
  have ran : wakeOne k s = .ok {s.setRdq rdq with
      waits := (listGetTop s.waits (.head k)).2, thr := update s.thr (t,b) none, status := update s.status t .run} := by
    have taken : listGetTop s.waits (.head k) = (.node (t,b),(listGetTop s.waits (.head k)).2) := Prod.ext top rfl
    unfold wakeOne
    rw [taken]
    simp only [h.thr k (t,b) member,schedSetReady,Kernel.setStatus,added]
    simp only [bind,Except.bind,pure,Except.pure,Kernel.setRdq,listDel,unlinkAlone alone,isolateAlone alone]
  have line : ∀ l, t ∈ (f.enter t).queue l ↔ l = .ready (f.prio t) := fun l => by simp [Fifo.enter,appendedMem,absent l]
  have noMore : ∀ l c, (t,c) ∉ update q k rest l := by
    intro l c inside
    obtain ⟨old,other⟩ := (poppedMem h.forest first).mp inside
    exact other (by rw [((h.placed t).once l c k b old member).2])
  refine ⟨_,ran,⟨rfl,rfl,rfl⟩,rfl,baseMove (t := t) h ⟨rfl,rfl,rfl⟩ born holds popped (fun l e inside => ?_) ?_
    (fun u other => ⟨fun l => ?_,fun l c => ?_,update_of_ne other _ _,rfl,Iff.rfl,Iff.rfl⟩)
    (endedKeep h.ended rfl rfl rfl (deadStays (by rw [waiting]; decide)))⟩
  · obtain ⟨old,other⟩ := (poppedMem h.forest first).mp inside
    exact (update_of_ne other _ _).trans (h.thr l e old)
  · have before : t ∉ s.enqueued := fun inside => by
      rw [(h.placed t).ended,waiting] at inside
      cases inside
    refine ⟨?_,?_,fun l c l' c' inside => absurd inside (noMore l c),?_,?_,?_⟩
    · simp [line,Kernel.setRdq,born]
    · simp [noMore]
    · simp [line]
    · simp
    · simp [Kernel.setRdq,before]
  · simp [Fifo.enter,appendedMem,other]
  · simp [poppedMem h.forest first,other]

theorem entryBase (h : Base idle f q s) {e} (absent : ∀ l, e ∉ q l) : Base idle f q (wqueRemoveEntry e s) := by
  have alone := (forestAlone h.forest).mpr absent
  have same : initListNode (listDel s.waits (.node e)) (.node e) = s.waits := by rw [listDel,unlinkAlone alone,isolateAlone alone]
  refine ⟨h.holds,?_,fun l d member => ?_,fun u => placedSame (h.placed u) ⟨fun _ => Iff.rfl,fun _ _ => Iff.rfl,rfl,rfl,Iff.rfl,Iff.rfl⟩,
    h.unborn,h.idle,endedKeep h.ended rfl rfl rfl fun _ => id⟩
  · show Forest (initListNode (listDel s.waits (.node e)) (.node e)) q
    rw [same]
    exact h.forest
  · have other : d ≠ e := fun same => absent l (same ▸ member)
    exact (update_of_ne other _ _).trans (h.thr l d member)

omit [DecidableEq τ] [DecidableEq μ] [DecidableEq ν] in
theorem cpuBase {cpu} (h : Base idle f q s) (holds : Holds f' cpu.rdq) (lines : ∀ u l, u ∈ f'.queue l ↔ u ∈ f.queue l)
    (preempt : ∀ u, s.created u = false → u ≠ idle → cpu.preempt u = s.cpu.preempt u) : Base idle f' q (s.setCpu cpu) := by
  refine ⟨holds,h.forest,h.thr,fun u => placedSame (h.placed u) ⟨lines u,fun _ _ => Iff.rfl,rfl,rfl,Iff.rfl,Iff.rfl⟩,fun u unborn => ?_,h.idle,
    endedKeep h.ended rfl rfl rfl fun _ => id⟩
  refine ⟨(h.unborn u unborn).1,fun other => ?_⟩
  exact (preempt u unborn other).trans ((h.unborn u unborn).2 other)

omit [DecidableEq μ] [DecidableEq ν] in
theorem rotateBase (h : Base idle f q s) :
    Base idle {f with queue := update f.queue (.ready 0) ((f.queue (.ready 0)).rotate 1)} q (schedRotateQueue s) :=
  cpuBase h (rotateHolds h.holds) (fun _ _ => rotatedMem) fun _ _ _ => rfl

omit [DecidableEq μ] [DecidableEq ν] in
theorem exitBase (h : Base idle f q s) (current : s.cpu.current = t) (born : s.created t = true) (runs : s.status t = .run) :
    ∃ s', leaveReady s = .ok s' ∧ Kept s s' ∧ s'.status = update s.status t .exit ∧
      ∃ f', Base idle f' q (thrAddThreadQueue t s') := by
  obtain ⟨rdq,removed,holds⟩ := removeHolds h.holds t
  have away : ∀ l, t ∉ (f.queue l).erase t := fun l member => ((erasedMem h.holds.forest).mp member).2 rfl
  have ran : leaveReady s = .ok {(s.setRdq rdq).setStatus t .exit with exits := t :: s.exits} := by
    simp only [leaveReady,removeThread,current,removed]
    simp only [bind,Except.bind,pure,Except.pure,Kernel.setRdq,current]
  have before : t ∉ s.enqueued := fun inside => by
    rw [(h.placed t).ended,runs] at inside
    cases inside
  have undestroyed : t ∉ s.destroyed.map Destroyed.thr := fun inside => by
    obtain ⟨d,member,same⟩ := List.mem_map.mp inside
    have dead := (h.ended.clean d member).2.2
    rw [same,runs] at dead
    cases dead
  have status : ∀ x y u, update (update s.status t x) t y u = if u = t then y else s.status u := fun x y u => by
    rw [Function.update_idem,Function.update_apply]
  have none := noEntry (h.placed t) (by rw [runs]; decide)
  refine ⟨_,ran,⟨rfl,rfl,rfl⟩,rfl,_,baseMove (t := t) h ⟨rfl,rfl,rfl⟩ born
    (reaperHolds holds (addForest holds.forest away)) h.forest h.thr ?_ (fun u other => ⟨fun l => ?_,fun _ _ => Iff.rfl,?_,rfl,Iff.rfl,?_⟩)
    ⟨?_,?_,h.ended.destroyed,fun d member => ?_⟩⟩
  · have dead : (thrAddThreadQueue t {(s.setRdq rdq).setStatus t .exit with exits := t :: s.exits}).status t = .dead :=
      (status _ _ t).trans (if_pos rfl)
    refine ⟨?_,?_,fun k b k' b' first => absurd first (none k b),?_,?_,?_⟩
    · simp [away,dead]
    · simp [none,dead]
    · exact iff_of_true (by simp) ⟨dead,undestroyed⟩
    · simp [dead]
    · exact iff_of_true List.mem_cons_self dead
  · simp [appendedMem,erasedMem h.holds.forest,other]
  · exact (status _ _ u).trans (if_neg other)
  · simp [thrAddThreadQueue,Kernel.setStatus,Kernel.setRdq,other]
  · exact congrArg (t :: ·) h.ended.enqueued
  · exact List.nodup_cons.mpr ⟨before,h.ended.once⟩
  · obtain ⟨rc,used,dead⟩ := h.ended.clean d member
    have other : d.thr ≠ t := fun same => undestroyed (List.mem_map.mpr ⟨d,member,same⟩)
    exact ⟨rc,used,(status _ _ d.thr).trans ((if_neg other).trans dead)⟩

theorem reapedBase (h : Base idle f q s) {rest} (first : f.queue .reaper = t :: rest) (runs : s.status s.cpu.current = .run) :
    (listGetTop s.cpu.rdq.links (.head .reaper)).1 = .node t ∧ s.status t = .dead ∧
      Base idle {f with queue := update f.queue .reaper rest} q
        (record t 0 (s.setRdq {s.cpu.rdq with links := (listGetTop s.cpu.rdq.links (.head .reaper)).2})) := by
  have inside : t ∈ f.queue .reaper := by rw [first]; exact List.mem_cons_self
  obtain ⟨dead,undestroyed⟩ := (h.placed t).dead.mp inside
  have born : s.created t = true := by
    by_contra unborn
    rw [(h.unborn t (by simpa using unborn)).1] at dead
    cases dead
  obtain ⟨top,popped⟩ := getTopForest h.holds.forest first
  have none := noEntry (h.placed t) (by rw [dead]; decide)
  have unused : inUse t (s.setRdq {s.cpu.rdq with links := (listGetTop s.cpu.rdq.links (.head .reaper)).2}) = false := by
    have other : t ≠ s.cpu.current := fun same => by
      rw [← same,dead] at runs
      cases runs
    have unlinked : listIsLinked (listGetTop s.cpu.rdq.links (.head .reaper)).2 (.node t) = false :=
      (isLinkedForest popped).mpr (poppedFresh h.holds.forest first)
    have unqueued : ∀ b, listIsLinked s.waits (.node (t,b)) = false := fun b => (isLinkedForest h.forest).mpr fun k => none k b
    simp [inUse,Kernel.setRdq,other,unlinked,unqueued]
  refine ⟨top,dead,baseMove (t := t) h ⟨rfl,rfl,rfl⟩ born (reaperHolds h.holds popped) h.forest h.thr ?_
    (fun u other => ⟨fun l => ?_,fun _ _ => Iff.rfl,rfl,rfl,?_,Iff.rfl⟩) ⟨h.ended.enqueued,h.ended.once,?_,fun d member => ?_⟩⟩
  · refine ⟨?_,(h.placed t).queued,(h.placed t).once,?_,(h.placed t).going,(h.placed t).ended⟩
    · show (∃ p, t ∈ update f.queue .reaper rest (.ready p)) ↔ s.created t = true ∧ s.status t = .run
      simpa using (h.placed t).ready
    · refine iff_of_false (poppedFresh h.holds.forest first .reaper) fun ⟨_,fresh⟩ => fresh ?_
      simp [record]
  · simp [poppedMem h.holds.forest first,other]
  · simp [record,Kernel.setRdq,other]
  · exact List.nodup_cons.mpr ⟨undestroyed,h.ended.destroyed⟩
  · rcases List.mem_cons.mp member with rfl | old
    · exact ⟨rfl,unused,dead⟩
    · exact h.ended.clean d old

omit [DecidableEq τ] [DecidableEq μ] [DecidableEq ν] in
theorem unbornAbsent (h : Base idle f q s) (unborn : s.created t = false) : ∀ l, t ∉ f.queue l := by
  intro l member
  cases l with
  | ready p =>
    have born := ((h.placed t).ready.mp ⟨p,member⟩).1
    rw [unborn] at born
    cases born
  | reaper =>
    have dead := ((h.placed t).dead.mp member).1
    rw [(h.unborn t unborn).1] at dead
    cases dead

omit [DecidableEq μ] [DecidableEq ν] in
theorem createdBase (h : Base idle f q s) (other : t ≠ idle) (runs : s.status t = .run) {g : Fifo τ} {rdq} (holds : Holds (g.enter t) rdq)
    (lines : g.queue = f.queue) : Base idle (g.enter t) q {s.setRdq rdq with created := update s.created t true} := by
  have grown : ∀ u, u ≠ t → update s.created t true u = s.created u := fun u other => update_of_ne other _ _
  have line : ∀ u l, u ∈ (g.enter t).queue l ↔ u ∈ f.queue l ∨ l = .ready (g.prio t) ∧ u = t := by
    intro u l
    rw [← lines]
    exact appendedMem
  refine ⟨holds,h.forest,h.thr,fun u => ?_,fun u later => ?_,(grown idle other.symm).trans h.idle,endedKeep h.ended rfl rfl rfl fun _ => id⟩
  · by_cases same : u = t
    · subst same
      refine ⟨?_,(h.placed u).queued,(h.placed u).once,?_,(h.placed u).going,(h.placed u).ended⟩
      · exact iff_of_true ⟨_,(line u _).mpr (Or.inr ⟨rfl,rfl⟩)⟩ ⟨update_self _ _ _,runs⟩
      · refine (line u .reaper).trans (Iff.trans ?_ (h.placed u).dead)
        simp
    · refine placedSame (h.placed u) ⟨fun l => ?_,fun _ _ => Iff.rfl,rfl,grown u same,Iff.rfl,Iff.rfl⟩
      simp [line,same]
  · have apart : u ≠ t := fun same => by
      subst same
      have wrong : true = false := (update_self _ _ _).symm.trans later
      cases wrong
    exact h.unborn u ((grown u apart).symm.trans later)

omit [DecidableEq μ] [DecidableEq ν] in
theorem createBase (h : Base idle f q s) (attrp : Option Attr) (memalign : Bool) {thr} (new : fresh idle s thr = true) :
    ∃ s', Threads.thrCreateThread attrp memalign thr s = .ok s' ∧ s'.cpu.current = s.cpu.current ∧ s'.cpu.preempt = s.cpu.preempt ∧
      s'.status = s.status ∧
      (∀ u, s.created u = true → s'.created u = true) ∧ ∃ f', Base idle f' q s' ∧ f'.queue .reaper = f.queue .reaper := by
  have refused : Threads.thrCreateThread attrp memalign thr s = .ok s →
      ∃ s', Threads.thrCreateThread attrp memalign thr s = .ok s' ∧ s'.cpu.current = s.cpu.current ∧ s'.cpu.preempt = s.cpu.preempt ∧
        s'.status = s.status ∧
        (∀ u, s.created u = true → s'.created u = true) ∧ ∃ f', Base idle f' q s' ∧ f'.queue .reaper = f.queue .reaper :=
    fun ran => ⟨s,ran,rfl,rfl,rfl,fun _ => id,f,h,rfl⟩
  cases stack : needsStack attrp && !memalign with
  | true =>
    refine refused ?_
    simp only [Threads.thrCreateThread,ReadyQueue.thrCreateThread,stack,if_true]
    cases thr <;> rfl
  | false =>
    cases thr with
    | none =>
      refine refused ?_
      simp only [Threads.thrCreateThread,ReadyQueue.thrCreateThread,stack]
      rfl
    | some t =>
      obtain ⟨other,unborn⟩ : t ≠ idle ∧ s.created t = false := by simpa [fresh] using new
      obtain ⟨runs,word⟩ := h.unborn t unborn
      obtain ⟨rdq,added,holds⟩ := createHolds h.holds (unbornAbsent h unborn) attrp
      have cleared : update s.cpu.preempt t 0 = s.cpu.preempt := Function.update_eq_self_iff.mpr (word other).symm
      have running : update s.status t .run = s.status := Function.update_eq_self_iff.mpr runs.symm
      have ran : Threads.thrCreateThread attrp memalign (some t) s = .ok {s.setRdq rdq with created := update s.created t true} := by
        simp only [Threads.thrCreateThread,ReadyQueue.thrCreateThread,stack,added,Bool.false_eq_true,if_false]
        simp only [bind,Except.bind,pure,Except.pure,if_true,Kernel.setCpu,Kernel.setStatus,Kernel.setRdq,cleared,running]
      refine ⟨_,ran,rfl,rfl,rfl,fun u born => ?_,_,createdBase h other runs holds rfl,by simp [Fifo.enter]⟩
      by_cases same : u = t
      · subst same
        exact update_self _ _ _
      · exact (update_of_ne same _ _).trans born

end Moves
end TskSw.ThreadPlaces
