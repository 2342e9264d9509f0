import TskSw.DelayedDispatch

/-! The flag of an active scheduler and the delayed dispatch. `ti_check_preempt_active` never
sees the flag, so nothing in `sched_delay_disptach` keeps it from calling `sched_schedule` again.
What keeps it is that a request pending at an exit was made by an interrupt handler, whose own
`sched_schedule` has cleared the flag on its way out. -/
namespace TskSw.ActiveDispatch
open Preempt hiding schedSchedule Event Reached exec
open DelayedDispatch

def flagged (w : Word) : Bool := w &&& preemptActive ≠ 0

variable {w : Word} {s s' : Thread} {rest : List Frame}

section Flag

theorem flaggedBit (w : Word) : flagged w = w.getLsbD 63 := testBit activeBit w

@[simp] theorem flaggedSet : flagged (tiSetPreemptActive w) = true := by
  rw [flaggedBit,tiSetPreemptActive,BitVec.getLsbD_or,activeBit]
  simp

@[simp] theorem flaggedCleared : flagged (tiClrPreemptActive w) = false := by
  rw [flaggedBit,tiClrPreemptActive,BitVec.getLsbD_and,BitVec.getLsbD_not,activeBit]
  simp

@[simp] theorem flaggedDelayed : flagged (tiSetDelayDispatch w) = flagged w := by
  rw [flaggedBit,flaggedBit,tiSetDelayDispatch,BitVec.getLsbD_or,delayedBit]
  simp

@[simp] theorem flaggedUndelayed : flagged (tiClrDelayDispatch w) = flagged w := by
  rw [flaggedBit,flaggedBit,tiClrDelayDispatch,BitVec.getLsbD_and,BitVec.getLsbD_not,delayedBit]
  simp

@[simp] theorem flaggedTrap (irq : Bool) (d : Word) : flagged (tiUpdatePreemptCount w (trapShift irq) d) = flagged w := by
  rw [flaggedBit,flaggedBit,updateBit d (by cases irq <;> decide),if_neg (by cases irq <;> decide)]

end Flag

def startAt (w : Word) : Thread := ⟨w,[⟨.task,.running⟩],false⟩

inductive ReachedFrom (w : Word) : Thread → Prop where
  | start : ReachedFrom w (startAt w)
  | step {e : Event} {s s' : Thread} (before : ReachedFrom w s) (shallow : Shallow s e) (next : step e s = some s') : ReachedFrom w s'

def Fresh (s : Thread) : Prop := ∀ c rest, s.frames = ⟨c,.dispatching⟩ :: rest → flagged s.word = false

def Point.scheduling : Point → Bool
  | .unwinding _ | .finishing _ => true
  | _ => false

def Point.serving : Point → Bool
  | .clearing _ | .dispatching => true
  | _ => false

def excused : List Frame → Bool
  | [] => true
  | f :: rest => Point.scheduling f.point || !Point.serving f.point && excused rest

structure Guarded (s : Thread) : Prop where
  inv : Inv s
  needed : tiCheckNeedDispatch s.word = true → flagged s.word = true → ∃ l, ⟨.trap true,.unwinding l⟩ ∈ s.frames
  excused : flagged s.word = true → excused s.frames = true
  loads : ∀ c v, ⟨c,.clearing (some v)⟩ ∈ s.frames → flagged v = false

section Steps
variable {owed : Bool}

theorem guardedTrap {irq} (h : Guarded s) (shallow : Shallow s (.trap irq)) (next : step (.trap irq) s = some s') : Guarded s' := by
  have inv := trapInv h.inv shallow next
  cases next
  refine ⟨inv,fun need flag => ?_,fun flag => ?_,fun c v member => ?_⟩
  · rw [needTrap] at need
    rw [flaggedTrap] at flag
    obtain ⟨l,member⟩ := h.needed need flag
    exact ⟨l,List.mem_cons_of_mem _ member⟩
  · rw [flaggedTrap] at flag
    exact h.excused flag
  · exact h.loads c v (by simpa using member)

theorem guardedLeave (h : Guarded s) (next : step .leave s = some s') : Guarded s' := by
  have inv := leaveInv h.inv next
  obtain ⟨irq,rest,w,same,rfl,rfl⟩ := leaveStep next
  have excused' : flagged s.word = true → excused rest = true := fun flag => by
    have before := h.excused flag
    rw [same] at before
    exact before
  refine ⟨inv,fun need flag => ?_,fun flag => ?_,fun c v member => h.loads c v ?_⟩
  · rw [needTrap] at need
    rw [flaggedTrap] at flag
    obtain ⟨l,member⟩ := h.needed need flag
    rw [same] at member
    have below : ⟨.trap true,.unwinding l⟩ ∈ rest := by simpa using member
    refine ⟨l,?_⟩
    dsimp only
    split
    · exact below
    · exact List.mem_cons_of_mem _ below
  · rw [flaggedTrap] at flag
    dsimp only
    split
    · exact excused' flag
    · exact excused' flag
  · rw [same]
    dsimp only at member
    split at member
    · exact List.mem_cons_of_mem _ member
    · simpa using member

theorem guardedSchedule (h : Guarded s) (next : step .schedule s = some s') : Guarded s' := by
  have inv := scheduleInv h.inv next
  obtain ⟨code,rest,same,caller,rfl⟩ := scheduleStep next
  refine ⟨inv,fun need _ => ?_,fun _ => rfl,fun c v member => h.loads c v ?_⟩
  · have stack := h.inv.stack
    rw [same] at stack
    cases stack with
    | task => exact absurd need (Bool.eq_false_iff.mp (inv.quiet _ _ rfl rfl))
    | interrupt => exact ⟨none,List.mem_cons_self⟩
    | exception => exact absurd rfl caller
    | exit outside => cases outside
  · rw [same]
    simpa using member

theorem guardedTop {f} (inv : Inv ⟨w,f :: rest,owed⟩)
    (quiet : flagged w = false ∨ tiCheckNeedDispatch w = false ∧ Point.scheduling f.point = true)
    (loads : ∀ c v, ⟨c,.clearing (some v)⟩ ∈ f :: rest → flagged v = false) : Guarded ⟨w,f :: rest,owed⟩ := by
  refine ⟨inv,fun need flag => ?_,fun flag => ?_,loads⟩
  · rcases quiet with clear | ⟨none,_⟩
    · rw [clear] at flag
      cases flag
    · rw [none] at need
      cases need
  · rcases quiet with clear | ⟨_,top⟩
    · rw [clear] at flag
      cases flag
    · rw [excused,top,Bool.true_or]

theorem guardedMove {code p q} (h : Guarded ⟨w,⟨code,p⟩ :: rest,owed⟩) (inv : Inv ⟨w,⟨code,q⟩ :: rest,owed⟩)
    (outside : p.inHandler = false) (settled : Point.scheduling p = false) (before : Point.serving p = false) (after : Point.serving q = false) :
    Guarded ⟨w,⟨code,q⟩ :: rest,owed⟩ := by
  refine ⟨inv,fun need flag => ?_,fun flag => ?_,fun c v member => ?_⟩
  · obtain ⟨l,member⟩ := h.needed need flag
    rcases List.mem_cons.mp member with same | below
    · cases same
      cases outside
    · exact ⟨l,List.mem_cons_of_mem _ below⟩
  · have fine := h.excused flag
    rw [excused,settled,before] at fine
    rw [excused,after]
    simpa using Or.inr fine
  · rcases List.mem_cons.mp member with same | below
    · cases same
      cases after
    · exact h.loads c v (List.mem_cons_of_mem _ below)

theorem exitUnflagged {code p} (h : Guarded ⟨w,⟨code,p⟩ :: rest,owed⟩) (outside : p.inHandler = false)
    (need : tiCheckNeedDispatch w = true) : flagged w = false := by
  by_contra flag
  obtain ⟨l,member⟩ := h.needed need (by simpa using flag)
  rcases List.mem_cons.mp member with same | below
  · cases same
    cases outside
  have stack := h.inv.stack
  cases stack with
  | task => cases below
  | interrupt inside => cases outside.symm.trans inside
  | exception => cases outside
  | exit _ _ quiet => exact noUnwinding quiet l below

theorem guardedExit {code p q v due} (h : Guarded ⟨w,⟨code,p⟩ :: rest,owed⟩)
    (outside : p.inHandler = false) (moved : advance p w owed = some (q,v,due))
    (inv : Inv ⟨v,(q.map fun p => ⟨code,p⟩).toList ++ rest,due⟩) : Guarded ⟨v,(q.map fun p => ⟨code,p⟩).toList ++ rest,due⟩ := by
  have loads : ∀ c u, ⟨c,.clearing (some u)⟩ ∈ rest → flagged u = false := fun c u member => h.loads c u (List.mem_cons_of_mem _ member)
  cases p with
  | running | unwinding => cases outside
  | testing =>
    cases moved
    refine guardedMove h inv rfl rfl rfl ?_
    split <;> rfl
  | testingActive =>
    cases moved
    refine guardedMove h inv rfl rfl rfl ?_
    split <;> rfl
  | testingNeed =>
    cases need : tiCheckNeedDispatch w with
    | true =>
      simp only [advance,need] at moved
      cases moved
      exact guardedTop inv (Or.inl (exitUnflagged h rfl need)) fun c u member => loads c u (by simpa using member)
    | false =>
      simp only [advance,need] at moved
      cases moved
      exact guardedMove h inv rfl rfl rfl rfl
  | clearing l =>
    cases l with
    | none =>
      cases moved
      have clear : flagged w = false := Bool.eq_false_iff.mpr fun flag => by cases h.excused flag
      refine guardedTop inv (Or.inl clear) fun c u member => ?_
      rcases List.mem_cons.mp member with same | below
      · cases same
        exact clear
      · exact loads c u below
    | some u =>
      cases moved
      have clear : flagged u = false := h.loads _ u List.mem_cons_self
      exact guardedTop inv (Or.inl (flaggedUndelayed.trans clear)) fun c v member => loads c v (by simpa using member)
  | dispatching =>
    obtain ⟨rfl,_⟩ := Prod.mk.inj (Option.some.inj moved)
    exact guardedTop inv (Or.inr ⟨inv.quiet _ _ rfl (by cases code <;> rfl),rfl⟩) fun c u member => loads c u (by simpa using member)
  | finishing l =>
    cases l with
    | none =>
      cases moved
      exact guardedTop inv (Or.inr ⟨inv.quiet _ _ rfl (by cases code <;> rfl),rfl⟩) fun c u member => loads c u (by simpa using member)
    | some u =>
      cases moved
      exact guardedTop inv (Or.inl flaggedCleared) fun c v member => loads c v (by simpa using member)
  | leaving =>
    cases moved
    refine ⟨inv,fun need flag => ?_,h.excused,loads⟩
    obtain ⟨l,member⟩ := h.needed need flag
    exact ⟨l,by simpa using member⟩

theorem guardedRun (h : Guarded s) (next : step .run s = some s') : Guarded s' := by
  have inv := runInv h.inv next
  obtain ⟨⟨code,p⟩,rest,q,w,due,same,moved,rfl⟩ := runStep next
  obtain ⟨word,frames,owed⟩ := s
  dsimp only at same moved
  subst same
  cases place : p.inHandler with
  | false => exact guardedExit h place moved inv
  | true =>
    have loads : ∀ c v, ⟨c,.clearing (some v)⟩ ∈ rest → flagged v = false := fun c v member => h.loads c v (List.mem_cons_of_mem _ member)
    cases p with
    | running => cases moved
    | unwinding l =>
      cases l with
      | none =>
        cases moved
        refine ⟨inv,fun need flag => ?_,fun _ => rfl,fun c v member => loads c v (by simpa using member)⟩
        obtain ⟨l,member⟩ := h.needed need flag
        rcases List.mem_cons.mp member with same | below
        · cases same
          exact ⟨some w,List.mem_cons_self⟩
        · exact ⟨l,List.mem_cons_of_mem _ below⟩
      | some v =>
        cases moved
        exact guardedTop inv (Or.inl flaggedCleared) fun c v member => loads c v (by simpa using member)
    | _ => cases place

theorem guardedStart (task : InTask w) (quiet : tiCheckNeedDispatch w = false) : Guarded (startAt w) := by
  have fits : Fits [] w := ⟨task.1,task.2.1,task.2.2⟩
  refine ⟨taskInv rfl (fun _ at' => by cases at') fits quiet,fun need => ?_,fun _ => rfl,fun c v member => ?_⟩
  · cases need.symm.trans quiet
  · simp [startAt] at member

theorem reachedGuarded {w₀} (task : InTask w₀) (quiet : tiCheckNeedDispatch w₀ = false) (run : ReachedFrom w₀ s) : Guarded s := by
  induction run with
  | start => exact guardedStart task quiet
  | @step e s s' _ shallow next ih =>
    cases e with
    | trap irq => exact guardedTrap ih shallow next
    | leave => exact guardedLeave ih next
    | schedule => exact guardedSchedule ih next
    | run => exact guardedRun ih next

theorem guardedFresh (h : Guarded s) : Fresh s := by
  intro c rest top
  refine Bool.eq_false_iff.mpr fun flag => ?_
  have fine := h.excused flag
  rw [top] at fine
  cases fine

end Steps

section Held

def Point.parked (p : Point) : Bool :=
  match p with
  | .running | .unwinding _ | .testing | .leaving => true
  | _ => false

structure Held (s : Thread) : Prop where
  off : 0 < tiReferPreemptCount s.word
  parked : ∀ f ∈ s.frames, Point.parked f.point = true ∧ ∀ v, f.point = .unwinding (some v) → 0 < tiReferPreemptCount v

theorem offTrap (irq : Bool) (d : Word) : tiReferPreemptCount (tiUpdatePreemptCount w (trapShift irq) d) = tiReferPreemptCount w :=
  updateOther d (by cases irq <;> decide) (by cases irq <;> decide)

theorem offCleared : tiReferPreemptCount (tiClrPreemptActive w) = tiReferPreemptCount w := referUnflagged (by decide) (activeClear (by decide))

theorem heldSchedule (off : 0 < tiReferPreemptCount w) : 0 < tiReferPreemptCount (schedSchedule w).1 := by
  have active : 0 < tiReferPreemptCount (tiSetPreemptActive w) := by rwa [preemptActivated]
  simp only [schedSchedule,if_pos (Or.inl active)]
  rwa [show tiReferPreemptCount (tiSetDelayDispatch (tiSetPreemptActive w)) = tiReferPreemptCount (tiSetPreemptActive w) from
    referFlagged (delayedClear (by decide))]

theorem heldPush {code p due} (off : 0 < tiReferPreemptCount w)
    (below : ∀ f ∈ rest, Point.parked f.point = true ∧ ∀ v, f.point = .unwinding (some v) → 0 < tiReferPreemptCount v)
    (here : Point.parked p = true) (load : ∀ v, p = .unwinding (some v) → 0 < tiReferPreemptCount v) : Held ⟨w,⟨code,p⟩ :: rest,due⟩ := by
  refine ⟨off,fun f member => ?_⟩
  rcases List.mem_cons.mp member with rfl | member
  · exact ⟨here,load⟩
  · exact below f member

theorem heldBelow {f : Frame} (h : Held s) (same : s.frames = f :: rest) :
    ∀ f ∈ rest, Point.parked f.point = true ∧ ∀ v, f.point = .unwinding (some v) → 0 < tiReferPreemptCount v :=
  fun g member => h.parked g (by rw [same]; exact List.mem_cons_of_mem _ member)

theorem heldRun (h : Held s) (next : step .run s = some s') : Held s' := by
  obtain ⟨⟨code,p⟩,rest,q,w,due,same,moved,rfl⟩ := runStep next
  obtain ⟨parked,load⟩ := h.parked ⟨code,p⟩ (by rw [same]; exact List.mem_cons_self)
  have below := heldBelow h same
  cases p with
  | running => cases moved
  | unwinding l =>
    cases l with
    | none =>
      cases moved
      exact heldPush h.off below rfl fun _ at' => by cases at'; exact h.off
    | some v =>
      cases moved
      exact heldPush (by rw [offCleared]; exact load v rfl) below rfl fun _ at' => by cases at'
  | testing =>
    simp only [advance,if_pos (Or.inl h.off : 0 < tiReferPreemptCount s.word ∨ 0 < tiReferIrqCount s.word)] at moved
    cases moved
    exact heldPush h.off below rfl fun _ at' => by cases at'
  | leaving =>
    cases moved
    exact ⟨h.off,below⟩
  | _ => cases parked

theorem heldStep {e} (h : Held s) (next : step e s = some s') : Held s' := by
  cases e with
  | trap irq =>
    cases next
    exact heldPush (by rw [offTrap]; exact h.off) h.parked rfl fun _ at' => by cases at'
  | leave =>
    obtain ⟨irq,rest,w,same,rfl,rfl⟩ := leaveStep next
    have below := heldBelow h same
    have off : 0 < tiReferPreemptCount (tiUpdatePreemptCount s.word (trapShift irq) (-1)) := by
      rw [offTrap]
      exact h.off
    split
    · exact ⟨off,below⟩
    · exact heldPush off below rfl fun _ at' => by cases at'
  | schedule =>
    obtain ⟨code,rest,same,_,rfl⟩ := scheduleStep next
    exact heldPush (heldSchedule h.off) (heldBelow h same) rfl fun _ at' => by cases at'
  | run => exact heldRun h next

theorem reachedHeld {w₀} (off : 0 < tiReferPreemptCount w₀) (run : ReachedFrom w₀ s) : Held s := by
  induction run with
  | start =>
    refine ⟨off,fun f member => ?_⟩
    rw [startAt,List.mem_singleton] at member
    subst member
    exact ⟨rfl,fun _ at' => by cases at'⟩
  | step _ _ next ih => exact heldStep ih next

theorem heldFresh (h : Held s) : Fresh s := by
  intro c rest top
  have parked := (h.parked ⟨c,.dispatching⟩ (by rw [top]; exact List.mem_cons_self)).1
  cases parked

end Held

section Reentry

theorem pendingReenters (task : InTask w) (need : tiCheckNeedDispatch w = true) : ∃ s, ReachedFrom w s ∧ ¬ Fresh s := by
  have go : ∀ {s s' : Thread}, ReachedFrom w s → step .run s = some s' → ReachedFrom w s' := fun run next => .step (e := .run) run trivial next
  have low : ∀ irq, nesting irq [⟨.task,.unwinding none⟩] < 256 := fun irq => by rw [taskNesting]; decide
  have free : Fits [] w := ⟨task.1,task.2.1,task.2.2⟩
  have fits : Fits [⟨.task,.unwinding none⟩] (tiSetPreemptActive w) := fitsSetActive (fitsNesting free (taskNesting _))
  obtain ⟨v,after⟩ : ∃ v, v = tiUpdatePreemptCount (tiUpdatePreemptCount (tiSetPreemptActive w) (trapShift true) 1) (trapShift true) (-1) :=
    ⟨_,rfl⟩
  have fits' : Fits [⟨.task,.unwinding none⟩] v := by
    rw [after]
    exact fitsLeave true (fitsTrap true fits)
  have needed : tiCheckNeedDispatch v = true := by rw [after,needTrap,needTrap,needActivated,need]
  have flag : flagged v = true := by rw [after,flaggedTrap,flaggedTrap,flaggedSet]
  have idle : ¬ (0 < tiReferPreemptCount v ∨ 0 < tiReferIrqCount v) := fun busy => (irqBusy fits' low).mp busy (taskNesting _ _)
  have outermost : ¬ v &&& 0xffff ≠ 0 := fun busy => by
    rcases (trapBusy fits' low).mp busy with inner | inner
    · exact inner (taskNesting _ _)
    · exact inner (taskNesting _ _)
  have scheduled : step .schedule (startAt w) = some ⟨tiSetPreemptActive w,[⟨.task,.unwinding none⟩],false⟩ := by
    have alone : Fits [⟨.task,.running⟩] w := fitsNesting free (taskNesting _)
    simp [step,startAt,selects alone (fun irq => by rw [taskNesting]; decide) (taskNesting _ _)]
  have shallow : nesting true [⟨.task,.unwinding none⟩] < 255 := by
    rw [taskNesting]
    decide
  have trapped : ReachedFrom w ⟨tiUpdatePreemptCount (tiSetPreemptActive w) (trapShift true) 1,
    [⟨.trap true,.running⟩,⟨.task,.unwinding none⟩],false⟩ :=
    .step (e := .trap true) (.step (e := .schedule) .start trivial scheduled) shallow rfl
  have left : ReachedFrom w ⟨v,[⟨.trap true,.testing⟩,⟨.task,.unwinding none⟩],false⟩ := by
    refine .step (e := .leave) trapped trivial ?_
    simp only [step,← after,if_neg outermost]
  have tested : ReachedFrom w ⟨v,[⟨.trap true,.testingActive⟩,⟨.task,.unwinding none⟩],false⟩ :=
    go left (by simp only [step,advance,if_neg idle]; rfl)
  have unseen : ReachedFrom w ⟨v,[⟨.trap true,.testingNeed⟩,⟨.task,.unwinding none⟩],false⟩ :=
    go tested (by simp [step,advance,activeUnseen])
  have seen : ReachedFrom w ⟨v,[⟨.trap true,.clearing none⟩,⟨.task,.unwinding none⟩],false⟩ := go unseen (by simp [step,advance,needed])
  refine ⟨_,go (go seen rfl) rfl,fun fresh => ?_⟩
  have clear := fresh _ _ rfl
  rw [flaggedUndelayed,flag] at clear
  cases clear

end Reentry

theorem activeNotReentered (w : Word) :
    ((tiCheckPreemptActive w ≠ 0 ↔ flagged w = true) ↔ flagged w = false) ∧
    (tiReferIrqCount w = 0 → tiReferExcCount w = 0 →
      ((∀ s, ReachedFrom w s → Fresh s) ↔ tiCheckNeedDispatch w = false ∨ 0 < tiReferPreemptCount w)) := by
  refine ⟨?_,fun irq exc => ⟨fun always => ?_,?_⟩⟩
  · rw [activeUnseen]
    cases flagged w <;> simp
  · by_contra pending
    obtain ⟨some,on⟩ := not_or.mp pending
    have zero : tiReferPreemptCount w = 0 := by
      rw [countPos] at on
      exact not_not.mp on
    obtain ⟨s,run,wrong⟩ := pendingReenters ⟨irq,exc,zero⟩ (by simpa using some)
    exact wrong (always s run)
  · rintro (quiet | off) s run
    · by_cases off : 0 < tiReferPreemptCount w
      · exact heldFresh (reachedHeld off run)
      · rw [countPos] at off
        exact guardedFresh (reachedGuarded ⟨irq,exc,not_not.mp off⟩ quiet run)
    · exact heldFresh (reachedHeld off run)

def hit : List Event := [.schedule,.trap true,.leave,.run,.run,.run,.run,.run]

def hitDeep : List Event := [.trap true,.schedule] ++ List.replicate 256 (.trap true) ++ [.leave,.run,.run,.run,.run,.run]

theorem flagUnseen : flagged 0x8000000000000000 = true ∧ tiCheckPreemptActive 0x8000000000000000 = 0 ∧
    runAll hit (startAt 0x4000000000000000) = some ⟨0x8000000000000000,[⟨.trap true,.dispatching⟩,⟨.task,.unwinding none⟩],false⟩ ∧
    runAll hitDeep start = some ⟨0x8000000000000000,⟨.trap true,.dispatching⟩ :: List.replicate 255 ⟨.trap true,.running⟩ ++
      [⟨.trap true,.unwinding none⟩,⟨.task,.running⟩],true⟩ :=
  ⟨by decide,by decide,by decide,by decide +kernel⟩

end TskSw.ActiveDispatch
