import TskSw.Errno
import TskSw.BlkIo
import TskSw.Tally

/-! The device switch of `dev/devsw.c`. Every function takes `devices.mtx`, so that what it
does between `mutex_hold` and `mutex_release` is one step here; `unregister_device_driver`
takes the mutex again for each look at the count. -/
namespace TskSw.Devsw
open Tally
open BlkIo (Fault devswDevicesNr)

def stateNone : BitVec 32 := 0
def stateRun : BitVec 32 := 1
def stateUnreg : BitVec 32 := 2

abbrev Slot := Fin devswDevicesNr

structure Driver (ο : Type) where
  dev : BitVec 64
  state : BitVec 32
  drvCount : BitVec 64
  table : Option ο

structure System (τ ο : Type) where
  drv : Slot → Driver ο
  handles : List (τ × Slot)
  leaving : List (τ × Slot)

inductive Action (τ ο : Type) where
  | register (t : τ) (dev : BitVec 64) (drv : ο)
  | unregister (t : τ) (dev : BitVec 64)
  | retry (t : τ) (dev : Slot)
  | get (t : τ) (dev : BitVec 64)
  | put (t : τ) (dev : Slot)

section Functions
variable {τ ο : Type} [DecidableEq τ]

def slotOf (dev : BitVec 64) : Option Slot := if h : dev.toNat < devswDevicesNr then some ⟨dev.toNat,h⟩ else none

def System.set (s : System τ ο) (d : Slot) (drvp : Driver ο) : System τ ο := {s with drv := Function.update s.drv d drvp}

def registerDeviceDriver (dev : BitVec 64) (drv : ο) (s : System τ ο) : Int × System τ ο :=
  match slotOf dev with
  | none => (einval,s)
  | some d => if 0 < (s.drv d).dev ∨ 0 < (s.drv d).drvCount.toInt then (ebusy,s) else (0,s.set d ⟨dev,stateRun,0,some drv⟩)

def unregisterDeviceDriver (t : τ) (dev : BitVec 64) (s : System τ ο) : Option Int × System τ ο :=
  match slotOf dev with
  | none => (some einval,s)
  | some d =>
    let drvp := s.drv d
    if drvp.dev = 0 then (some enoent,s)
    else (none,{s.set d {drvp with drvCount := drvp.drvCount + 1, state := (drvp.state ||| stateUnreg) &&& ~~~stateRun} with
                  leaving := (t,d) :: s.leaving})

def unregisterRetry (t : τ) (d : Slot) (s : System τ ο) : Except Fault (Option Int × System τ ο) :=
  let drvp := s.drv d
  if drvp.drvCount ≠ 1 then .ok (none,s)
  else
    let state := drvp.state &&& ~~~stateUnreg
    if state ≠ stateNone then .error .assertion
    else .ok (some 0,{s.set d ⟨0,state,0,none⟩ with leaving := s.leaving.erase (t,d)})

def devswGetHandle (t : τ) (dev : BitVec 64) (s : System τ ο) : Except Fault (Slot × System τ ο) :=
  if devswDevicesNr < dev.toNat then .error .assertion
  else
    match slotOf dev with
    | none => .error .outOfBounds
    | some d =>
      let drvp := s.drv d
      let s := {s with handles := (t,d) :: s.handles}
      if drvp.state &&& stateRun = 0 then .ok (d,s) else .ok (d,s.set d {drvp with drvCount := drvp.drvCount + 1})

def devswPutHandle (t : τ) (d : Slot) (s : System τ ο) : Except Fault (System τ ο) :=
  let drvp := s.drv d
  if drvp.drvCount.toInt ≤ 0 then .error .assertion
  else .ok {s.set d {drvp with drvCount := drvp.drvCount - 1} with handles := s.handles.erase (t,d)}

def step : Action τ ο → System τ ο → Except Fault (System τ ο)
  | .register _ dev drv,s => .ok (registerDeviceDriver dev drv s).2
  | .unregister t dev,s => .ok (unregisterDeviceDriver t dev s).2
  | .retry t d,s => (unregisterRetry t d s).map Prod.snd
  | .get t dev,s => (devswGetHandle t dev s).map Prod.snd
  | .put t d,s => devswPutHandle t d s

def start : System τ ο := ⟨fun _ => ⟨0,stateNone,0,none⟩,[],[]⟩

def Legal (s : System τ ο) : Action τ ο → Prop
  | .register t _ _ | .unregister t _ | .get t _ => ∀ d, (t,d) ∉ s.leaving
  | .retry t d => (t,d) ∈ s.leaving
  | .put t d => (t,d) ∈ s.handles ∧ ∀ e, (t,e) ∉ s.leaving

def Running (s : System τ ο) : Action τ ο → Prop
  | .get _ dev => (∃ d, slotOf dev = some d ∧ (s.drv d).state &&& stateRun ≠ 0) ∧ s.handles.length + s.leaving.length + 1 < 2^63
  | .unregister _ _ => s.handles.length + s.leaving.length + 1 < 2^63
  | _ => True

inductive Reached : System τ ο → Prop where
  | start : Reached start
  | step {a : Action τ ο} {s s' : System τ ο} (before : Reached s) (legal : Legal s a) (running : Running s a)
      (next : step a s = .ok s') : Reached s'

end Functions

section Counts
variable {τ ο : Type} [DecidableEq τ] {s s' : System τ ο} {d : Slot}

structure Counted (s : System τ ο) : Prop where
  count : ∀ d, (s.drv d).drvCount = BitVec.ofNat 64 (tally d s.handles + tally d s.leaving)
  low : s.handles.length + s.leaving.length < 2^63
  registered : ∀ d, (s.drv d).dev ≠ 0 → (s.drv d).state = stateRun ∧ tally d s.leaving = 0 ∨ (s.drv d).state = stateUnreg ∧
    0 < tally d s.leaving
  free : ∀ d, (s.drv d).dev = 0 → tally d s.leaving = 0

theorem eraseLength {t} {l : List (τ × Slot)} (member : (t,d) ∈ l) : (l.erase (t,d)).length + 1 = l.length := by
  rw [List.length_erase_of_mem member]
  exact Nat.sub_add_cancel (List.length_pos_of_mem member)

theorem toIntCount {n : Nat} (low : n < 2^63) : (BitVec.ofNat 64 n).toInt = n := by
  rw [BitVec.toInt_eq_toNat_of_lt (by rw [BitVec.toNat_ofNat]; omega),BitVec.toNat_ofNat]
  omega

omit [DecidableEq τ] in
theorem countLow (h : Counted s) (d : Slot) : tally d s.handles + tally d s.leaving < 2^63 := by
  have := tallyLength d s.handles
  have := tallyLength d s.leaving
  have := h.low
  omega

omit [DecidableEq τ] in
theorem countedSet {drvp : Driver ο} {handles leaving : List (τ × Slot)} (h : Counted s) (low : handles.length + leaving.length < 2^63)
    (others : ∀ e, e ≠ d → tally e handles = tally e s.handles ∧ tally e leaving = tally e s.leaving)
    (count : drvp.drvCount = BitVec.ofNat 64 (tally d handles + tally d leaving))
    (registered : drvp.dev ≠ 0 → drvp.state = stateRun ∧ tally d leaving = 0 ∨ drvp.state = stateUnreg ∧ 0 < tally d leaving)
    (free : drvp.dev = 0 → tally d leaving = 0) : Counted ⟨Function.update s.drv d drvp,handles,leaving⟩ := by
  refine ⟨fun e => ?_,low,fun e => ?_,fun e => ?_⟩ <;> by_cases same : e = d
  · subst same
    simpa using count
  · simpa [same,others e same] using h.count e
  · subst same
    simpa using registered
  · simpa [same,others e same] using h.registered e
  · subst same
    simpa using free
  · simpa [same,others e same] using h.free e

theorem getCounted {t} {dev : BitVec 64} (h : Counted s) (running : Running s (.get t dev)) (next : step (.get t dev) s = .ok s') : Counted s' := by
  obtain ⟨⟨d,slot,run⟩,low⟩ := running
  have inside : ¬ devswDevicesNr < dev.toNat := by
    unfold slotOf at slot
    split at slot
    · exact Nat.not_lt.mpr (Nat.le_of_lt (by assumption))
    · cases slot
  simp only [step,devswGetHandle,if_neg inside,slot,if_neg run] at next
  cases next
  refine countedSet (s := s) h (by simpa [Nat.add_right_comm] using low) (fun e other => ⟨?_,rfl⟩) ?_ (h.registered d) (h.free d)
  · simp [tallyCons,Ne.symm other]
  · rw [h.count,tallyCons,if_pos rfl,Nat.add_right_comm,BitVec.ofNat_add (tally d s.handles + tally d s.leaving)]
    rfl

theorem putCounted {t} (h : Counted s) (member : (t,d) ∈ s.handles) :
    ∃ s', step (.put t d) s = .ok s' ∧ Counted s' := by
  have held := tallyErase d member
  rw [if_pos rfl] at held
  have positive : ¬ (s.drv d).drvCount.toInt ≤ 0 := by
    rw [h.count,toIntCount (countLow h d)]
    omega
  have ran : step (.put t d) s = .ok ⟨Function.update s.drv d {s.drv d with drvCount := (s.drv d).drvCount - 1},s.handles.erase (t,d),
    s.leaving⟩ := by
    simp only [step,devswPutHandle,if_neg positive]
    rfl
  refine ⟨_,ran,countedSet h ?_ (fun e other => ⟨?_,rfl⟩) ?_ (h.registered d) (h.free d)⟩
  · have := eraseLength member
    have := h.low
    omega
  · rw [tallyErase e member,if_neg (Ne.symm other)]
    rfl
  · have more : tally d s.handles + tally d s.leaving = tally d (s.handles.erase (t,d)) + tally d s.leaving + 1 := by omega
    rw [h.count,more,BitVec.ofNat_add _ 1]
    exact BitVec.add_sub_cancel ..

omit [DecidableEq τ] in
theorem registerCounted {dev drv} (h : Counted s) : Counted (registerDeviceDriver dev drv s).2 := by
  cases slot : slotOf dev with
  | none => simpa only [registerDeviceDriver,slot] using h
  | some d =>
    by_cases busy : 0 < (s.drv d).dev ∨ 0 < (s.drv d).drvCount.toInt
    · simpa only [registerDeviceDriver,slot,if_pos busy] using h
    · simp only [registerDeviceDriver,slot,if_neg busy]
      have unused : tally d s.handles + tally d s.leaving = 0 := by
        have count := h.count d
        have idle := (not_or.mp busy).2
        rw [count,toIntCount (countLow h d)] at idle
        omega
      refine countedSet h h.low (fun _ _ => ⟨rfl,rfl⟩) (by rw [unused]; rfl) (fun _ => Or.inl ⟨rfl,by omega⟩) fun _ => by omega

omit [DecidableEq τ] in
theorem unregisterCounted {t dev} (h : Counted s) (room : s.handles.length + s.leaving.length + 1 < 2^63) :
    Counted (unregisterDeviceDriver t dev s).2 := by
  cases slot : slotOf dev with
  | none => simpa only [unregisterDeviceDriver,slot] using h
  | some d =>
    by_cases gone : (s.drv d).dev = 0
    · simpa only [unregisterDeviceDriver,slot,if_pos gone] using h
    · simp only [unregisterDeviceDriver,slot,if_neg gone,System.set]
      refine countedSet h (by simpa [Nat.add_assoc] using room) (fun e other => ⟨rfl,by simp [tallyCons,Ne.symm other]⟩) ?_
        (fun _ => Or.inr ⟨?_,?_⟩)
        fun absurd' => absurd absurd' gone
      · rw [h.count,tallyCons,if_pos rfl,← Nat.add_assoc,BitVec.ofNat_add (tally d s.handles + tally d s.leaving)]
        rfl
      · dsimp only
        rcases h.registered d gone with ⟨state,_⟩ | ⟨state,_⟩ <;> (rw [state]; decide)
      · rw [tallyCons,if_pos rfl]
        omega

theorem retryCounted {t} (h : Counted s) (member : (t,d) ∈ s.leaving) :
    ∃ s', step (.retry t d) s = .ok s' ∧ Counted s' ∧ (s' = s ∨ tally d s.handles = 0) := by
  have waits := tallyErase d member
  rw [if_pos rfl] at waits
  by_cases last : (s.drv d).drvCount = 1
  · have one : tally d s.handles + tally d s.leaving = 1 := by
      have count := h.count d
      rw [last] at count
      have same := congrArg BitVec.toInt count
      rw [toIntCount (countLow h d),show (1 : BitVec 64).toInt = 1 by decide] at same
      omega
    have state : (s.drv d).state = stateUnreg := by
      by_cases gone : (s.drv d).dev = 0
      · have := h.free d gone
        omega
      · rcases h.registered d gone with ⟨_,none⟩ | ⟨state,_⟩
        · omega
        · exact state
    have ran : step (.retry t d) s = .ok ⟨Function.update s.drv d ⟨0,0,0,none⟩,s.handles,s.leaving.erase (t,d)⟩ := by
      simp only [step,unregisterRetry,last,state]
      rfl
    refine ⟨_,ran,countedSet h ?_ (fun e other => ⟨rfl,?_⟩) ?_ (fun absurd' => absurd rfl absurd') fun _ => ?_,Or.inr (by omega)⟩
    · have := eraseLength member
      have := h.low
      omega
    · rw [tallyErase e member,if_neg (Ne.symm other)]
      rfl
    · have none : tally d s.handles + tally d (s.leaving.erase (t,d)) = 0 := by omega
      rw [none]
      rfl
    · omega
  · exact ⟨s,by simp only [step,unregisterRetry]; rw [if_pos last]; rfl,h,Or.inl rfl⟩

theorem reachedCounted (run : Reached s) : Counted s := by
  induction run with
  | start =>
    exact ⟨fun _ => rfl,Nat.two_pow_pos 63,fun _ registered => absurd rfl registered,fun _ _ => rfl⟩
  | @step a s s' _ legal running next ih =>
    cases a with
    | register t dev drv =>
      cases next
      exact registerCounted ih
    | unregister t dev =>
      cases next
      exact unregisterCounted ih running
    | retry t d =>
      obtain ⟨_,ran,counted,_⟩ := retryCounted ih legal
      cases ran.symm.trans next
      exact counted
    | get t dev => exact getCounted ih running next
    | put t d =>
      obtain ⟨_,ran,counted⟩ := putCounted ih legal.1
      cases ran.symm.trans next
      exact counted

theorem usedNotTornDown (run : Reached s) :
    (∀ t d, (t,d) ∈ s.handles → ∃ s', step (.put t d) s = .ok s') ∧
    (∀ t d, (t,d) ∈ s.leaving → ∃ s', step (.retry t d) s = .ok s' ∧ (s'.drv ≠ s.drv → ∀ u, (u,d) ∉ s.handles)) := by
  have h := reachedCounted run
  refine ⟨fun t d member => ?_,fun t d member => ?_⟩
  · obtain ⟨s',ran,_⟩ := putCounted h member
    exact ⟨s',ran⟩
  · obtain ⟨s',ran,_,same | none⟩ := retryCounted h member
    · exact ⟨s',ran,fun changed => absurd (congrArg System.drv same) changed⟩
    · exact ⟨s',ran,fun _ u held => absurd (tallyPos held) (by omega)⟩

end Counts

section Examples

def runAll (as : List (Action Nat Unit)) (s : System Nat Unit) : Except Fault (System Nat Unit) := as.foldlM (fun s a => step a s) s

theorem userIsWaitedFor : ∃ s : System Nat Unit, Reached s ∧ (1,1) ∈ s.handles ∧ (2,1) ∈ s.leaving ∧
    ∃ s', step (.retry 2 1) s = .ok s' ∧ s'.drv = s.drv := by
  have registered : Reached _ := .step (a := .register 1 1 ()) .start (fun _ absurd => by cases absurd) trivial rfl
  have got : Reached _ := .step (a := .get 1 1) registered (fun _ absurd => by cases absurd) ⟨⟨1,by decide,by decide⟩,by decide⟩ rfl
  have run : Reached _ := .step (a := .unregister 2 1) got (fun _ absurd => by cases absurd) (show 1+0+1 < 2^63 by decide) rfl
  obtain ⟨s',ran,idle⟩ := (usedNotTornDown run).2 2 1 (by decide)
  refine ⟨_,run,by decide,by decide,s',ran,?_⟩
  by_contra changed
  exact idle changed 1 (by decide)

-- Thread 3 gets the driver that is being taken down without being counted, and puts it back.
def threeThreads : List (Action Nat Unit) :=
  [.register 1 1 (),.get 1 1,.unregister 2 1,.get 3 1,.put 3 1,.retry 2 1]

theorem tornDownInUse : ∃ s, runAll threeThreads start = .ok s ∧ (1,1) ∈ s.handles ∧ (s.drv 1).table = none ∧
    step (.put 1 1) s = .error .assertion :=
  ⟨_,rfl,by decide,by decide,rfl⟩

end Examples

end TskSw.Devsw
