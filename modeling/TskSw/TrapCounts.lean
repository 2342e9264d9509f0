import TskSw.Preempt

/-! The counters of the preempt word under nested traps, for the `hal_common_trap_handler` of
both HALs. The counters change with interrupts off; a control flag is set or cleared by a load
and a store of the whole word, and traps may come and go in between. -/
namespace TskSw.TrapCounts
open Preempt

inductive Kind where
  | exception
  | interrupt
  | preempt
  deriving DecidableEq

def Kind.shift : Kind → Nat
  | .exception => thrExccntShift
  | .interrupt => thrIrqcntShift
  | .preempt => thrPrecntShift

def x86NrExceptions : BitVec 64 := 20
def aarch64ExcTypeException : BitVec 64 := 1
def aarch64ExcTypeInterrupt : BitVec 64 := 2

inductive Trap where
  | x64 (trapno : BitVec 64)
  | aarch64 (excType : BitVec 64)
  deriving DecidableEq

def Trap.kind : Trap → Option Kind
  | .x64 trapno => some (if trapno < x86NrExceptions then .exception else .interrupt)
  | .aarch64 excType =>
    if excType &&& 0xf = aarch64ExcTypeException then some .exception
    else if excType &&& 0xf = aarch64ExcTypeInterrupt then some .interrupt
    else none

inductive Flag where
  | delayed
  | active
  deriving DecidableEq

def Flag.place : Flag → Nat
  | .delayed => 62
  | .active => 63

def put (flag : Flag) (on : Bool) (preempt : Word) : Word :=
  match flag,on with
  | .delayed,true => tiSetDelayDispatch preempt
  | .delayed,false => tiClrDelayDispatch preempt
  | .active,true => tiSetPreemptActive preempt
  | .active,false => tiClrPreemptActive preempt

inductive Open where
  | trap (t : Trap)
  | flag (flag : Flag) (on : Bool) (loaded : Word)
  deriving DecidableEq

structure Thread where
  preempt : Word
  opens : List Open

inductive Event where
  | enter (t : Trap)
  | leave
  | load (flag : Flag) (on : Bool)
  | store

def count (k : Kind) (preempt : Word) : BitVec 8 := tiReferPreCount preempt k.shift

def update (k : Option Kind) (diff : Word) (preempt : Word) : Word :=
  match k with
  | none => preempt
  | some k => tiUpdatePreemptCount preempt k.shift diff

def step : Event → Thread → Option Thread
  | .enter t,⟨w,opens⟩ => some ⟨update t.kind 1 w,.trap t :: opens⟩
  | .leave,⟨w,.trap t :: rest⟩ => some ⟨update t.kind (-1) w,rest⟩
  | .load flag on,⟨w,opens⟩ => some ⟨w,.flag flag on w :: opens⟩
  | .store,⟨_,.flag flag on v :: rest⟩ => some ⟨put flag on v,rest⟩
  | _,_ => none

def Open.counts (k : Kind) : Open → Bool
  | .trap t => t.kind = some k
  | .flag _ _ _ => false

def depth (k : Kind) (opens : List Open) : Nat := opens.countP (Open.counts k)

def Shallow (s : Thread) : Event → Prop
  | .enter t => ∀ k, t.kind = some k → depth k s.opens + 1 < 256
  | _ => True

inductive Reached (w : Word) : Thread → Prop where
  | start : Reached w ⟨w,[]⟩
  | step {e : Event} {s s' : Thread} (before : Reached w s) (shallow : Shallow s e) (next : step e s = some s') : Reached w s'

def moved (s : Thread) : Event → Option Kind
  | .enter t => t.kind
  | .leave =>
    match s.opens with
    | .trap t :: _ => t.kind
    | _ => none
  | _ => none

def inside (k : Kind) (i : Nat) : Prop := k.shift ≤ i ∧ i < k.shift + 8

section Fields
variable {w : Word} {k j : Kind} {i : Nat}

theorem shiftLow (k : Kind) : k.shift ≤ 16 := by cases k <;> decide

theorem shiftApart (apart : j ≠ k) : k.shift + 8 ≤ j.shift ∨ j.shift + 8 ≤ k.shift := by
  cases j <;> cases k <;> first | exact absurd rfl apart | decide

theorem countUpdate (m) (d : Word) : count j (update m d w) = count j w + if m = some j then d.setWidth 8 else 0 := by
  cases m with
  | none => exact (BitVec.add_zero _).symm
  | some k =>
    have room : k.shift + 8 ≤ 64 := by
      have := shiftLow k
      omega
    by_cases same : j = k
    · subst same
      rw [if_pos rfl]
      exact updateSame d room
    · rw [if_neg fun e => same (Option.some.inj e).symm]
      exact (updateOther d room (shiftApart same)).trans (BitVec.add_zero _).symm

theorem updateOutside (m d) (outside : ∀ k, m = some k → ¬ inside k i) : (update m d w).getLsbD i = w.getLsbD i := by
  cases m with
  | none => rfl
  | some k =>
    have low := shiftLow k
    rw [update,updateBit d (by omega)]
    exact if_neg (outside k rfl)

theorem putBit (flag : Flag) (on : Bool) (i : Nat) : (put flag on w).getLsbD i = if i = flag.place then on else w.getLsbD i := by
  have wide : i ≥ 64 → w.getLsbD i = false := BitVec.getLsbD_of_ge w i
  cases flag <;> cases on
  · rw [put,tiClrDelayDispatch,BitVec.getLsbD_and,BitVec.getLsbD_not,delayedBit]
    grind [Flag.place]
  · rw [put,tiSetDelayDispatch,BitVec.getLsbD_or,delayedBit]
    grind [Flag.place]
  · rw [put,tiClrPreemptActive,BitVec.getLsbD_and,BitVec.getLsbD_not,activeBit]
    grind [Flag.place]
  · rw [put,tiSetPreemptActive,BitVec.getLsbD_or,activeBit]
    grind [Flag.place]

theorem countPut (flag : Flag) (on) : count k (put flag on w) = count k w := by
  have low := shiftLow k
  have high : 62 ≤ flag.place := by cases flag <;> decide
  refine BitVec.eq_of_getLsbD_eq fun i small => ?_
  rw [count,count,referBit small,referBit small,putBit,if_neg (by omega)]

end Fields

section Runs
variable {w₀ w : Word} {opens : List Open} {s s' : Thread}

def Ahead (w₀ : Word) (opens : List Open) (w : Word) : Prop := ∀ k, count k w = count k w₀ + BitVec.ofNat 8 (depth k opens)

def Loads (w₀ : Word) : List Open → Prop
  | [] => True
  | .trap _ :: rest => Loads w₀ rest
  | .flag _ _ v :: rest => Ahead w₀ rest v ∧ Loads w₀ rest

structure Inv (w₀ : Word) (s : Thread) : Prop where
  ahead : Ahead w₀ s.opens s.preempt
  loads : Loads w₀ s.opens
  low : ∀ k, depth k s.opens < 256

theorem depthTrap (k t opens) : depth k (.trap t :: opens) = depth k opens + if t.kind = some k then 1 else 0 := by
  rw [depth,List.countP_cons]
  simp [Open.counts,depth]

theorem depthFlag (k : Kind) (flag : Flag) (on : Bool) (v : Word) : depth k (.flag flag on v :: opens) = depth k opens :=
  List.countP_cons_of_neg Bool.false_ne_true

theorem enterInv {t} (h : Inv w₀ s) (shallow : Shallow s (.enter t)) : Inv w₀ ⟨update t.kind 1 s.preempt,.trap t :: s.opens⟩ := by
  refine ⟨fun k => ?_,h.loads,fun k => ?_⟩
  · rw [countUpdate,h.ahead,depthTrap,BitVec.ofNat_add,← BitVec.add_assoc]
    congr 1
    split <;> rfl
  · have before := h.low k
    rw [depthTrap]
    split
    · rename_i here
      exact shallow k here
    · exact before

theorem leaveInv {t rest} (h : Inv w₀ s) (top : s.opens = .trap t :: rest) : Inv w₀ ⟨update t.kind (-1) s.preempt,rest⟩ := by
  have loads := h.loads
  rw [top] at loads
  refine ⟨fun k => ?_,loads,fun k => ?_⟩
  · rw [countUpdate,h.ahead,top,depthTrap]
    split
    · have minus : (-1 : Word).setWidth 8 = -1#8 := by decide
      rw [minus,BitVec.ofNat_add,← BitVec.add_assoc,← BitVec.sub_eq_add_neg,BitVec.add_sub_cancel]
    · exact BitVec.add_zero _
  · have before := h.low k
    rw [top,depthTrap] at before
    exact Nat.lt_of_le_of_lt (Nat.le_add_right _ _) before

theorem stepInv {e} (h : Inv w₀ s) (shallow : Shallow s e) (next : step e s = some s') : Inv w₀ s' := by
  obtain ⟨w,opens⟩ := s
  cases e with
  | enter t =>
    cases next
    exact enterInv h shallow
  | leave =>
    cases opens with
    | nil => cases next
    | cons o rest =>
      cases o with
      | trap t =>
        cases next
        exact leaveInv h rfl
      | flag => cases next
  | load flag on =>
    cases next
    exact ⟨fun k => (h.ahead k).trans (by rw [depthFlag]),⟨h.ahead,h.loads⟩,fun k => by rw [depthFlag]; exact h.low k⟩
  | store =>
    cases opens with
    | nil => cases next
    | cons o rest =>
      cases o with
      | trap => cases next
      | flag flag on v =>
        cases next
        obtain ⟨ahead,loads⟩ := h.loads
        exact ⟨fun k => (countPut flag on).trans (ahead k),loads,fun k => by rw [← depthFlag k flag on v]; exact h.low k⟩

theorem reachedInv (run : Reached w₀ s) : Inv w₀ s := by
  induction run with
  | start => exact ⟨fun k => (BitVec.add_zero _).symm,trivial,fun k => Nat.zero_lt_succ _⟩
  | step _ shallow next ih => exact stepInv ih shallow next

theorem countsAreDepths (run : Reached w₀ s) :
    ((∀ k, count k w₀ = 0) → ∀ k, (count k s.preempt).toNat = depth k s.opens) ∧
    (s.opens = [] → ∀ k, count k s.preempt = count k w₀) ∧
    (∀ e s', e ≠ .store → step e s = some s' → ∀ i, (∀ k, moved s e = some k → ¬ inside k i) →
      s'.preempt.getLsbD i = s.preempt.getLsbD i) ∧
    ∀ s', step .store s = some s' → (∀ k, count k s'.preempt = count k s.preempt) ∧
      ∃ flag on v rest, s.opens = .flag flag on v :: rest ∧ ∀ i, s'.preempt.getLsbD i = if i = flag.place then on else v.getLsbD i := by
  have h := reachedInv run
  refine ⟨fun zero k => ?_,fun closed k => ?_,fun e s' other next i outside => ?_,fun s' next => ?_⟩
  · have number : count k s.preempt = BitVec.ofNat 8 (depth k s.opens) := by
      rw [h.ahead,zero]
      exact BitVec.zero_add _
    rw [number,BitVec.toNat_ofNat,Nat.mod_eq_of_lt (h.low k)]
  · rw [h.ahead,closed]
    exact BitVec.add_zero _
  · obtain ⟨w,opens⟩ := s
    cases e with
    | enter t =>
      cases next
      exact updateOutside t.kind 1 outside
    | leave =>
      cases opens with
      | nil => cases next
      | cons o rest =>
        cases o with
        | trap t =>
          cases next
          exact updateOutside t.kind (-1) outside
        | flag => cases next
    | load flag on =>
      cases next
      rfl
    | store => exact absurd rfl other
  · obtain ⟨w,opens⟩ := s
    have after := stepInv (e := .store) h trivial next
    cases opens with
    | nil => cases next
    | cons o rest =>
      cases o with
      | trap => cases next
      | flag flag on v =>
        cases next
        refine ⟨fun k => ?_,flag,on,v,rest,rfl,putBit flag on⟩
        rw [after.ahead,h.ahead,depthFlag]

end Runs

theorem nestedCounts : ∃ s, Reached 0 s ∧ depth .exception s.opens = 1 ∧ depth .interrupt s.opens = 1 ∧
    (count .exception s.preempt).toNat = 1 ∧ (count .interrupt s.preempt).toNat = 1 ∧ (count .preempt s.preempt).toNat = 0 := by
  have flag : Reached 0 _ := .step (e := .load .delayed true) .start trivial rfl
  have outer : Reached 0 _ := .step (e := .enter (.x64 13)) flag (fun k _ => by cases k <;> decide) rfl
  have inner : Reached 0 _ := .step (e := .enter (.x64 32)) outer (fun k _ => by cases k <;> decide) rfl
  have counts := (countsAreDepths inner).1 fun k => by cases k <;> decide
  exact ⟨_,inner,by decide,by decide,counts .exception,counts .interrupt,counts .preempt⟩

end TskSw.TrapCounts
